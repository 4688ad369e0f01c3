import PriorityLock.Semaphore.Eviction

/-! # Why a holder is asked to leave

A holder is flagged because a request above it had to wait, or it was granted
its permits after its own request was flagged. An acquire that finds its permits
flags the holders below it too, for no reason.
-/

namespace PriorityLock.Semaphore

open Placement Transition PriorityQueue

variable {B : Build} {Q P : Type} [Priority P] [PriorityQueue Q (SemaphoreWaiter B P)]
  {s s' s₀ : System B Q} {p p' : Pool B P} {op : Op B P} {r : Result B} {e : Queued B P}
  {os : List (Op B P)} {h : Handle}

section Reasons

def HasEntry (h : Handle) (s : System B Q) : Prop := Has s fun e => e.handle = h

def HasHolder (h : Handle) (s : System B Q) : Prop :=
  Has s fun e => e.handle = h ∧ hasLock e = true

def Challenges (h : Handle) (s : System B Q) (op : Op B P) : Prop :=
  ∃ priority n, op.request = some (priority, n) ∧ (∃ x s', call s op = some (.pending x, s')) ∧
    Has s fun e => e.handle = h ∧ Priority.compare priority e.data.priority = .gt

/-- A waiting entry is flagged, and asks for more than the total. -/
def FlaggedShort (h : Handle) (s : System B Q) : Prop :=
  B.semaphoreTotal = true ∧ Has s fun e => e.handle = h ∧ hasLock e = false ∧
    wantsEvict e = true ∧ s.inner.total < count e

/-- While it held its permits a request above it had to wait, or it was flagged as it waited. -/
def Justified (s₀ : System B Q) (os : List (Op B P)) (h : Handle) : Prop :=
  SinceStep (after call) s₀ (HasHolder h) (Challenges h) os ∨
    Since (after call) s₀ (HasEntry h) (FlaggedShort h) os

def Justifies (s₀ : System B Q) (os : List (Op B P)) (s : System B Q) : Prop :=
  ∃ l, entries s.inner.queue = some l ∧ ∀ e ∈ l, hasLock e = true → wantsEvict e = true →
    Justified s₀ os e.handle

/-- An acquire that is granted its permits at once flags no holder. -/
def Spares (s : System B Q) (op : Op B P) : Prop :=
  ∃ l r s' l', entries s.inner.queue = some l ∧ call s op = some (r, s') ∧
    entries s'.inner.queue = some l' ∧ (op.request.isSome → (∃ h, r = .permit h) →
      ∀ e ∈ l, hasLock e = true → ∀ f ∈ l', f.handle = e.handle → wantsEvict f = true →
        wantsEvict e = true)

/-- An acquire that finds its permits finds the holders below it flagged. -/
def FindsFlagged (s : System B Q) (op : Op B P) : Prop :=
  ∃ l, entries s.inner.queue = some l ∧ ∀ priority,
    Serves s.inner.available (waiting l) op priority → ∀ e ∈ l, hasLock e = true →
      Priority.compare priority e.data.priority = .gt → wantsEvict e = true

end Reasons

section Calls

theorem call_pending {x : Handle} (hop : op.request.isSome)
    (hc : call s op = some (.pending x, s')) : handles s'.owned ≠ handles s.owned := by
  obtain ⟨-, hr | ⟨n, hr⟩ | ⟨err, hr, -⟩⟩ | ⟨priority, word, ha⟩ := call_request hop hc
  · cases hr
  · cases hr
  · cases hr
  · obtain ⟨y, ⟨-, ho⟩ | ⟨-, ho⟩⟩ := System.acquire_eq ha <;> simp [ho]

variable [LawfulQueue Q (SemaphoreWaiter B P)]

theorem Holds.hasEntry (hs : Holds s p) (he : e ∈ p.held ++ p.pending) : HasEntry e.handle s :=
  hs.has_iff.mpr ⟨e, he, rfl⟩

theorem Holds.hasHolder (hs : Holds s p) (he : e ∈ p.held) : HasHolder e.handle s :=
  hs.has_iff.mpr ⟨e, List.mem_append_left _ he, rfl, hs.view.wf.locked e he⟩

theorem Holds.eq_of_handle {d : Queued B P} (hs : Holds s p) (hd : d ∈ p.held ++ p.pending)
    (he : e ∈ p.held ++ p.pending) (hh : d.handle = e.handle) : d = e :=
  List.inj_on_of_nodup_map hs.view.wf.nodup_handles hd he hh

theorem Holds.challenged (hB : B.evict = true) (hs : Holds s p) (hs' : Holds s' p')
    (hc : Semaphore.call s op = some (r, s')) (hm : Moves op r p p') (he : e ∈ p'.held)
    (hch : Challenges e.handle s op) : wantsEvict e = true := by
  obtain ⟨priority, n, hop, ⟨x, s₁, hc₁⟩, hlow⟩ := hch
  obtain ⟨rfl, rfl⟩ := Prod.mk.inj (Option.some.inj (hc.symm.trans hc₁))
  have hne : p'.arrivals ≠ p.arrivals := by
    rw [hs.arrivals, hs'.arrivals]
    exact call_pending (by simp [hop]) hc
  rcases hm.acquires hop (Or.inl hne) with ⟨y, hr, -⟩ | ⟨y, -, hwaits⟩
  · cases hr
  · rw [hwaits.held] at he
    obtain ⟨d, hd, rfl⟩ := List.mem_map.mp he
    obtain ⟨f, hf, hfd, hgt⟩ := hs.has_iff.mp hlow
    obtain rfl := hs.eq_of_handle hf (List.mem_append_left _ hd) (hfd.trans flag_handle)
    exact wantsEvict_outranked hB (hs.view.wf.locked f hd) hgt

/-- Entries with a reason are flagged, and waiting entries are flagged for one. -/
structure Flags (s₀ : System B Q) (os : List (Op B P)) (p : Pool B P) : Prop where
  asked : ∀ e ∈ p.held, SinceStep (after Semaphore.call) s₀ (HasHolder e.handle)
    (Challenges e.handle) os → wantsEvict e = true
  short : ∀ e ∈ p.held ++ p.pending, Since (after Semaphore.call) s₀ (HasEntry e.handle)
    (FlaggedShort e.handle) os → wantsEvict e = true
  pending : ∀ e ∈ p.pending, wantsEvict e = true → Since (after Semaphore.call) s₀
    (HasEntry e.handle) (FlaggedShort e.handle) os

theorem Flags.step (hB : B.evict = true) (hf : Flags s₀ os p)
    (hr : run (after Semaphore.call) s₀ os = some s) (hs : Holds s p) (hs' : Holds s' p')
    (hc : Semaphore.call s op = some (r, s')) (hm : Moves op r p p') :
    Flags s₀ (os ++ [op]) p' := by
  have hstep : after Semaphore.call s op = some s' := after_eq hc
  have hp := hs.view.wf
  refine ⟨?_, ?_, ?_⟩
  · intro e he h
    rcases (sinceStep_concat hr hstep).mp h with ⟨-, ⟨-, hch⟩ | hold⟩
    · exact hs.challenged hB hs' hc hm he hch
    · obtain ⟨d, hd, hde, hl⟩ := hs.has_iff.mp (hold.now hr)
      have hw := hf.asked d (hs.mem_held hd hl) (hde ▸ hold)
      exact hm.flag_stays hp hd (List.mem_append_left _ he) hde hw
  · intro e he h
    rcases (since_concat hr hstep).mp h with ⟨-, ⟨-, hshort⟩ | hold⟩
    · obtain ⟨d, hd, hde, -, hw, -⟩ := hs'.has_iff.mp hshort
      exact hs'.eq_of_handle hd he hde ▸ hw
    · obtain ⟨d, hd, hde⟩ := hs.has_iff.mp (hold.now hr)
      exact hm.flag_stays hp hd he hde (hf.short d hd (hde ▸ hold))
  · intro e he hw
    have hnow := hs'.hasEntry (List.mem_append_right _ he)
    apply (since_concat hr hstep).mpr ⟨hnow, ?_⟩
    cases hm.pending_origin he with
    | kept h => exact Or.inr (hf.pending e h hw)
    | @oversized d h hB' =>
      by_cases hd : wantsEvict d = true
      · exact Or.inr (by simpa using hf.pending d h hd)
      · refine Or.inl ⟨hB', hs'.has_iff.mpr ⟨_, List.mem_append_right _ he, rfl, ?_, hw, ?_⟩⟩
        · exact hs'.view.wf.unlocked _ he
        · rw [hs'.view.total, count_flag]
          exact (((wantsEvict_oversized hB').mp hw).resolve_left hd).2
    | fresh => cases hw

theorem Justified.concat (h : Justified s₀ os e.handle)
    (hr : run (after Semaphore.call) s₀ os = some s) (hs' : Holds s' p')
    (hc : Semaphore.call s op = some (r, s')) (he : e ∈ p'.held) :
    Justified s₀ (os ++ [op]) e.handle := by
  have hstep : after Semaphore.call s op = some s' := after_eq hc
  rcases h with h | h
  · exact Or.inl ((sinceStep_concat hr hstep).mpr ⟨hs'.hasHolder he, Or.inr h⟩)
  · have hnow := hs'.hasEntry (List.mem_append_left _ he)
    exact Or.inr ((since_concat hr hstep).mpr ⟨hnow, Or.inr h⟩)

theorem Holds.justifies_iff (hs : Holds s p) : Justifies s₀ os s ↔
    ∀ e ∈ p.held, wantsEvict e = true → Justified s₀ os e.handle := by
  rw [Justifies, hs.exists_entries]
  constructor
  · exact fun h e he => h e (List.mem_append_left _ he) (hs.view.wf.locked e he)
  · exact fun h e he hl => h e (hs.mem_held he hl)

theorem Holds.findsFlagged_iff (hs : Holds s p) : FindsFlagged s op ↔ ∀ priority,
    Serves p.available p.pending op priority → ∀ e ∈ p.held,
      Priority.compare priority e.data.priority = .gt → wantsEvict e = true := by
  rw [FindsFlagged, hs.exists_entries, hs.waiting, hs.view.available]
  constructor
  · exact fun h q hq e he => h q hq e (List.mem_append_left _ he) (hs.view.wf.locked e he)
  · exact fun h q hq e he hl => h q hq e (hs.mem_held he hl)

/-- Flagged holders are justified if an acquire that finds its permits flags none anew. -/
theorem Flags.justifies (hf : Flags s₀ os p)
    (hr : run (after Semaphore.call) s₀ os = some s) (hs : Holds s p) (hs' : Holds s' p')
    (hc : Semaphore.call s op = some (r, s')) (hm : Moves op r p p')
    (hj : ∀ e ∈ p.held, wantsEvict e = true → Justified s₀ os e.handle)
    (hfind : ∀ priority, Serves p.available p.pending op priority → ∀ e ∈ p.held,
      Priority.compare priority e.data.priority = .gt → wantsEvict e = true) :
    ∀ e ∈ p'.held, wantsEvict e = true → Justified s₀ (os ++ [op]) e.handle := by
  intro e he hw
  have hstep : after Semaphore.call s op = some s' := after_eq hc
  cases hm.held_origin he with
  | kept h => exact (hj e h hw).concat hr hs' hc he
  | @recounted d _ h => exact Justified.concat (hj d h hw) hr hs' hc he
  | fresh => cases hw
  | @granted d h =>
    have hnow := hs'.hasEntry (List.mem_append_left _ he)
    exact Or.inr ((since_concat hr hstep).mpr ⟨hnow, Or.inr (hf.pending d h hw)⟩)
  | @oversized d h hB =>
    have hle := (hs'.view.conserved hB).count_le he
    rw [count_flag] at hle
    have hd := ((wantsEvict_oversized hB).mp hw).resolve_right
      fun hlt => BitVec.not_lt.mpr hle hlt.2
    exact Justified.concat (by simpa using hj d h hd) hr hs' hc he
  | @asked d priority n h hop hne =>
    by_cases hd : wantsEvict d = true
    · exact Justified.concat (by simpa using hj d h hd) hr hs' hc he
    have hgt : Priority.compare priority d.data.priority = .gt := by
      by_contra hle
      rw [flag, if_neg (by simp [outranked, hle])] at hw
      exact hd hw
    rcases hm.acquires hop (Or.inl hne) with ⟨x, -, hserved⟩ | ⟨x, rfl, -⟩
    · exact absurd (hfind priority hserved.serves d h hgt) hd
    · refine Or.inl ((sinceStep_concat hr hstep).mpr ⟨hs'.hasHolder he, Or.inl ⟨?_, ?_⟩⟩)
      · rw [flag_handle]
        exact hs.hasHolder h
      · refine ⟨priority, n, hop, ⟨x, s', hc⟩, hs.has_iff.mpr ⟨d, ?_, flag_handle.symm, hgt⟩⟩
        exact List.mem_append_left _ h

/-- A holder that an acquire flags as it finds its permits is not justified. -/
theorem Flags.finds {priority : P} (hB : B.evict = true) (hf : Flags s₀ os p)
    (hr : run (after Semaphore.call) s₀ os = some s) (hs : Holds s p)
    (hj : ∀ s', after Semaphore.call s op = some s' → Justifies s₀ (os ++ [op]) s')
    (hserves : Serves p.available p.pending op priority) (he : e ∈ p.held)
    (hgt : Priority.compare priority e.data.priority = .gt) : wantsEvict e = true := by
  by_contra hw
  obtain ⟨x, s', p', hc, hs', -, hserved⟩ := hs.served hserves
  obtain ⟨word, hplace⟩ := hserved.held
  have hstep : after Semaphore.call s op = some s' := after_eq hc
  have he' : flag (outranked priority) e ∈ p'.held :=
    hplace.perm.mem_iff.mpr (List.mem_cons_of_mem _ (List.mem_map_of_mem he))
  have hw' := wantsEvict_outranked hB (hs.view.wf.locked e he) hgt
  have hj' := hs'.justifies_iff.mp (hj s' hstep) _ he' hw'
  rw [flag_handle] at hj'
  rcases hj' with h | h
  · rcases (sinceStep_concat hr hstep).mp h with ⟨-, ⟨-, hch⟩ | hold⟩
    · obtain ⟨q, n, -, ⟨y, s₁, hc₁⟩, -⟩ := hch
      simp [hc] at hc₁
    · exact hw (hf.asked e he hold)
  · rcases (since_concat hr hstep).mp h with ⟨-, ⟨-, hshort⟩ | hold⟩
    · obtain ⟨d, hd, hde, hl, -⟩ := hs'.has_iff.mp hshort
      have hdf := hs'.eq_of_handle hd (List.mem_append_left _ he') (hde.trans flag_handle.symm)
      rw [hdf, hasLock_flag, hs.view.wf.locked e he] at hl
      cases hl
    · exact hw (hf.short e (List.mem_append_left _ he) hold)

theorem Holds.spares_iff (hB : B.evict = true) (hs : Holds s p) :
    Spares s op ↔ FindsFlagged s op := by
  rw [hs.findsFlagged_iff]
  constructor
  · intro h priority hserves e he hgt
    obtain ⟨x, s', p', hc, hs', -, hserved⟩ := hs.served hserves
    rw [Spares, hs.exists_call hc hs'] at h
    obtain ⟨word, hplace⟩ := hserved.held
    have hop : op.request.isSome := by
      obtain ⟨n, word, hreq, -⟩ := hserves
      simp [hreq.request]
    have he' : flag (outranked priority) e ∈ p'.held :=
      hplace.perm.mem_iff.mpr (List.mem_cons_of_mem _ (List.mem_map_of_mem he))
    have hl := hs.view.wf.locked e he
    exact h hop ⟨x, rfl⟩ e (List.mem_append_left _ he) hl _ (List.mem_append_left _ he') flag_handle
      (wantsEvict_outranked hB hl hgt)
  · intro h
    obtain ⟨r, s', p', hc, hs', hm⟩ := hs.call op
    rw [Spares, hs.exists_call hc hs']
    rintro hop ⟨x, rfl⟩ e he hl f hf hfe hw
    obtain ⟨⟨priority, n⟩, hop⟩ := Option.isSome_iff_exists.mp hop
    have hserved := hm.served hop
    obtain ⟨word, hplace⟩ := hserved.held
    have hheld := hs.mem_held he hl
    by_contra hwe
    have hle : Priority.compare priority e.data.priority ≠ .gt := fun hgt =>
      hwe (h priority hserved.serves e hheld hgt)
    have he' : e ∈ p'.held := by
      have hself : flag (outranked priority) e = e := if_neg (by simp [outranked, hle])
      exact hplace.perm.mem_iff.mpr
        (List.mem_cons_of_mem _ (List.mem_map.mpr ⟨e, hheld, hself⟩))
    obtain rfl := hs'.eq_of_handle hf (List.mem_append_left _ he') hfe
    exact hwe hw

end Calls

/-- In all states of a run the flagged holders are justified, if and only if every acquire of the
run that finds its permits finds the holders below it flagged. It flags none if and only if so. -/
theorem evictions_justified_iff (k : QueueKind) {B : Build} (hB : B.evict = true) {P : Type}
    [Priority P] (capacity : Usize B) (ops : List (Op B P)) :
    (Always (after call) (System.start (new capacity) : System B (k.Queue (SemaphoreWaiter B P)))
        (Justifies (System.start (new capacity))) ops ↔
      EachStep (after call) (System.start (new capacity) :
        System B (k.Queue (SemaphoreWaiter B P))) FindsFlagged ops) ∧
    (EachStep (after call) (System.start (new capacity) :
        System B (k.Queue (SemaphoreWaiter B P))) Spares ops ↔
      EachStep (after call) (System.start (new capacity) :
        System B (k.Queue (SemaphoreWaiter B P))) FindsFlagged ops) := by
  constructor
  · apply always_iff fun os s => ∃ p, Holds s p ∧
      Flags (System.start (new capacity) : System B (k.Queue (SemaphoreWaiter B P))) os p
    · exact ⟨_, Holds.start capacity, by simp [Pool.start], by simp [Pool.start],
        by simp [Pool.start]⟩
    · exact (Holds.start capacity).justifies_iff.mpr (by simp [Pool.start])
    · rintro os s op hr ⟨p, hs, hf⟩
      obtain ⟨r, s', p', hc, hs', hm⟩ := hs.call op
      refine ⟨s', after_eq hc, ⟨p', hs', hf.step hB hr hs hs' hc hm⟩, fun hj => ?_⟩
      rw [hs.findsFlagged_iff]
      constructor
      · intro hj' priority hserves e he hgt
        refine hf.finds hB hr hs (fun s₁ hs₁ => ?_) hserves he hgt
        obtain rfl := Option.some.inj ((after_eq hc).symm.trans hs₁)
        exact hj'
      · intro hfind
        exact hs'.justifies_iff.mpr
          (hf.justifies hr hs hs' hc hm (hs.justifies_iff.mp hj) hfind)
  · apply eachStep_congr
    intro os o
    obtain ⟨s, p, hr, hs⟩ := run_holds (Q := k.Queue (SemaphoreWaiter B P)) capacity os
    exact ⟨s, hr, hs.spares_iff hB⟩

theorem evictions_justified_iff_full :
    (Always (after call) (System.start (new 3) :
          System Build.full (QueueKind.dualArena.Queue (SemaphoreWaiter Build.full ℕ)))
        (Justifies (System.start (new 3))) [.acquireMany 0 2, .acquireMany 1 2] ↔
      EachStep (after call) (System.start (new 3) :
          System Build.full (QueueKind.dualArena.Queue (SemaphoreWaiter Build.full ℕ)))
        FindsFlagged [.acquireMany 0 2, .acquireMany 1 2]) ∧
    (EachStep (after call) (System.start (new 3) :
          System Build.full (QueueKind.dualArena.Queue (SemaphoreWaiter Build.full ℕ)))
        Spares [.acquireMany 0 2, .acquireMany 1 2] ↔
      EachStep (after call) (System.start (new 3) :
          System Build.full (QueueKind.dualArena.Queue (SemaphoreWaiter Build.full ℕ)))
        FindsFlagged [.acquireMany 0 2, .acquireMany 1 2]) :=
  evictions_justified_iff _ rfl _ _

/-- Two requests are granted a permit each of three, and the first one is asked to leave. -/
theorem served_request_flags_holder :
    trace call (System.start (new 3) :
        System Build.evicting (QueueKind.dualArena.Queue (SemaphoreWaiter Build.evicting ℕ)))
      [.acquireMany 0 1, .acquireMany 1 1] = [some (.permit 0), some (.permit 48)] ∧
    ∃ (s : System Build.evicting (QueueKind.dualArena.Queue (SemaphoreWaiter Build.evicting ℕ)))
      (l : List (Queued Build.evicting ℕ)),
      run (after call) (System.start (new 3)) [.acquireMany 0 1, .acquireMany 1 1] = some s ∧
      entries s.inner.queue = some l ∧ ∃ e ∈ l, hasLock e = true ∧ wantsEvict e = true ∧
        ¬Justified (System.start (new 3) : System Build.evicting
            (QueueKind.dualArena.Queue (SemaphoreWaiter Build.evicting ℕ)))
          [.acquireMany 0 1, .acquireMany 1 1] e.handle := by
  refine ⟨rfl, _, _, rfl, rfl, ⟨0, 0, ⟨true, true⟩, 1⟩, .tail _ (.head _), rfl, rfl, ?_⟩
  rintro (⟨before, o, later, hops, ⟨s, hr, -, -, -, ⟨x, s', hc⟩, -⟩, -⟩ |
    ⟨-, -, -, ⟨-, -, hB, -⟩, -⟩)
  · rcases before with _ | ⟨a, _ | ⟨b, before⟩⟩
    · obtain ⟨rfl, -⟩ := List.cons.inj hops
      obtain rfl := Option.some.inj hr
      cases hc
    · obtain ⟨ha, hops⟩ := List.cons.inj hops
      obtain ⟨rfl, -⟩ := List.cons.inj hops
      rw [← ha] at hr
      obtain rfl := Option.some.inj hr
      cases hc
    · simp at hops
  · cases hB

end PriorityLock.Semaphore
