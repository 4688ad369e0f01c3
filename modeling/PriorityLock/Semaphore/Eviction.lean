import PriorityLock.Semaphore.Grants
import PriorityLock.Transition.History

/-! # Holders below a waiting request

An arriving request flags the holders below it, and a granted one is not below
what waits. A holder that a split or an overtaking acquire adds carries no flag,
whatever waits above it.
-/

namespace PriorityLock.Semaphore

open Placement Transition PriorityQueue

variable {B : Build} {Q P : Type} [Priority P] {op : Op B P} {r : Result B} {p p' : Pool B P}
  {priority : P}

section Moves

def Pool.Notified (p : Pool B P) : Prop :=
  ∀ e ∈ p.held, ∀ w ∈ p.pending, wantsEvict w = false →
    Priority.compare w.data.priority e.data.priority = .gt → wantsEvict e = true

theorem wantsEvict_outranked {e : Queued B P} (hB : B.evict = true) (hl : hasLock e = true)
    (hgt : Priority.compare priority e.data.priority = .gt) :
    wantsEvict (flag (outranked priority) e) = true := by
  have hl' : e.data.waiter.hasLock = true := hl
  have hc : outranked priority e.data = true := by simp [outranked, hB, hl', hgt]
  rw [flag, if_pos hc]
  rfl

/-- A move keeps the holders notified if it adds none below an unflagged waiting entry. -/
theorem Moves.notified [LawfulPriority P] (hB : B.evict = true) (hm : Moves op r p p') (hp : p.WF)
    (hp' : p'.WF) (hs : p.Sorted) (hn : p.Notified)
    (hadds : ∀ priority, p'.arrivals ≠ p.arrivals →
      Creates p.available p.held p.pending op priority → ∀ w ∈ p.pending, wantsEvict w = false →
      Priority.compare w.data.priority priority ≠ .gt) : p'.Notified := by
  intro e he w hw hwe hgt
  have hnew : ∀ {h}, h ∈ handles (p'.held ++ p'.pending) → h ∉ p.arrivals →
      p'.arrivals ≠ p.arrivals := fun hh hA hAA => hA (hAA ▸ hp'.perm.mem_iff.mp hh)
  have hold : (∃ d ∈ p.pending, d.handle = w.handle ∧ d.data.priority = w.data.priority ∧
      wantsEvict d = false) → wantsEvict e = true := by
    rintro ⟨d, hd, hh, hdw, hde⟩
    rw [← hdw] at hgt
    cases hm.held_origin he with
    | kept h => exact hn e h d hd hde hgt
    | asked h | oversized h => exact wantsEvict_flag (hn _ h d hd hde (by simpa using hgt))
    | @recounted g _ h => exact hn g h d hd hde hgt
    | @granted g hg hA hall =>
      have hgw := (hall w hw).resolve_left (by simp [bypassed, hwe])
      have hge := List.pairwise_pair.mp (hs.pending.sublist hgw)
      rw [compare_eq ((hp.unlocked g hg).trans (hp'.unlocked w hw).symm), ← hdw] at hge
      have hle := Std.OrientedCmp.isGE_iff_isLE.mp hge
      exact absurd hgt (Ordering.isLE_iff_ne_gt.mp hle)
    | fresh hA hpending hcr =>
      exact absurd hgt (hadds _ (hnew (mem_handles (List.mem_append_left _ he)) hA) hcr d hd hde)
  cases hm.pending_origin hw with
  | kept h => exact hold ⟨w, h, rfl, rfl, hwe⟩
  | @oversized d h =>
    refine hold ⟨d, h, flag_handle.symm, flag_priority.symm, ?_⟩
    exact Bool.eq_false_iff.mpr fun hd => by simp [wantsEvict_flag hd] at hwe
  | @fresh x q n word hA hreq =>
    have hne := hnew (mem_handles (List.mem_append_right _ hw)) hA
    rcases hm.acquires hreq.request (Or.inl hne) with ⟨y, -, hserved⟩ | ⟨y, -, hwaits⟩
    · exact absurd (hp.pending_mem (hserved.pending ▸ hw)) hA
    · rw [hwaits.held] at he
      obtain ⟨d, hd, rfl⟩ := List.mem_map.mp he
      exact wantsEvict_outranked hB (hp.locked d hd) (by simpa using hgt)

end Moves

section Calls

variable [PriorityQueue Q (SemaphoreWaiter B P)] {s s' : System B Q}

/-- A split is of an owned permit and by a positive count. -/
def Op.Proper (s : System B Q) : Op B P → Prop
  | .split h n | .splitWithPriority h n _ => ⟨h, .permit⟩ ∈ s.owned ∧ n ≠ 0
  | _ => True

theorem call_improper (hop : ¬op.Proper s) (hc : call s op = some (r, s')) : s' = s := by
  cases op with
  | split h n | splitWithPriority h n q =>
    rcases ho : lookup s.owned h with _ | ⟨h', _ | _ | _ | _⟩
    case some.permit =>
      obtain ⟨hm, rfl⟩ := mem_of_lookup ho
      have hn : n = 0 := by simpa [Op.Proper, hm] using hop
      simp [call, ho, hn] at hc
      exact hc.2.symm
    all_goals
      simp [call, ho] at hc
      exact hc.2.symm
  | _ => exact absurd trivial hop

variable [LawfulQueue Q (SemaphoreWaiter B P)]

theorem Holds.adds (hs : Holds s p) (hop : op.Proper s)
    (hcr : Creates p.available p.held p.pending op priority) : ∃ r s' p',
    Semaphore.call s op = some (r, s') ∧ Holds s' p' ∧ Moves op r p p' ∧
      ∃ e ∈ p'.held, e.handle ∉ p.arrivals := by
  have hnew : ∀ {p' : Pool B P} {h}, p'.WF → p'.arrivals = p.arrivals ++ [h] →
      h ∈ handles p'.held → ∃ e ∈ p'.held, e.handle ∉ p.arrivals := by
    intro p' h hp' hA hh
    obtain ⟨e, he, rfl⟩ := List.mem_map.mp hh
    have hn := hp'.nodup
    rw [hA] at hn
    exact ⟨e, he, fun hm => List.disjoint_of_nodup_append hn hm (List.mem_singleton_self _)⟩
  cases hcr with
  | serve hserves =>
    obtain ⟨h, s', p', hc, hs', hm, hserved⟩ := hs.served hserves
    obtain ⟨word, hplace⟩ := hserved.held
    have hh := mem_handles (hplace.perm.mem_iff.mpr List.mem_cons_self)
    exact ⟨_, s', p', hc, hs', hm, hnew hs'.view.wf hserved.arrivals hh⟩
  | @split e n he hlt =>
    have ho := lookup_of_mem hs.nodup_owned hop.1
    obtain ⟨r, s', p', hc, hs', hm, hadded⟩ := hs.split (.split e.handle n) (f := id)
      (mem_handles he) n fun _ _ _ => Or.inl ⟨rfl, rfl⟩
    obtain ⟨h, hh, hA⟩ := hadded ⟨e, he, rfl, hlt⟩
    refine ⟨r, s', p', ?_, hs', hm, hnew hs'.view.wf hA hh⟩
    simp only [Semaphore.call, ho, hop.2, if_false]
    exact hc
  | @splitWithPriority e n _ he hlt =>
    have ho := lookup_of_mem hs.nodup_owned hop.1
    obtain ⟨r, s', p', hc, hs', hm, hadded⟩ := hs.split (.splitWithPriority e.handle n priority)
      (f := fun _ => priority) (mem_handles he) n fun _ _ _ => Or.inr rfl
    obtain ⟨h, hh, hA⟩ := hadded ⟨e, he, rfl, hlt⟩
    refine ⟨r, s', p', ?_, hs', hm, hnew hs'.view.wf hA hh⟩
    simp only [Semaphore.call, ho, hop.2, if_false]
    exact hc

end Calls

section Runs

variable [PriorityQueue Q (SemaphoreWaiter B P)] {s : System B Q}

/-- Every holder below a waiting entry that is not flagged is asked to leave. -/
def Notifies (s : System B Q) : Prop :=
  ∃ l, entries s.inner.queue = some l ∧ ∀ e ∈ l, hasLock e = true → ∀ w ∈ waiting l,
    wantsEvict w = false → Priority.compare w.data.priority e.data.priority = .gt →
    wantsEvict e = true

def CreatesNoneBelow (s : System B Q) (op : Op B P) : Prop :=
  ∃ l, entries s.inner.queue = some l ∧ ∀ priority, op.Proper s →
    Creates s.inner.available (l.filter hasLock) (waiting l) op priority → ∀ w ∈ waiting l,
    wantsEvict w = false → Priority.compare w.data.priority priority ≠ .gt

variable [LawfulQueue Q (SemaphoreWaiter B P)]

theorem Holds.notifies_iff (hs : Holds s p) : Notifies s ↔ p.Notified := by
  rw [Notifies, hs.exists_entries, hs.waiting]
  constructor
  · exact fun h e he => h e (List.mem_append_left _ he) (hs.view.wf.locked e he)
  · exact fun h e he hl => h e (hs.mem_held he hl)

theorem Holds.createsNoneBelow_iff (hs : Holds s p) : CreatesNoneBelow s op ↔
    ∀ priority, op.Proper s → Creates p.available p.held p.pending op priority →
      ∀ w ∈ p.pending, wantsEvict w = false →
        Priority.compare w.data.priority priority ≠ .gt := by
  rw [CreatesNoneBelow, hs.exists_entries, hs.waiting, hs.filter_hasLock, hs.view.available]

end Runs

/-- In all states of a run the holders below waiting entries are asked to leave, if and only if
no call of the run creates a holder below a waiting entry that is not flagged. -/
theorem holders_notified_iff (k : QueueKind) {B : Build} (hB : B.evict = true) {P : Type}
    [Priority P] [LawfulPriority P] (capacity : Usize B) (ops : List (Op B P)) :
    Always (after call) (System.start (new capacity) : System B (k.Queue (SemaphoreWaiter B P)))
        (fun _ => Notifies) ops ↔
      EachStep (after call) (System.start (new capacity) :
        System B (k.Queue (SemaphoreWaiter B P))) CreatesNoneBelow ops := by
  apply always_iff fun _ s => ∃ p, Holds s p ∧ p.Sorted
  · exact ⟨_, Holds.start capacity, .nil, .nil⟩
  · exact (Holds.start capacity).notifies_iff.mpr (by simp [Pool.Notified, Pool.start])
  · rintro os s op - ⟨p, hs, hsorted⟩
    obtain ⟨r, s', p', hc, hs', hm⟩ := hs.call op
    refine ⟨s', after_eq hc, ⟨p', hs', hm.sorted hsorted⟩, fun hn => ?_⟩
    rw [hs.createsNoneBelow_iff, hs'.notifies_iff]
    rw [hs.notifies_iff] at hn
    constructor
    · intro hn' priority hop hcr w hw hwe hgt
      obtain ⟨r₁, s₁, p₁, hc₁, hs₁, hm₁, e, he, hA⟩ := hs.adds hop hcr
      obtain ⟨-, rfl⟩ := Prod.mk.inj (Option.some.inj (hc.symm.trans hc₁))
      obtain ⟨hpending, hflag, hcr'⟩ := (hm₁.held_origin he).of_new hs.view.wf hA
      obtain rfl := hcr.unique hcr' hs.view.wf.nodup_held
      have hn₁ := hs₁.notifies_iff.mp (hs'.notifies_iff.mpr hn')
      have he' := hn₁ e he w (hpending ▸ hw) hwe hgt
      simp [hflag] at he'
    · intro h
      refine hm.notified hB hs.view.wf hs'.view.wf hsorted hn fun priority hne hcr => ?_
      refine h priority ?_ hcr
      by_contra hop
      refine hne ?_
      rw [hs.arrivals, hs'.arrivals, call_improper hop hc]

theorem holders_notified_iff_full :
    Always (after call) (System.start (new 2) :
        System Build.full (QueueKind.dualArena.Queue (SemaphoreWaiter Build.full ℕ)))
        (fun _ => Notifies) [.acquireMany 0 2, .acquireMany 1 1, .drop 0] ↔
      EachStep (after call) (System.start (new 2) :
        System Build.full (QueueKind.dualArena.Queue (SemaphoreWaiter Build.full ℕ)))
        CreatesNoneBelow [.acquireMany 0 2, .acquireMany 1 1, .drop 0] :=
  holders_notified_iff _ rfl _ _

/-- The permit that a split returns is not flagged while a request above it waits. -/
theorem split_permit_unnotified :
    ∃ (s : System Build.full (QueueKind.dualArena.Queue (SemaphoreWaiter Build.full ℕ)))
      (l : List (Queued Build.full ℕ)),
      run (after call) (System.start (new 2))
        [.acquireMany 0 2, .acquireMany 1 1, .split 0 1] = some s ∧
      entries s.inner.queue = some l ∧ ∃ e ∈ l, hasLock e = true ∧ wantsEvict e = false ∧
        ∃ w ∈ waiting l, wantsEvict w = false ∧
          Priority.compare w.data.priority e.data.priority = .gt :=
  ⟨_, _, rfl, rfl, ⟨96, 0, .new true, 1⟩, .head _, rfl, rfl,
    ⟨48, 1, .new false, 1⟩, .head _, rfl, rfl⟩

end PriorityLock.Semaphore
