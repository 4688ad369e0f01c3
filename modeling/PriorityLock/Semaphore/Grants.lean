import PriorityLock.Semaphore.Origins

/-! # Who is granted permits

Without a total no grant leaves an entry of a greater priority waiting. With
one, an acquire is compared with the first flagged entry where the code means
the first one that is not flagged, and can pass by those.
-/

namespace PriorityLock.Semaphore

open Placement Transition PriorityQueue

variable {B : Build} {P : Type} [Priority P] {op : Op B P} {r : Result B} {p p' : Pool B P}
  {e f : Queued B P} {priority : P} {n : Usize B}

section Requests

def Pool.Admits (p : Pool B P) (priority : P) (n : Usize B) : Prop :=
  n < maxPermits B ∧ n ≤ p.available ∧
    ∀ f ∈ p.pending.find? blocks, (Priority.compare priority f.data.priority).isGE

theorem Serves.admits (h : Serves p.available p.pending op priority)
    (hop : op.request = some (priority, n)) : p.Admits priority n := by
  obtain ⟨m, word, hreq, hle, hb⟩ := h
  obtain ⟨-, rfl⟩ := hreq.unique hop
  have hn : m < maxPermits B := by cases hreq <;> assumption
  exact ⟨hn, hle, hb⟩

theorem Moves.granted {h : Handle} (hm : Moves op r p p') (hop : op.request = some (priority, n))
    (hr : r = .permit h) : p.Admits priority n ∧ h ∉ p.arrivals ∧ p'.pending = p.pending ∧
      ∀ e ∈ p'.held, e.handle ∈ handles p.held ∨ e.data.priority = priority := by
  obtain rfl := hr
  have hserved := hm.served hop
  obtain ⟨word, hplace⟩ := hserved.held
  refine ⟨hserved.serves.admits hop, hserved.fresh, hserved.pending, fun e he => ?_⟩
  rcases List.mem_cons.mp (hplace.perm.mem_iff.mp he) with rfl | he
  · exact Or.inr rfl
  · have hh := mem_handles he
    rw [handles_flagWhere] at hh
    exact Or.inl hh

theorem Moves.permit_of_admits (hB : B.semaphoreTotal = true) (hm : Moves op r p p')
    (hop : op.request = some (priority, n)) (hc : p.Conserved) (ha : p.Admits priority n) :
    ∃ h, r = .permit h := by
  obtain ⟨hn, hle, hb⟩ := ha
  rcases hm.request_cases hop with ⟨h, hr, -⟩ | ⟨h, -, hwaits⟩ | ⟨-, -, hmax | hB' | ht⟩
  · exact ⟨h, hr⟩
  · obtain ⟨m, word, hreq, -⟩ := hwaits.pending
    obtain ⟨-, rfl⟩ := hreq.unique hop
    exact absurd ⟨m, word, hreq, hle, hb⟩ hwaits.blocked
  · exact absurd hn (BitVec.not_lt.mpr hmax)
  · simp [hB] at hB'
  · exact absurd (BitVec.le_trans hle hc.available_le) (BitVec.not_le.mpr ht)

end Requests

section Order

variable [LawfulPriority P]

/-- The first of some descending entries decides whether one of them is above a priority. -/
theorem first_decides {l : List (Queued B P)} {c : Queued B P → Bool}
    (hl : ∀ e ∈ l, hasLock e = false) (hd : Descending Priority.compare l) :
    (∀ f ∈ l.find? c, Priority.compare f.data.priority priority ≠ .gt) ↔
      ∀ f ∈ l, c f = true → Priority.compare f.data.priority priority ≠ .gt := by
  induction l with
  | nil => simp
  | cons e l ih =>
    obtain ⟨he, hd⟩ := List.pairwise_cons.mp hd
    have hl' : ∀ f ∈ l, hasLock f = false := fun f hf => hl f (List.mem_cons_of_mem e hf)
    cases hc : c e with
    | false => simpa [List.find?_cons, hc] using ih hl' hd
    | true =>
      constructor
      · intro h f hf _
        have hep : Priority.compare e.data.priority priority ≠ .gt := h e (by simp [hc])
        rcases List.mem_cons.mp hf with rfl | hf
        · exact hep
        have hef := he f hf
        rw [compare_eq ((hl e (by simp)).trans (hl' f hf).symm)] at hef
        have hfe := Std.OrientedCmp.isGE_iff_isLE.mp hef
        exact Ordering.isLE_iff_ne_gt.mp
          (Std.TransCmp.isLE_trans hfe (Ordering.isLE_iff_ne_gt.mpr hep))
      · intro h f hf
        exact h f (List.mem_of_find?_eq_some hf) (List.find?_some hf)

/-- Without a total, nothing that waits after a move is above an entry that it grants. -/
theorem Moves.no_inversion (hB : B.semaphoreTotal = false) (hm : Moves op r p p') (hp : p.WF)
    (hp' : p'.WF) (hs : p.Sorted) (he : e ∈ p'.held)
    (hg : e.handle ∈ handles p.pending ∨ op.request.isSome ∧ r = .permit e.handle) :
    ∀ f ∈ p'.pending, Priority.compare f.data.priority e.data.priority ≠ .gt := by
  intro f hf
  rcases hg with hmem | ⟨hop, hr⟩
  · obtain ⟨d, hd, rfl, -, hall⟩ := (hm.held_origin he).of_pending hp hmem
    have hdf : [d, f].Sublist p.pending := by simpa [bypassed, hB] using hall f hf
    have hge := List.pairwise_pair.mp (hs.pending.sublist hdf)
    rw [compare_eq ((hp.unlocked d hd).trans (hp'.unlocked f hf).symm)] at hge
    exact Ordering.isLE_iff_ne_gt.mp (Std.OrientedCmp.isGE_iff_isLE.mp hge)
  · obtain ⟨⟨priority, n⟩, hop⟩ := Option.isSome_iff_exists.mp hop
    obtain ⟨⟨-, -, hb⟩, hA, hpending, horigin⟩ := hm.granted hop hr
    rcases horigin e he with hheld | rfl
    · exact absurd (hp.perm.mem_iff.mp (by simpa using Or.inl hheld)) hA
    · have hfirst : ∀ f ∈ p.pending.find? blocks,
          Priority.compare f.data.priority e.data.priority ≠ .gt := fun f hf =>
        Ordering.isLE_iff_ne_gt.mp (Std.OrientedCmp.isGE_iff_isLE.mp (hb f hf))
      rw [hpending] at hf
      exact (first_decides hp.unlocked hs.pending).mp hfirst f hf (by simp [blocks, hB])

end Order

section Runs

variable {Q : Type} [PriorityQueue Q (SemaphoreWaiter B P)]
  [LawfulQueue Q (SemaphoreWaiter B P)]

variable [LawfulPriority P]

theorem run_call (capacity : Usize B) (ops : List (Op B P)) (op : Op B P) :
    ∃ (s : System B Q) (p : Pool B P) (r : Result B) (s' : System B Q) (p' : Pool B P),
      run (after call) (System.start (new capacity)) ops = some s ∧ call s op = some (r, s') ∧
      Holds s p ∧ p.Sorted ∧ Holds s' p' ∧ Moves op r p p' := by
  have hmove : ∀ {op : Op B P} {r p p'}, True → Moves op r p p' → p.WF → p.Sorted → p'.Sorted :=
    fun _ hm _ hs => hm.sorted hs
  have hops : ∀ op ∈ ops, True := fun _ _ => trivial
  obtain ⟨s, p, hr, hs, hsorted⟩ := run_moves (Q := Q) capacity ⟨.nil, .nil⟩ hmove hops
  obtain ⟨r, s', p', hc, hs', hm⟩ := hs.call op
  exact ⟨s, p, r, s', p', hr, hc, hs, hsorted, hs', hm⟩

end Runs

/-- A call grants an entry its permits: it waited before, or the call is an acquire that
returns it as a permit. -/
def Granted (op : Op B P) (r : Result B) (l : List (Queued B P)) (e : Queued B P) : Prop :=
  hasLock e = true ∧ (e.handle ∈ handles (waiting l) ∨ op.request.isSome ∧ r = .permit e.handle)

/-- Without a total, no call of any run grants an entry its permits and leaves one of a greater
priority waiting. -/
theorem no_priority_inversion (k : QueueKind) {B : Build} (hB : B.semaphoreTotal = false)
    {P : Type} [Priority P] [LawfulPriority P] (capacity : Usize B) (ops : List (Op B P))
    (op : Op B P) : ∃ (s : System B (k.Queue (SemaphoreWaiter B P))) (l : List (Queued B P))
      (r : Result B) (s' : System B (k.Queue (SemaphoreWaiter B P))) (l' : List (Queued B P)),
      run (after call) (System.start (new capacity)) ops = some s ∧
      entries s.inner.queue = some l ∧ call s op = some (r, s') ∧
      entries s'.inner.queue = some l' ∧
      ∀ e ∈ l', Granted op r l e →
        ∀ f ∈ waiting l', Priority.compare f.data.priority e.data.priority ≠ .gt := by
  obtain ⟨s, p, r, s', p', hr, hc, hs, hsorted, hs', hm⟩ :=
    run_call (Q := k.Queue (SemaphoreWaiter B P)) capacity ops op
  refine ⟨s, _, r, s', _, hr, hs.entries_eq, hc, hs'.entries_eq, ?_⟩
  rw [hs'.waiting]
  rintro e he ⟨hl, hg⟩ f hf
  rw [hs.waiting] at hg
  exact hm.no_inversion hB hs.view.wf hs'.view.wf hsorted (hs'.mem_held he hl) hg f hf

theorem no_priority_inversion_drop :
    ∃ (s : System Build.plain (QueueKind.dualArena.Queue (SemaphoreWaiter Build.plain ℕ)))
      (l : List (Queued Build.plain ℕ)) (r : Result Build.plain)
      (s' : System Build.plain (QueueKind.dualArena.Queue (SemaphoreWaiter Build.plain ℕ)))
      (l' : List (Queued Build.plain ℕ)),
      run (after call) (System.start (new 2))
        [.acquireMany 0 2, .acquireMany 1 1, .acquireMany 2 1] = some s ∧
      entries s.inner.queue = some l ∧ call s (.drop 0) = some (r, s') ∧
      entries s'.inner.queue = some l' ∧
      ∀ e ∈ l', Granted (.drop 0) r l e →
        ∀ f ∈ waiting l', Priority.compare f.data.priority e.data.priority ≠ .gt :=
  no_priority_inversion _ rfl _ _ _

section Barging

omit [Priority P] in
theorem blocks_eq (hB : B.semaphoreTotal = true) : (blocks : Queued B P → Bool) = wantsEvict := by
  funext e
  simp [blocks, hB]

theorem Pool.not_admits_iff (hB : B.semaphoreTotal = true) : ¬p.Admits priority n ↔
    maxPermits B ≤ n ∨ p.available < n ∨
      ∃ f ∈ p.pending.find? wantsEvict, Priority.compare priority f.data.priority = .lt := by
  rw [Pool.Admits, blocks_eq hB]
  by_cases hn : n < maxPermits B
  · by_cases hle : n ≤ p.available
    · simp [hn, hle, BitVec.not_le.mpr hn, BitVec.not_lt.mpr hle, Ordering.isGE_iff_ne_lt]
    · simp [hle, BitVec.not_le.mp hle]
  · simp [hn, BitVec.not_lt.mp hn]

variable [LawfulPriority P]

theorem Moves.passes_none_iff (hB : B.semaphoreTotal = true) (hm : Moves op r p p') (hp : p.WF)
    (hs : p.Sorted) (hc : p.Conserved) (hop : op.request = some (priority, n)) :
    ((∃ h, r = .permit h) → ∀ f ∈ p'.pending, wantsEvict f = false →
      Priority.compare f.data.priority priority ≠ .gt) ↔
    ¬p.Admits priority n ∨ ∀ f ∈ p.pending.find? fun f => !wantsEvict f,
      Priority.compare f.data.priority priority ≠ .gt := by
  rw [first_decides hp.unlocked hs.pending]
  constructor
  · intro h
    by_cases ha : p.Admits priority n
    · obtain ⟨x, hx⟩ := hm.permit_of_admits hB hop hc ha
      obtain ⟨-, -, hpending, -⟩ := hm.granted hop hx
      rw [hpending] at h
      exact Or.inr fun f hf hw => h ⟨x, hx⟩ f hf (by simpa using hw)
    · exact Or.inl ha
  · rintro h ⟨x, hx⟩ f hf hw
    obtain ⟨ha, -, hpending, -⟩ := hm.granted hop hx
    rw [hpending] at hf
    rcases h with hn | h
    · exact absurd ha hn
    · exact h f hf (by simpa using hw)

end Barging

/-- With a total, an acquire after any run that is granted at once leaves no unflagged entry of
a greater priority waiting, if and only if it asks for more than it can get, a flagged entry
above it comes first, or the first unflagged entry is not above it. -/
theorem no_barging_iff (k : QueueKind) {B : Build} (hB : B.semaphoreTotal = true) {P : Type}
    [Priority P] [LawfulPriority P] (capacity : Usize B) (ops : List (Op B P)) (op : Op B P)
    {priority : P} {n : Usize B} (hop : op.request = some (priority, n)) :
    ∃ (s : System B (k.Queue (SemaphoreWaiter B P))) (l : List (Queued B P)) (r : Result B)
      (s' : System B (k.Queue (SemaphoreWaiter B P))) (l' : List (Queued B P)),
      run (after call) (System.start (new capacity)) ops = some s ∧
      entries s.inner.queue = some l ∧ call s op = some (r, s') ∧
      entries s'.inner.queue = some l' ∧
      (((∃ h, r = .permit h) → ∀ f ∈ waiting l', wantsEvict f = false →
          Priority.compare f.data.priority priority ≠ .gt) ↔
        maxPermits B ≤ n ∨ s.inner.available < n ∨
        (∃ f ∈ (waiting l).find? wantsEvict, Priority.compare priority f.data.priority = .lt) ∨
        ∀ f ∈ (waiting l).find? fun f => !wantsEvict f,
          Priority.compare f.data.priority priority ≠ .gt) := by
  obtain ⟨s, p, r, s', p', hr, hc, hs, hsorted, hs', hm⟩ :=
    run_call (Q := k.Queue (SemaphoreWaiter B P)) capacity ops op
  refine ⟨s, _, r, s', _, hr, hs.entries_eq, hc, hs'.entries_eq, ?_⟩
  have hv := hs.view
  rw [hs.waiting, hs'.waiting, hv.available,
    hm.passes_none_iff hB hv.wf hsorted (hv.conserved hB) hop, Pool.not_admits_iff hB]
  simp only [or_assoc]

theorem no_barging_iff_total :
    ∃ (s : System Build.full (QueueKind.dualArena.Queue (SemaphoreWaiter Build.full ℕ)))
      (l : List (Queued Build.full ℕ)) (r : Result Build.full)
      (s' : System Build.full (QueueKind.dualArena.Queue (SemaphoreWaiter Build.full ℕ)))
      (l' : List (Queued Build.full ℕ)),
      run (after call) (System.start (new 5)) [.acquireMany 10 7] = some s ∧
      entries s.inner.queue = some l ∧ call s (.acquireWithinTotal 11 3) = some (r, s') ∧
      entries s'.inner.queue = some l' ∧
      (((∃ h, r = .permit h) → ∀ f ∈ waiting l', wantsEvict f = false →
          Priority.compare f.data.priority 11 ≠ .gt) ↔
        maxPermits Build.full ≤ 3 ∨ s.inner.available < 3 ∨
        (∃ f ∈ (waiting l).find? wantsEvict, Priority.compare 11 f.data.priority = .lt) ∨
        ∀ f ∈ (waiting l).find? fun f => !wantsEvict f,
          Priority.compare f.data.priority 11 ≠ .gt) :=
  no_barging_iff _ rfl _ _ _ rfl

/-- A request for three permits of five overtakes one of a greater priority for seven. -/
theorem barging_past_large_request :
    ∃ (s : System Build.full (QueueKind.dualArena.Queue (SemaphoreWaiter Build.full ℕ)))
      (h : Handle)
      (s' : System Build.full (QueueKind.dualArena.Queue (SemaphoreWaiter Build.full ℕ)))
      (l' : List (Queued Build.full ℕ)),
      run (after call) (System.start (new 5)) [.acquireMany 10 7] = some s ∧
      call s (.acquireMany 0 3) = some (.permit h, s') ∧ entries s'.inner.queue = some l' ∧
      ∃ f ∈ waiting l', wantsEvict f = false ∧ Priority.compare f.data.priority 0 = .gt :=
  ⟨_, _, _, _, rfl, rfl, rfl, ⟨0, 10, .new false, 7⟩, .head _, rfl, rfl⟩

end PriorityLock.Semaphore
