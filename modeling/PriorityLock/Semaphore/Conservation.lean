import PriorityLock.Semaphore.Refinement

/-! # Conservation of permits

Every run of calls on a semaphore is defined. In a build that counts the total,
that total is what is available and what the entries with the lock have.
-/

namespace PriorityLock.Semaphore

open Placement Transition PriorityQueue

section Runs

variable {B : Build} {Q P : Type} [Priority P] [PriorityQueue Q (SemaphoreWaiter B P)]
  [LawfulQueue Q (SemaphoreWaiter B P)]

theorem run_moves {inv : Pool B P → Prop} {ok : Op B P → Prop} (capacity : Usize B)
    (hstart : inv (Pool.start capacity)) (hmove : ∀ {op r p p'}, ok op → Moves op r p p' →
      p.WF → inv p → inv p') {ops : List (Op B P)} (hops : ∀ op ∈ ops, ok op) : ∃ s p,
    run (after call) (System.start (new capacity : SemaphoreInner B Q)) ops = some s ∧
      Holds s p ∧ inv p := by
  have hstep : ∀ (s : System B Q) (op : Op B P), (∃ p, Holds s p ∧ inv p) → ok op →
      ∃ s', after call s op = some s' ∧ ∃ p, Holds s' p ∧ inv p := by
    rintro s op ⟨p, hs, hi⟩ hop
    obtain ⟨r, s', p', hc, hs', hm⟩ := hs.call op
    exact ⟨s', after_eq hc, p', hs', hmove hop hm hs.view.wf hi⟩
  obtain ⟨s, hr, p, hs, hi⟩ :=
    run_invariant hstep ⟨Pool.start capacity, Holds.start capacity, hstart⟩ hops
  exact ⟨s, p, hr, hs, hi⟩

theorem Holds.run {s : System B Q} {p : Pool B P} (hs : Holds s p) (ops : List (Op B P)) :
    ∃ s', Transition.run (after Semaphore.call) s ops = some s' ∧ ∃ p', Holds s' p' := by
  have hstep : ∀ (s : System B Q) (op : Op B P), (∃ p, Holds s p) →
      ∃ s', after Semaphore.call s op = some s' ∧ ∃ p, Holds s' p := by
    rintro s op ⟨p, hs⟩
    obtain ⟨r, s', p', hc, hs', -⟩ := hs.call op
    exact ⟨s', after_eq hc, p', hs'⟩
  exact run_keeps hstep ⟨p, hs⟩ ops

theorem run_holds (capacity : Usize B) (ops : List (Op B P)) : ∃ s p,
    run (after call) (System.start (new capacity : SemaphoreInner B Q)) ops = some s ∧
      Holds s p := by
  have hs : Holds (System.start (new capacity : SemaphoreInner B Q)) _ := Holds.start capacity
  obtain ⟨s, hr, p, hs⟩ := hs.run ops
  exact ⟨s, p, hr, hs⟩

variable {s : System B Q} {p : Pool B P} {e : Queued B P}

theorem Holds.entries_eq (hs : Holds s p) : entries s.inner.queue = some (p.held ++ p.pending) :=
  LawfulQueue.entries_eq hs.view.rep

theorem Holds.exists_entries {R : List (Queued B P) → Prop} (hs : Holds s p) :
    (∃ l, entries s.inner.queue = some l ∧ R l) ↔ R (p.held ++ p.pending) := by
  constructor
  · rintro ⟨l, hl, h⟩
    exact Option.some.inj (hs.entries_eq.symm.trans hl) ▸ h
  · exact fun h => ⟨_, hs.entries_eq, h⟩

theorem Holds.exists_call {s' : System B Q} {p' : Pool B P} {op : Op B P} {r : Result B}
    {R : List (Queued B P) → Result B → System B Q → List (Queued B P) → Prop} (hs : Holds s p)
    (hc : Semaphore.call s op = some (r, s')) (hs' : Holds s' p') :
    (∃ l r s' l', entries s.inner.queue = some l ∧ Semaphore.call s op = some (r, s') ∧
      entries s'.inner.queue = some l' ∧ R l r s' l') ↔
      R (p.held ++ p.pending) r s' (p'.held ++ p'.pending) := by
  constructor
  · rintro ⟨l, r₁, s₁, l', hl, hc₁, hl', h⟩
    obtain ⟨rfl, rfl⟩ := Prod.mk.inj (Option.some.inj (hc.symm.trans hc₁))
    obtain rfl := Option.some.inj (hs.entries_eq.symm.trans hl)
    obtain rfl := Option.some.inj (hs'.entries_eq.symm.trans hl')
    exact h
  · exact fun h => ⟨_, r, s', _, hs.entries_eq, hc, hs'.entries_eq, h⟩

def Has (s : System B Q) (c : Queued B P → Prop) : Prop :=
  ∃ l, entries s.inner.queue = some l ∧ ∃ e ∈ l, c e

theorem Holds.has_iff {c : Queued B P → Prop} (hs : Holds s p) :
    Has s c ↔ ∃ e ∈ p.held ++ p.pending, c e := hs.exists_entries

theorem Holds.filter_hasLock (hs : Holds s p) : (p.held ++ p.pending).filter hasLock = p.held :=
  Semaphore.filter_hasLock hs.view.wf.locked hs.view.wf.unlocked

theorem Holds.mem_held (hs : Holds s p) (he : e ∈ p.held ++ p.pending) (hl : hasLock e = true) :
    e ∈ p.held := by
  rw [← hs.filter_hasLock]
  exact List.mem_filter.mpr ⟨he, hl⟩

end Runs

/-- After every run of a build that counts the total, it is the sum of what is available
and of the counts of the entries with the lock, and every permit has such an entry. -/
theorem permits_conserved (k : QueueKind) {B : Build} (hB : B.semaphoreTotal = true) {P : Type}
    [Priority P] (capacity : Usize B) (ops : List (Op B P)) :
    ∃ (s : System B (k.Queue (SemaphoreWaiter B P))) (l : List (Queued B P)),
      run (after call) (System.start (new capacity)) ops = some s ∧
      entries s.inner.queue = some l ∧
      s.inner.total.toNat = s.inner.available.toNat + permits (l.filter hasLock) ∧
      (∀ o ∈ s.owned, o.data = .permit → ∃ e ∈ l, e.handle = o.handle ∧ hasLock e = true) ∧
      s.inner.available ≤ s.inner.total ∧
      ∀ e ∈ l, hasLock e = true → count e ≤ s.inner.total := by
  obtain ⟨s, p, hr, hs⟩ := run_holds (Q := k.Queue (SemaphoreWaiter B P)) capacity ops
  have hv := hs.view
  have hc := hv.conserved hB
  refine ⟨s, p.held ++ p.pending, hr, hs.entries_eq, ?_, ?_, ?_, ?_⟩
  · rw [hs.filter_hasLock, hv.total, hv.available]
    exact hc
  · intro o ho hd
    obtain ⟨e, he, heo⟩ := List.mem_map.mp (hs.permits o ho hd)
    exact ⟨e, List.mem_append_left _ he, heo, hv.wf.locked e he⟩
  · rw [hv.total, hv.available]
    exact hc.available_le
  · intro e he hl
    rw [hv.total]
    exact hc.count_le (hs.mem_held he hl)

theorem permits_conserved_full :
    ∃ (s : System Build.full (QueueKind.dualArena.Queue (SemaphoreWaiter Build.full ℕ)))
      (l : List (Queued Build.full ℕ)),
      run (after call) (System.start (new 5)) [.acquireMany 0 2, .acquireWithinTotal 1 4,
        .split 0 1, .forget 48, .drop 0, .tryAddPermits 3] = some s ∧
      entries s.inner.queue = some l ∧
      s.inner.total.toNat = s.inner.available.toNat + permits (l.filter hasLock) ∧
      (∀ o ∈ s.owned, o.data = .permit → ∃ e ∈ l, e.handle = o.handle ∧ hasLock e = true) ∧
      s.inner.available ≤ s.inner.total ∧
      ∀ e ∈ l, hasLock e = true → count e ≤ s.inner.total :=
  permits_conserved _ rfl _ _

end PriorityLock.Semaphore
