import PriorityLock.Mutex.Exclusion
import PriorityLock.Queue.Memory
import PriorityLock.Semaphore.Conservation

/-! # Dropping the locks

A lock outlives its callers, so when it is dropped its queue holds the waiters
of those only that were leaked. Without a leak it is empty, and nothing panics.
-/

namespace PriorityLock

open Transition

/-- What dropping a queue does while the owners of these handles were leaked. -/
structure QueueKind.Drops (k : QueueKind) {D : Type} (debug : Bool) (q : k.Queue D)
    (leaked : List Handle) (d : Dropping (k.Queue D) D) : Prop where
  drop : DropQueue.drop debug q = some d
  panics : d = .panics ↔ ¬k.IsBoxed ∧ debug = true ∧ leaked ≠ []
  frees : ∀ data rest, d = .drops data rest →
    data.length = leaked.length ∧ ¬DropQueue.HasMemory rest

theorem QueueKind.drops {D : Type} [Priority D] (k : QueueKind) (debug : Bool) {q : k.Queue D}
    {l : List (Entry D)} {leaked : List Handle} (hq : LawfulQueue.Rep q l)
    (hp : (handles l).Perm leaked) : ∃ d, k.Drops debug q leaked d := by
  obtain ⟨d, hd, hdrop⟩ := k.drop_spec hq debug
  have hlen : l.length = leaked.length := by simpa [handles] using hp.length_eq
  have hempty : l ≠ [] ↔ leaked ≠ [] := by
    rw [← List.length_pos_iff, ← List.length_pos_iff, hlen]
  rw [hempty] at hdrop
  refine ⟨d, hd, ?_, ?_⟩
  · cases d with
    | panics => exact iff_of_true rfl hdrop
    | drops data rest => exact iff_of_false (by simp) hdrop.1
  · rintro data rest rfl
    obtain ⟨-, hdata, hm⟩ := hdrop
    exact ⟨by simpa [hlen] using hdata.length_eq, hm⟩

/-- After every run of a mutex and of a semaphore over a builtin queue, dropping the lock drops one
waiter for each caller that was leaked and frees all memory. It panics exactly if somebody was
leaked, the queue is an arena and debug assertions are on. -/
theorem locks_dropped (k : QueueKind) (debug : Bool) {P : Type} [Priority P] :
    (∀ (evict : Bool) (ops : List (Mutex.Op P)),
      ∃ (s : Mutex.System (k.Queue (MutexWaiter P))) (d : Dropping _ _),
        run (after (Mutex.call evict)) (Mutex.System.start Mutex.new) ops = some s ∧
        k.Drops debug s.mutex.queue (handles s.owned) d) ∧
    ∀ (B : Semaphore.Build) (capacity : Semaphore.Usize B) (ops : List (Semaphore.Op B P)),
      ∃ (s : Semaphore.System B (k.Queue (Semaphore.SemaphoreWaiter B P))) (d : Dropping _ _),
        run (after Semaphore.call) (Semaphore.System.start (Semaphore.new capacity)) ops = some s ∧
        k.Drops debug s.inner.queue (handles s.owned) d := by
  constructor
  · intro evict ops
    obtain ⟨s, l, hr, hs⟩ := Mutex.run_holds (Q := k.Queue (MutexWaiter P)) evict ops
    obtain ⟨d, hd⟩ := k.drops debug hs.rep hs.perm
    exact ⟨s, d, hr, hd⟩
  · intro B capacity ops
    obtain ⟨s, p, hr, hs⟩ := Semaphore.run_holds
      (Q := k.Queue (Semaphore.SemaphoreWaiter B P)) capacity ops
    obtain ⟨d, hd⟩ := k.drops debug hs.view.rep (hs.arrivals ▸ hs.view.wf.perm)
    exact ⟨s, d, hr, hd⟩

end PriorityLock
