import PriorityLock.Mutex.Exclusion
import PriorityLock.Semaphore.Order

/-! # The contract of the priorities

The wrappers for ties keep the contract of what they wrap, however deep they are
nested, and so does the entry of a semaphore's queue. The entry of a mutex's
queue keeps it but for the holder, which every new entry is below.
-/

namespace PriorityLock

open Transition PriorityQueue

inductive Tiebreak | fifo | lifo
  deriving DecidableEq, Repr

/-- The wrappers around a priority, outermost first. -/
def Nest (P : Type) : List Tiebreak → Type
  | [] => P
  | .fifo :: ws => FIFO (Nest P ws)
  | .lifo :: ws => LIFO (Nest P ws)

section Nested

variable {P : Type} [Priority P]

instance instPriorityNest : (ws : List Tiebreak) → Priority (Nest P ws)
  | [] => inferInstanceAs (Priority P)
  | .fifo :: ws =>
    have := instPriorityNest ws
    inferInstanceAs (Priority (FIFO (Nest P ws)))
  | .lifo :: ws =>
    have := instPriorityNest ws
    inferInstanceAs (Priority (LIFO (Nest P ws)))

instance [LawfulPriority P] (ws : List Tiebreak) : LawfulPriority (Nest P ws) := by
  induction ws with
  | nil => exact inferInstanceAs (LawfulPriority P)
  | cons w ws ih =>
    cases w with
    | fifo => exact inferInstanceAs (LawfulPriority (FIFO (Nest P ws)))
    | lifo => exact inferInstanceAs (LawfulPriority (LIFO (Nest P ws)))

end Nested

section MutexEntries

variable {P : Type} [Priority P] [LawfulPriority P] {w old : MutexWaiter P}

instance MutexWaiter.transCmp : Std.TransCmp (Priority.compare (P := MutexWaiter P)) :=
  transCmp_comap (Priority.compare (P := P)) MutexWaiter.priority

theorem MutexWaiter.agree (h : old.waiter.hasLock = false) (hc : Priority.compare w old ≠ .eq) :
    Priority.compareNew w old = Priority.compare w old := by
  have hn : Priority.compareNew w old = Priority.compareNew w.priority old.priority :=
    if_neg (by simp [h])
  rw [hn]
  exact LawfulPriority.agree w.priority old.priority hc

omit [LawfulPriority P] in
theorem MutexWaiter.pinned (h : old.waiter.hasLock = true) : Priority.compareNew w old = .lt :=
  if_pos h

end MutexEntries

/-- What a new entry of a mutex finds: the holder comes first, is never passed by `compareNew`,
and the two comparisons agree off ties on all the others. -/
def Mutex.Pinned {P : Type} [Priority P] (w : MutexWaiter P) (l : List (Entry (MutexWaiter P))) :
    Prop :=
  (∀ e ∈ l.head?, Priority.compareNew w e.data = .lt) ∧
    ∀ e ∈ l.tail, Priority.compare w e.data ≠ .eq →
      Priority.compareNew w e.data = Priority.compare w e.data

/-- Every priority of the crate that is not a mutex's entry keeps the contract. Those entries are
totally preordered, and any two agree off ties unless the queued one has the lock; in every
reachable queue that is the first one alone. -/
theorem priorities_lawful {P : Type} [Priority P] [LawfulPriority P] :
    (∀ (O : Type) [Ord O] [Std.TransOrd O], LawfulPriority O ∧ LawfulPriority (LowestFirst O)) ∧
    (∀ ws : List Tiebreak, LawfulPriority (Nest P ws)) ∧
    (∀ B : Semaphore.Build, LawfulPriority (Semaphore.SemaphoreWaiter B P)) ∧
    Std.TransCmp (Priority.compare (P := MutexWaiter P)) ∧
    (∀ w old : MutexWaiter P, old.waiter.hasLock = false → Priority.compare w old ≠ .eq →
      Priority.compareNew w old = Priority.compare w old) ∧
    (∀ w old : MutexWaiter P, old.waiter.hasLock = true → Priority.compareNew w old = .lt) ∧
    ∀ (k : QueueKind) (evict : Bool) (ops : List (Mutex.Op P)),
      ∃ (s : Mutex.System (k.Queue (MutexWaiter P))) (l : List (Entry (MutexWaiter P))),
        run (after (Mutex.call evict)) (Mutex.System.start Mutex.new) ops = some s ∧
        entries s.mutex.queue = some l ∧ ∀ w, Mutex.Pinned w l := by
  refine ⟨fun _ => ⟨inferInstance, inferInstance⟩, fun _ => inferInstance, fun _ => inferInstance,
    inferInstance, fun _ _ => MutexWaiter.agree, fun _ _ => MutexWaiter.pinned, ?_⟩
  intro k evict ops
  obtain ⟨s, l, hr, hs⟩ := Mutex.run_holds (Q := k.Queue (MutexWaiter P)) evict ops
  refine ⟨s, l, hr, LawfulQueue.entries_eq hs.rep, fun w => ?_⟩
  have hl := hs.led
  cases l with
  | nil => exact ⟨by simp, by simp⟩
  | cons h t =>
    constructor
    · rintro e ⟨⟩
      exact MutexWaiter.pinned hl.1
    · intro e he
      exact MutexWaiter.agree (hl.2 e he)

theorem priorities_lawful_nested : LawfulPriority (Nest (LowestFirst ℕ) [.fifo, .lifo]) ∧
    ∃ (s : Mutex.System (QueueKind.dualArena.Queue (MutexWaiter (LowestFirst ℕ))))
        (l : List (Entry (MutexWaiter (LowestFirst ℕ)))),
      run (after (Mutex.call true)) (Mutex.System.start Mutex.new) [.lock ⟨2⟩, .lock ⟨1⟩] =
        some s ∧
      entries s.mutex.queue = some l ∧ ∀ w, Mutex.Pinned w l :=
  have h := priorities_lawful (P := LowestFirst ℕ)
  ⟨h.2.1 _, h.2.2.2.2.2.2 _ true _⟩

/-- A request above the holder is compared as below it when it is new. -/
theorem mutex_entry_breaks_contract :
    ∃ (s : Mutex.System (QueueKind.dualArena.Queue (MutexWaiter ℕ))) (e : Entry (MutexWaiter ℕ)),
      run (after (Mutex.call false)) (Mutex.System.start Mutex.new) [.lock 0] = some s ∧
      entries s.mutex.queue = some [e] ∧
      Priority.compare (MutexWaiter.new 1 false) e.data = .gt ∧
      Priority.compareNew (MutexWaiter.new 1 false) e.data = .lt :=
  ⟨_, _, rfl, rfl, rfl, rfl⟩

end PriorityLock
