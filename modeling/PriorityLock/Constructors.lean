import PriorityLock.Queue.Runs
import PriorityLock.Mutex.Exclusion
import PriorityLock.Semaphore.Refinement

/-! # The constant constructors

The constant of a box queue is its default. The constant of an arena has the
offset of the first slot for its head instead of the sentinel: a fresh queue is
then taken to have a node, in a block that is not there.
-/

namespace PriorityLock

open Transition
open PriorityQueue (headHandle iter)

section Arena

variable {L : Link} {N : NodeLayout} {D : Type} [Priority D]

theorem ArenaQueue.headHandle_constDefault :
    headHandle (constDefault : ArenaQueue L N D) = some (some 0) := rfl

theorem ArenaQueue.iter_constDefault : iter (constDefault : ArenaQueue L N D) = none := by
  simp [iter, PriorityQueue.iterAt, iterAt, iterLoop, getData, node, constDefault, sentinel]

theorem ArenaQueue.head_constDefault :
    PriorityQueue.head (constDefault : ArenaQueue L N D) = none := by
  simp [PriorityQueue.head, firstItem, getData, node, constDefault, sentinel]

end Arena

/-- The first call whose result tells two systems apart. -/
theorem trace_ne {σ ω ρ : Type} {call : σ → ω → Option (ρ × σ)} {s s' t : σ} {o : ω} {r : ρ}
    (h : call s o = none) (h' : call s' o = some (r, t)) :
    ¬∀ ops, trace call s ops = trace call s' ops := by
  intro heq
  have hone := heq [o]
  simp [trace_singleton, h, h'] at hone

section Arena

variable {L : Link} {N : NodeLayout} {P : Type} [Priority P]

/-- The first lock of a constant mutex over an arena reads a node that is not there. -/
theorem Mutex.lock_constNew (evict : Bool) (p : P) :
    call evict (System.start (constNew : Mutex (ArenaQueue L N (MutexWaiter P)))) (.lock p) =
      none := by
  have hh : PriorityQueue.head (ConstDefault.DEFAULT : ArenaQueue L N (MutexWaiter P)) = none :=
    ArenaQueue.head_constDefault
  simp [call, lock, System.start, constNew, hh]

theorem Semaphore.addPermits_constNew {B : Build} (permits : Usize B) :
    call (System.start (constNew permits :
      SemaphoreInner B (ArenaQueue L N (SemaphoreWaiter B P)))) (.addPermits 0) = none := by
  have hc : checkedAdd permits 0#B.bits = some permits := by simp [checkedAdd, permits.isLt]
  have hh : headHandle (ConstDefault.DEFAULT : ArenaQueue L N (SemaphoreWaiter B P)) =
    some (some 0) := ArenaQueue.headHandle_constDefault
  have hi : iter (ConstDefault.DEFAULT : ArenaQueue L N (SemaphoreWaiter B P)) = none :=
    ArenaQueue.iter_constDefault
  cases hB : B.semaphoreTotal <;>
    simp [call, tryAddPermits, activateWaiters, System.start, constNew, hB, hc, hh, hi]

end Arena

/-- Runs of queue operations from the two starting states have the same results. -/
def QueueKind.SameQueue (k : QueueKind) (D : Type) [Priority D] : Prop :=
  ∀ ops : List (QueueOp D),
    trace Client.call (Client.start (ConstDefault.DEFAULT : k.Queue D)) ops =
      trace Client.call (Client.start (PriorityQueue.default : k.Queue D)) ops

def QueueKind.SameMutex (k : QueueKind) (P : Type) [Priority P] (evict : Bool) : Prop :=
  ∀ ops : List (Mutex.Op P),
    trace (Mutex.call evict)
        (Mutex.System.start (Mutex.constNew : Mutex (k.Queue (MutexWaiter P)))) ops =
      trace (Mutex.call evict)
        (Mutex.System.start (Mutex.new : Mutex (k.Queue (MutexWaiter P)))) ops

section Semaphore

open Semaphore

def QueueKind.SameSemaphore (k : QueueKind) (P : Type) [Priority P] {B : Build}
    (permits : Usize B) : Prop :=
  ∀ ops : List (Semaphore.Op B P),
    trace Semaphore.call (Semaphore.System.start
        (Semaphore.constNew permits : SemaphoreInner B (k.Queue (SemaphoreWaiter B P)))) ops =
      trace Semaphore.call (Semaphore.System.start
        (Semaphore.new permits : SemaphoreInner B (k.Queue (SemaphoreWaiter B P)))) ops

end Semaphore

section Equivalence

variable {k : QueueKind} {D P : Type} [Priority D] [Priority P]

theorem sameQueue_iff : k.SameQueue D ↔ k.IsBoxed := by
  cases k with
  | boxed L A => exact ⟨fun _ => trivial, fun _ _ => rfl⟩
  | arena L N =>
    constructor
    · intro h
      have hhead : [some (QueueResult.ref (some 0))] = [some (QueueResult.ref none)] :=
        h [.headHandle]
      simp at hhead
    · exact nofun

theorem sameMutex_iff [Inhabited P] (evict : Bool) : k.SameMutex P evict ↔ k.IsBoxed := by
  cases k with
  | boxed L A => exact ⟨fun _ => trivial, fun _ _ => rfl⟩
  | arena L N =>
    constructor
    · intro h
      obtain ⟨r, s, l, hc, -, -⟩ :=
        (Mutex.Holds.start (Q := ArenaQueue L N (MutexWaiter P))).call evict (.lock default)
      exact trace_ne (Mutex.lock_constNew evict default) hc h
    · exact nofun

theorem sameSemaphore_iff {B : Semaphore.Build} (permits : Semaphore.Usize B) :
    k.SameSemaphore P permits ↔ k.IsBoxed := by
  cases k with
  | boxed L A => exact ⟨fun _ => trivial, fun _ _ => rfl⟩
  | arena L N =>
    constructor
    · intro h
      obtain ⟨r, s, p, hc, -, -⟩ := (Semaphore.Holds.start
        (Q := ArenaQueue L N (Semaphore.SemaphoreWaiter B P)) permits).call (.addPermits 0)
      exact trace_ne (Semaphore.addPermits_constNew permits) hc h
    · exact nofun

end Equivalence

/-- For a builtin queue, runs from the two constructors of the queue, of a mutex over it and of
a semaphore over it have the same results if and only if it is a box queue. -/
theorem const_constructors_iff (k : QueueKind) {D P : Type} [Priority D] [Priority P] [Inhabited P]
    (evict : Bool) {B : Semaphore.Build} (permits : Semaphore.Usize B) :
    (k.SameQueue D ↔ k.IsBoxed) ∧ (k.SameMutex P evict ↔ k.IsBoxed) ∧
      (k.SameSemaphore P permits ↔ k.IsBoxed) :=
  ⟨sameQueue_iff, sameMutex_iff evict, sameSemaphore_iff permits⟩

/-- A fresh constant arena has a head handle, and the first lock of a mutex over it is undefined. -/
theorem const_arena_not_empty :
    trace Client.call (Client.start (ConstDefault.DEFAULT : QueueKind.dualArena.Queue ℕ))
        [.headHandle] = [some (.ref (some 0))] ∧
      trace Client.call (Client.start (PriorityQueue.default : QueueKind.dualArena.Queue ℕ))
        [.headHandle] = [some (.ref none)] ∧
      trace (Mutex.call false) (Mutex.System.start
        (Mutex.constNew : Mutex (QueueKind.dualArena.Queue (MutexWaiter ℕ)))) [.lock 7] =
        [none] ∧
      trace (Mutex.call false) (Mutex.System.start
        (Mutex.new : Mutex (QueueKind.dualArena.Queue (MutexWaiter ℕ)))) [.lock 7] =
        [some (.acquired 0)] ∧
      ¬QueueKind.dualArena.SameQueue ℕ ∧ ¬QueueKind.dualArena.SameMutex ℕ false ∧
      ¬QueueKind.dualArena.SameSemaphore ℕ (5 : Semaphore.Usize Semaphore.Build.full) :=
  ⟨rfl, rfl, rfl, rfl, sameQueue_iff.mp, (sameMutex_iff false).mp, (sameSemaphore_iff 5).mp⟩

end PriorityLock
