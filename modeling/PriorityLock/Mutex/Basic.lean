import PriorityLock.Queue.Builtin
import PriorityLock.Waiter.Basic
import PriorityLock.Transition.Runs

/-! # The mutex

The mutex keeps one queue entry for each guard and each pending future; the
entry with the lock is the holder. Every operation runs under the queue's lock.
Callers are given by the handles that they own, and use no other handle.
-/

namespace PriorityLock

structure MutexWaiter (P : Type) where
  priority : P
  waiter : Waiter
  deriving DecidableEq, Repr

namespace MutexWaiter

variable {P : Type}

def new (holder : P) (hasLock : Bool) : MutexWaiter P := ⟨holder, Waiter.new hasLock⟩

def start (w : MutexWaiter P) : MutexWaiter P := { w with waiter := w.waiter.start }

def evict (w : MutexWaiter P) : MutexWaiter P := { w with waiter := w.waiter.evict }

/-- A queued holder is pinned to the head. -/
instance [Priority P] : Priority (MutexWaiter P) where
  compare a b := Priority.compare a.priority b.priority
  compareNew a old :=
    if old.waiter.hasLock then .lt else Priority.compareNew a.priority old.priority

end MutexWaiter

structure TryLockError
  deriving DecidableEq, Repr

/-- The mutex without the data that it guards. -/
structure Mutex (Q : Type) where
  queue : Q

namespace Mutex

open PriorityQueue

variable {Q P : Type} [Priority P]

section Operations

variable [PriorityQueue Q (MutexWaiter P)]

def new : Mutex Q := ⟨default⟩

def constNew [ConstDefault Q] : Mutex Q := ⟨ConstDefault.DEFAULT⟩

def tryLock (m : Mutex Q) (priority : P) : Option (Except TryLockError Handle × Mutex Q) := do
  if ← isEmpty m.queue then
    let (handle, queue) ← enqueue m.queue (MutexWaiter.new priority true)
    return (.ok handle, ⟨queue⟩)
  else
    return (.error ⟨⟩, m)

/-- The part of `lock` under the feature `evict`: notify a holder of lower priority. -/
def evictHead (evict : Bool) (m : Mutex Q) (head : Handle) (priority : P) : Option (Mutex Q) :=
  if evict then do
    let node ← getByHandle m.queue head
    if Priority.compare priority node.priority = .gt then
      let queue ← store m.queue head MutexWaiter.evict
      return ⟨queue⟩
    else
      return m
  else
    return m

/-- `Mutex::lock` up to its first suspension: the handle and whether it has the lock. -/
def lock (evict : Bool) (m : Mutex Q) (priority : P) : Option ((Handle × Bool) × Mutex Q) := do
  match ← head m.queue with
  | none =>
    let (handle, queue) ← enqueue m.queue (MutexWaiter.new priority true)
    return ((handle, true), ⟨queue⟩)
  | some head =>
    let m ← evictHead evict m head priority
    let (handle, queue) ← enqueue m.queue (MutexWaiter.new priority false)
    return ((handle, false), ⟨queue⟩)

/-- `MutexGuard::drop` -/
def dropGuard (m : Mutex Q) (node : Handle) : Option (Mutex Q) := do
  let w ← getByHandle m.queue node
  let (_, queue) ← dequeue m.queue node
  if w.waiter.hasLock then
    match ← head queue with
    | some handle =>
      let queue ← store queue handle MutexWaiter.start
      return ⟨queue⟩
    | none => return ⟨queue⟩
  else
    return ⟨queue⟩

end Operations

/-- What a caller owns for a queue entry. -/
inductive Owned | future | guard
  deriving DecidableEq, Repr

/-- The calls on a mutex. A pending future that is dropped is cancelled. -/
inductive Op (P : Type)
  | lock (priority : P)
  | tryLock (priority : P)
  | poll (future : Handle)
  | cancel (future : Handle)
  | drop (guard : Handle)
  | evicted (guard : Handle)

inductive Result
  | acquired (guard : Handle)
  | pending (future : Handle)
  | error (error : TryLockError)
  | evicted (ready : Bool)
  | unit
  | refused
  deriving DecidableEq, Repr

/-- A mutex and what its callers own, oldest first. -/
structure System (Q : Type) where
  mutex : Mutex Q
  owned : List (Entry Owned)

def System.start (m : Mutex Q) : System Q := ⟨m, []⟩

variable [PriorityQueue Q (MutexWaiter P)]

/-- One call; one on a handle that the caller does not own as required is refused. -/
def call (evict : Bool) (s : System Q) : Op P → Option (Result × System Q)
  | .lock priority => (lock evict s.mutex priority).map fun ((h, acquired), m) =>
      if acquired then (.acquired h, ⟨m, s.owned ++ [⟨h, .guard⟩]⟩)
      else (.pending h, ⟨m, s.owned ++ [⟨h, .future⟩]⟩)
  | .tryLock priority => (tryLock s.mutex priority).map fun (r, m) =>
      match r with
      | .ok h => (.acquired h, ⟨m, s.owned ++ [⟨h, .guard⟩]⟩)
      | .error e => (.error e, ⟨m, s.owned⟩)
  | .poll h => match lookup s.owned h with
    | some ⟨_, .future⟩ => (getByHandle s.mutex.queue h).map fun w =>
        if w.waiter.hasLock then (.acquired h, { s with owned := relabel s.owned h .guard })
        else (.pending h, s)
    | _ => some (.refused, s)
  | .cancel h => match lookup s.owned h with
    | some ⟨_, .future⟩ => (dropGuard s.mutex h).map fun m => (.unit, ⟨m, without s.owned h⟩)
    | _ => some (.refused, s)
  | .drop h => match lookup s.owned h with
    | some ⟨_, .guard⟩ => (dropGuard s.mutex h).map fun m => (.unit, ⟨m, without s.owned h⟩)
    | _ => some (.refused, s)
  | .evicted h => match evict, lookup s.owned h with
    | true, some ⟨_, .guard⟩ => (getByHandle s.mutex.queue h).map fun w =>
        (.evicted w.waiter.wantsEvict, s)
    | _, _ => some (.refused, s)

end Mutex

end PriorityLock
