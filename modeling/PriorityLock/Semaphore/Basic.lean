import PriorityLock.Semaphore.Entry
import PriorityLock.Transition.Runs

/-! # The semaphore

The queue of a semaphore keeps one entry for each permit and each pending
future. Every operation runs under the lock of the inner state. Callers are
given by the handles that they own, and use no other handle.
-/

namespace PriorityLock.Semaphore

open PriorityQueue

variable {B : Build} {Q P : Type}

/-- The inner state; `total` is used under the feature `semaphore-total` only. -/
structure SemaphoreInner (B : Build) (Q : Type) where
  queue : Q
  total : Usize B
  available : Usize B

structure InsufficientPermitsError (B : Build) where
  total : Usize B
  requested : Usize B
  deriving DecidableEq, Repr

/-- The panics of the operations, with what their messages report. -/
inductive Panic (B : Build)
  | tooMany (received : Usize B)
  | notPositive (received : Usize B)
  | overflow (count available : Usize B)
  | mustAdd
  deriving DecidableEq, Repr

section Operations

variable [Priority P] [PriorityQueue Q (SemaphoreWaiter B P)]

def new (capacity : Usize B) : SemaphoreInner B Q := ⟨default, capacity, capacity⟩

def constNew [ConstDefault Q] (permits : Usize B) : SemaphoreInner B Q :=
  ⟨ConstDefault.DEFAULT, permits, permits⟩

def evictWhere (cond : SemaphoreWaiter B P → Bool) : Q → List Handle → Option Q
  | queue, [] => some queue
  | queue, item :: items => do
    let node ← getByHandle queue item
    if cond node then
      let queue ← store queue item SemaphoreWaiter.evict
      evictWhere cond queue items
    else
      evictWhere cond queue items

def activateLoop : ℕ → SemaphoreInner B Q → Option Handle → Option (SemaphoreInner B Q)
  | _, s, none => some s
  | 0, _, some _ => none
  | fuel + 1, s, some handle => do
    let node ← getByHandle s.queue handle
    let next ← getNextHandle s.queue handle
    if node.waiter.hasLock then
      activateLoop fuel s next
    else if s.available < node.count then
      -- an entry that will be evicted does not block those behind it
      if B.semaphoreTotal && node.waiter.wantsEvict then activateLoop fuel s next else return s
    else
      let queue ← updateNode s.queue handle fun x => (x.start, true)
      activateLoop fuel { s with queue, available := s.available - node.count } next

/-- `activate_waiters`; a walk longer than the queue is a loop that does not end. -/
def activateWaiters (s : SemaphoreInner B Q) (next : Option Handle) :
    Option (SemaphoreInner B Q) := do
  let items ← iter s.queue
  activateLoop items.length s next

def notifyOversizedWaiters (s : SemaphoreInner B Q) (start : Option Handle) :
    Option (SemaphoreInner B Q) := do
  let items ← iterAt s.queue start
  let queue ← evictWhere (fun x => x.countAndFlag.2 && s.total < x.countAndFlag.1) s.queue items
  return { s with queue }

/-- `skip_while(..).next()` of `do_acquire`, which flags holders on its way. -/
def skipWhile (priority : P) : Q → List Handle → Option (Option Handle × Q)
  | queue, [] => some (none, queue)
  | queue, item :: items => do
    let x ← getByHandle queue item
    if x.waiter.hasLock then
      if B.evict && Priority.compare priority x.priority = .gt then
        let queue ← store queue item SemaphoreWaiter.evict
        skipWhile priority queue items
      else
        skipWhile priority queue items
    else if B.semaphoreTotal && !x.waiter.wantsEvict then
      -- `flags & WAITER_FLAG_WANTS_EVICT == 0`: a flagged entry is where skipping ends
      skipWhile priority queue items
    else
      return (some item, queue)

/-- `will_acquire` of `do_acquire`, once enough permits are available. -/
def willAcquire (s : SemaphoreInner B Q) (priority : P) : Option (Bool × Q) := do
  let items ← iter s.queue
  match ← skipWhile priority s.queue items with
  | (none, queue) => return (true, queue)
  | (some firstPending, queue) =>
    let x ← getByHandle queue firstPending
    return ((Priority.compare priority x.priority).isGE, queue)

/-- `do_acquire`: the handle of the new entry and whether it was granted its permits. -/
def doAcquire (s : SemaphoreInner B Q) (priority : P) (count : Usize B) :
    Option ((Handle × Bool) × SemaphoreInner B Q) := do
  if masked count ≤ s.available then
    let (willAcquire, queue) ← willAcquire s priority
    let (handle, queue) ← enqueue queue ⟨priority, .new willAcquire, count⟩
    let available := if willAcquire then s.available - masked count else s.available
    return ((handle, willAcquire), { s with queue, available })
  else
    let (handle, queue) ← enqueue s.queue ⟨priority, .new false, count⟩
    if B.evict then
      let node ← getByHandle queue handle
      let items ← iter queue
      let queue ← evictWhere (fun ex => ex.waiter.hasLock &&
        Priority.compare node.priority ex.priority = .gt) queue items
      return ((handle, false), { s with queue })
    else
      return ((handle, false), { s with queue })

/-- `SemaphorePermitWaiter::drop` -/
def dropWaiter (s : SemaphoreInner B Q) (handle : Handle) : Option (SemaphoreInner B Q) := do
  let node ← getByHandle s.queue handle
  let isActive := node.waiter.hasLock
  let available := if isActive then s.available + node.count else s.available
  let ((prev, next), queue) ← dequeue s.queue handle
  let s := { s with queue, available }
  if next.isNone || !(isActive || 0 < available) then
    return s
  else if isActive then
    activateWaiters s next
  else if prev.all fun x => x.waiter.hasLock then
    activateWaiters s next
  else
    return s

/-- `SemaphorePermit::drop` under its guard; the permits of a panic are lost. -/
def dropPermit (s : SemaphoreInner B Q) (handle : Handle) :
    Option (Except (Panic B) Unit × SemaphoreInner B Q) := do
  let node ← getByHandle s.queue handle
  let ((_, next), queue) ← dequeue s.queue handle
  if B.semaphoreTotal then
    let s ← activateWaiters { s with queue, available := s.available + node.count } next
    return (.ok (), s)
  else
    match checkedAdd s.available node.count with
    | some available =>
      let s ← activateWaiters { s with queue, available } next
      return (.ok (), s)
    | none => return (.error (.overflow node.count s.available), { s with queue })

def forget (s : SemaphoreInner B Q) (handle : Handle) : Option (SemaphoreInner B Q) := do
  let node ← getByHandle s.queue handle
  let ((_, maybeNext), queue) ← dequeue s.queue handle
  if B.semaphoreTotal then
    let total ← checkedSub s.total node.count
    match maybeNext with
    | some next => notifyOversizedWaiters { s with queue, total } (some next)
    | none => return { s with queue, total }
  else
    return { s with queue }

/-- `split` and `split_with_priority`, which differ in the priority of the new permit. -/
def splitOff (priority : P → P) (s : SemaphoreInner B Q) (handle : Handle) (count : Usize B) :
    Option (Except (InsufficientPermitsError B) Handle × SemaphoreInner B Q) := do
  let node ← getByHandle s.queue handle
  let queue ← updateNode s.queue handle fun node =>
    (if count < node.count then { node with rawCount := node.rawCount - count } else node, false)
  if count < node.count then
    let (handle, queue) ← enqueue queue ⟨priority node.priority, .new true, count⟩
    return (.ok handle, { s with queue })
  else
    return (.error ⟨node.count, count⟩, { s with queue })

def split (s : SemaphoreInner B Q) (handle : Handle) (count : Usize B) :
    Option (Except (InsufficientPermitsError B) Handle × SemaphoreInner B Q) :=
  splitOff id s handle count

def splitWithPriority (s : SemaphoreInner B Q) (handle : Handle) (count : Usize B) (priority : P) :
    Option (Except (InsufficientPermitsError B) Handle × SemaphoreInner B Q) :=
  splitOff (fun _ => priority) s handle count

/-- `SemaphorePermit::merge` of two permits of one semaphore, up to the drop of `other`
on its error path. -/
def merge (s : SemaphoreInner B Q) (handle other : Handle) :
    Option (Bool × SemaphoreInner B Q) := do
  let node ← getByHandle s.queue other
  let self ← getByHandle s.queue handle
  let queue ← updateNode s.queue handle fun x =>
    (if maxPermits B < x.count + node.count then x
      else { x with rawCount := x.rawCount + node.count }, false)
  if maxPermits B < self.count + node.count then
    return (false, { s with queue })
  else
    let (_, queue) ← dequeue queue other
    return (true, { s with queue })

def tryAddPermits (s : SemaphoreInner B Q) (count : Usize B) :
    Option (Option (Usize B) × SemaphoreInner B Q) :=
  if B.semaphoreTotal then
    match checkedAdd s.total count with
    | some total => do
      let s := { s with total, available := s.available + count }
      let s ← activateWaiters s (← headHandle s.queue)
      return (some s.available, s)
    | none => some (none, s)
  else
    match checkedAdd s.available count with
    | some available => do
      let s := { s with available }
      let s ← activateWaiters s (← headHandle s.queue)
      return (some s.available, s)
    | none => some (none, s)

/-- `Semaphore::forget_permits`; `assert_unchecked` fails where the subtraction does. -/
def forgetPermits (s : SemaphoreInner B Q) (count : Usize B) :
    Option (Usize B × SemaphoreInner B Q) := do
  let count := if count ≤ s.available then count else s.available
  let s := { s with available := s.available - count }
  if B.semaphoreTotal && count != 0 then
    let total ← checkedSub s.total count
    let s ← notifyOversizedWaiters { s with total } none
    return (count, s)
  else
    return (count, s)

end Operations

/-- What a caller owns for a queue entry: a future of `acquire_many` or of
`acquire_within_total`, one that saw its eviction and has still to drop its entry, a permit. -/
inductive Owned (B : Build)
  | future
  | futureWithinTotal (count : Usize B)
  | rejected (count : Usize B)
  | permit
  deriving DecidableEq, Repr

/-- The calls on a semaphore. The two permits of a merge may be of different ones:
`mergeForeign` and `mergeIntoForeign` are then seen from one of the two sides. -/
inductive Op (B : Build) (P : Type)
  | acquireMany (priority : P) (count : Usize B)
  | acquireWithinTotal (priority : P) (count : Usize B)
  | poll (future : Handle)
  | finish (future : Handle)
  | cancel (future : Handle)
  | drop (permit : Handle)
  | forget (permit : Handle)
  | split (permit : Handle) (count : Usize B)
  | splitWithPriority (permit : Handle) (count : Usize B) (priority : P)
  | merge (permit other : Handle)
  | mergeForeign (permit : Handle)
  | mergeIntoForeign (other : Handle)
  | tryAddPermits (count : Usize B)
  | addPermits (count : Usize B)
  | forgetPermits (count : Usize B)
  | evicted (permit : Handle)
  | permits (permit : Handle)
  | availablePermits
  | totalPermits

inductive Result (B : Build)
  | permit (permit : Handle)
  | pending (future : Handle)
  | insufficient (error : InsufficientPermitsError B)
  | rejected
  | panicked (panic : Panic B)
  | merged (ok : Bool)
  | added (available : Option (Usize B))
  | count (count : Usize B)
  | evicted (ready : Bool)
  | unit
  | refused
  deriving DecidableEq, Repr

/-- A semaphore and what its callers own, oldest first. -/
structure System (B : Build) (Q : Type) where
  inner : SemaphoreInner B Q
  owned : List (Entry (Owned B))

def System.start (s : SemaphoreInner B Q) : System B Q := ⟨s, []⟩

variable [Priority P] [PriorityQueue Q (SemaphoreWaiter B P)]

namespace System

/-- The new entry of `do_acquire`: a permit, or a future of one of the two kinds. -/
def acquire (s : System B Q) (priority : P) (count : Usize B) (kind : Owned B) :
    Option (Result B × System B Q) :=
  (doAcquire s.inner priority count).map fun ((h, acquired), inner) =>
    if acquired then (.permit h, ⟨inner, s.owned ++ [⟨h, .permit⟩]⟩)
    else (.pending h, ⟨inner, s.owned ++ [⟨h, kind⟩]⟩)

def release (s : System B Q) (h : Handle) (result : Result B) : Option (Result B × System B Q) :=
  (dropPermit s.inner h).map fun (r, inner) => match r with
    | .ok () => (result, ⟨inner, without s.owned h⟩)
    | .error panic => (.panicked panic, ⟨inner, without s.owned h⟩)

/-- A future, or a poll that has to return an error, drops its entry. -/
def abandon (s : System B Q) (h : Handle) (result : Result B) : Option (Result B × System B Q) :=
  (dropWaiter s.inner h).map fun inner => (result, ⟨inner, without s.owned h⟩)

def splitResult (s : System B Q) :
    Except (InsufficientPermitsError B) Handle × SemaphoreInner B Q → Result B × System B Q
  | (.ok h, inner) => (.permit h, ⟨inner, s.owned ++ [⟨h, .permit⟩]⟩)
  | (.error e, inner) => (.insufficient e, ⟨inner, s.owned⟩)

end System

/-- One call; one that a build lacks, or on a handle that the caller does not own as
required, is refused. -/
def call (s : System B Q) : Op B P → Option (Result B × System B Q)
  | .acquireMany priority count =>
      if maxPermits B ≤ count then some (.panicked (.tooMany count), s)
      else s.acquire priority count .future
  | .acquireWithinTotal priority count =>
      if !B.semaphoreTotal then some (.refused, s)
      else if maxPermits B ≤ count then some (.panicked (.tooMany count), s)
      else if s.inner.total < count then some (.insufficient ⟨s.inner.total, count⟩, s)
      else s.acquire priority (count ||| withinTotalBit B) (.futureWithinTotal count)
  | .poll h => match lookup s.owned h with
    | some ⟨_, .future⟩ => (getByHandle s.inner.queue h).map fun w =>
        if w.waiter.hasLock then (.permit h, { s with owned := relabel s.owned h .permit })
        else (.pending h, s)
    | some ⟨_, .futureWithinTotal count⟩ => (getByHandle s.inner.queue h).map fun w =>
        if w.waiter.hasLock then (.permit h, { s with owned := relabel s.owned h .permit })
        else if w.waiter.wantsEvict then
          (.rejected, { s with owned := relabel s.owned h (.rejected count) })
        else (.pending h, s)
    | _ => some (.refused, s)
  | .finish h => match lookup s.owned h with
    | some ⟨_, .rejected count⟩ => s.abandon h (.insufficient ⟨BitVec.allOnes B.bits, count⟩)
    | _ => some (.refused, s)
  | .cancel h => match lookup s.owned h with
    | some ⟨_, .future⟩ | some ⟨_, .futureWithinTotal _⟩ => s.abandon h .unit
    | _ => some (.refused, s)
  | .drop h => match lookup s.owned h with
    | some ⟨_, .permit⟩ => s.release h .unit
    | _ => some (.refused, s)
  | .forget h => match lookup s.owned h with
    | some ⟨_, .permit⟩ => (forget s.inner h).map fun inner =>
        (.unit, ⟨inner, without s.owned h⟩)
    | _ => some (.refused, s)
  | .split h count => match lookup s.owned h with
    | some ⟨_, .permit⟩ =>
        if count = 0 then some (.panicked (.notPositive count), s)
        else (split s.inner h count).map s.splitResult
    | _ => some (.refused, s)
  | .splitWithPriority h count priority => match lookup s.owned h with
    | some ⟨_, .permit⟩ =>
        if count = 0 then some (.panicked (.notPositive count), s)
        else (splitWithPriority s.inner h count priority).map s.splitResult
    | _ => some (.refused, s)
  | .merge h other => match lookup s.owned h, lookup s.owned other with
    | some ⟨_, .permit⟩, some ⟨_, .permit⟩ =>
        if h = other then some (.refused, s)
        else (merge s.inner h other).bind fun (ok, inner) =>
          if ok then some (.merged true, ⟨inner, without s.owned other⟩)
          else ({ s with inner } : System B Q).release other (.merged false)
    | _, _ => some (.refused, s)
  | .mergeForeign h => match lookup s.owned h with
    | some ⟨_, .permit⟩ => some (.merged false, s)
    | _ => some (.refused, s)
  | .mergeIntoForeign h => match lookup s.owned h with
    | some ⟨_, .permit⟩ => s.release h (.merged false)
    | _ => some (.refused, s)
  | .tryAddPermits count => (tryAddPermits s.inner count).map fun (r, inner) =>
      (.added r, { s with inner })
  | .addPermits count => (tryAddPermits s.inner count).map fun (r, inner) =>
      match r with
      | some available => (.count available, { s with inner })
      | none => (.panicked .mustAdd, { s with inner })
  | .forgetPermits count => (forgetPermits s.inner count).map fun (n, inner) =>
      (.count n, { s with inner })
  | .evicted h => match B.evict, lookup s.owned h with
    | true, some ⟨_, .permit⟩ => (getByHandle s.inner.queue h).map fun w =>
        (.evicted w.waiter.wantsEvict, s)
    | _, _ => some (.refused, s)
  | .permits h => match lookup s.owned h with
    | some ⟨_, .permit⟩ => (getByHandle s.inner.queue h).map fun w => (.count w.count, s)
    | _ => some (.refused, s)
  | .availablePermits => some (.count s.inner.available, s)
  | .totalPermits =>
      if B.semaphoreTotal then some (.count s.inner.total, s) else some (.refused, s)

end PriorityLock.Semaphore
