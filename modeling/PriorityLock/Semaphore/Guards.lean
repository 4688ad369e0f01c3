import PriorityLock.Lock.RwLock
import PriorityLock.Semaphore.Basic

/-! # The guards of the semaphore

Every call takes the lock of the inner state itself, and some panic. A guard that
is alive at a panic would poison the lock. Here the calls run with their guards,
and on a free lock they do what they do on the inner state.
-/

namespace PriorityLock.Semaphore

open PriorityQueue Transition

variable {B : Build} {Q P : Type}

/-- A semaphore behind its lock and what its callers own, oldest first. -/
structure Shared (B : Build) (Q : Type) where
  lock : RwLock (SemaphoreInner B Q)
  owned : List (Entry (Owned B))

def Shared.start (s : SemaphoreInner B Q) : Shared B Q := ⟨.new s, []⟩

/-- The semaphore while no guard is alive. -/
def System.shared (s : System B Q) : Shared B Q := ⟨.new s.inner, s.owned⟩

variable [Priority P] [PriorityQueue Q (SemaphoreWaiter B P)]

/-- `SemaphorePermit::drop` with its guard, which is dropped before the panic. -/
def dropPermitGuarded (lock : RwLock (SemaphoreInner B Q)) (handle : Handle) :
    Option (Except (Panic B) Unit × RwLock (SemaphoreInner B Q)) := do
  let sem ← lock.write
  let node ← getByHandle sem.value.queue handle
  let ((_, next), queue) ← dequeue sem.value.queue handle
  let count := node.count
  let sem := { sem with value := { sem.value with queue } }
  if B.semaphoreTotal then
    let available := sem.value.available + count
    let value ← activateWaiters { sem.value with available } next
    return (.ok (), RwLock.dropGuard { sem with value })
  else
    match checkedAdd sem.value.available count with
    | some available =>
      let value ← activateWaiters { sem.value with available } next
      return (.ok (), RwLock.dropGuard { sem with value })
    | none =>
      let avail := sem.value.available
      -- `drop(sem)`, so that the panic unwinds without the guard
      let lock := sem.dropGuard
      return (.error (.overflow count avail), lock.unwind)

omit [Priority P] in
theorem dropPermitGuarded_new (s : SemaphoreInner B Q) (h : Handle) :
    dropPermitGuarded (.new s) h = (dropPermit s h).map fun (r, s) => (r, .new s) := by
  have hw : (RwLock.new s).write = some ⟨s, true, false⟩ := rfl
  simp only [dropPermitGuarded, dropPermit, hw, Option.bind_eq_bind, Option.bind_some]
  cases getByHandle s.queue h with
  | none => rfl
  | some node =>
    rcases dequeue s.queue h with _ | ⟨⟨prev, next⟩, queue⟩
    · rfl
    · simp only [Option.bind_some]
      split
      · cases activateWaiters (⟨queue, s.total, s.available + node.count⟩ : SemaphoreInner B Q)
          next <;> rfl
      · cases checkedAdd s.available node.count with
        | none => rfl
        | some available =>
          cases ha : activateWaiters (⟨queue, s.total, available⟩ : SemaphoreInner B Q) next with
          | none => simp [ha]
          | some value =>
            simp only [ha, Option.bind_some]
            rfl

namespace Shared

def acquire (s : Shared B Q) (priority : P) (count : Usize B) (kind : Owned B) :
    Option (Result B × Shared B Q) :=
  (s.lock.guarded fun inner => doAcquire inner priority count).map fun ((h, acquired), lock) =>
    if acquired then (.permit h, ⟨lock, s.owned ++ [⟨h, .permit⟩]⟩)
    else (.pending h, ⟨lock, s.owned ++ [⟨h, kind⟩]⟩)

/-- The total is compared under the guard of the acquire. -/
def acquireWithin (s : Shared B Q) (priority : P) (count : Usize B) :
    Option (Result B × Shared B Q) :=
  (s.lock.guarded fun inner =>
    if inner.total < count then some (Except.error ⟨inner.total, count⟩, inner)
    else (doAcquire inner priority (count ||| withinTotalBit B)).map fun (x, inner) =>
      (Except.ok x, inner)).map fun (x, lock) => match x with
    | .error e => (.insufficient e, { s with lock })
    | .ok (h, acquired) =>
      if acquired then (.permit h, ⟨lock, s.owned ++ [⟨h, .permit⟩]⟩)
      else (.pending h, ⟨lock, s.owned ++ [⟨h, .futureWithinTotal count⟩]⟩)

def release (s : Shared B Q) (h : Handle) (result : Result B) : Option (Result B × Shared B Q) :=
  (dropPermitGuarded s.lock h).map fun (r, lock) => match r with
    | .ok () => (result, ⟨lock, without s.owned h⟩)
    | .error panic => (.panicked panic, ⟨lock, without s.owned h⟩)

def abandon (s : Shared B Q) (h : Handle) (result : Result B) : Option (Result B × Shared B Q) :=
  (s.lock.guarded fun inner => (dropWaiter inner h).map fun inner => (result, inner)).map
    fun (r, lock) => (r, ⟨lock, without s.owned h⟩)

def splitResult (s : Shared B Q) : Except (InsufficientPermitsError B) Handle ×
    RwLock (SemaphoreInner B Q) → Result B × Shared B Q
  | (.ok h, lock) => (.permit h, ⟨lock, s.owned ++ [⟨h, .permit⟩]⟩)
  | (.error e, lock) => (.insufficient e, ⟨lock, s.owned⟩)

def readEntry (s : Shared B Q) (h : Handle) : Option (SemaphoreWaiter B P) :=
  s.lock.read.bind fun inner => getByHandle inner.queue h

end Shared

/-- One call with the guards that it takes. The assertions come before any guard. -/
def callGuarded (s : Shared B Q) : Op B P → Option (Result B × Shared B Q)
  | .acquireMany priority count =>
      if maxPermits B ≤ count then some (.panicked (.tooMany count), s)
      else s.acquire priority count .future
  | .acquireWithinTotal priority count =>
      if !B.semaphoreTotal then some (.refused, s)
      else if maxPermits B ≤ count then some (.panicked (.tooMany count), s)
      else s.acquireWithin priority count
  | .poll h => match lookup s.owned h with
    | some ⟨_, .future⟩ => (s.readEntry h).map fun w =>
        if w.waiter.hasLock then (.permit h, { s with owned := relabel s.owned h .permit })
        else (.pending h, s)
    | some ⟨_, .futureWithinTotal count⟩ => (s.readEntry h).map fun w =>
        if w.waiter.hasLock then (.permit h, { s with owned := relabel s.owned h .permit })
        else if w.waiter.wantsEvict then
          (.rejected, { s with owned := relabel s.owned h (.rejected count) })
        else (.pending h, s)
    | _ => some (.refused, s)
  | .finish h => match lookup s.owned h with
    | some ⟨_, .rejected count⟩ => s.abandon h (.insufficient ⟨BitVec.allOnes B.bits, count⟩)
    | _ => some (.refused, s)
  | .cancel h => match lookup s.owned h with
    | some ⟨_, .future⟩ | some ⟨_, .futureWithinTotal _⟩ => s.abandon h .unit
    | _ => some (.refused, s)
  | .drop h => match lookup s.owned h with
    | some ⟨_, .permit⟩ => s.release h .unit
    | _ => some (.refused, s)
  | .forget h => match lookup s.owned h with
    | some ⟨_, .permit⟩ => (s.lock.guarded fun inner => (forget inner h).map fun inner =>
        (.unit, inner)).map fun (r, lock) => (r, ⟨lock, without s.owned h⟩)
    | _ => some (.refused, s)
  | .split h count => match lookup s.owned h with
    | some ⟨_, .permit⟩ =>
        if count = 0 then some (.panicked (.notPositive count), s)
        else (s.lock.guarded fun inner => split inner h count).map s.splitResult
    | _ => some (.refused, s)
  | .splitWithPriority h count priority => match lookup s.owned h with
    | some ⟨_, .permit⟩ =>
        if count = 0 then some (.panicked (.notPositive count), s)
        else (s.lock.guarded fun inner => splitWithPriority inner h count priority).map
          s.splitResult
    | _ => some (.refused, s)
  | .merge h other => match lookup s.owned h, lookup s.owned other with
    | some ⟨_, .permit⟩, some ⟨_, .permit⟩ =>
        if h = other then some (.refused, s)
        else (s.lock.guarded fun inner => merge inner h other).bind fun (ok, lock) =>
          if ok then some (.merged true, ⟨lock, without s.owned other⟩)
          -- the guard is dropped before `other`, whose own drop takes the lock again
          else ({ s with lock } : Shared B Q).release other (.merged false)
    | _, _ => some (.refused, s)
  | .mergeForeign h => match lookup s.owned h with
    | some ⟨_, .permit⟩ => some (.merged false, s)
    | _ => some (.refused, s)
  | .mergeIntoForeign h => match lookup s.owned h with
    | some ⟨_, .permit⟩ => s.release h (.merged false)
    | _ => some (.refused, s)
  | .tryAddPermits count => (s.lock.guarded fun inner => tryAddPermits inner count).map
      fun (r, lock) => (.added r, { s with lock })
  | .addPermits count => (s.lock.guarded fun inner => tryAddPermits inner count).map
      fun (r, lock) => match r with
      | some available => (.count available, { s with lock })
      | none => (.panicked .mustAdd, { s with lock := lock.unwind })
  | .forgetPermits count => (s.lock.guarded fun inner => forgetPermits inner count).map
      fun (n, lock) => (.count n, { s with lock })
  | .evicted h => match B.evict, lookup s.owned h with
    | true, some ⟨_, .permit⟩ => (s.readEntry h).map fun w => (.evicted w.waiter.wantsEvict, s)
    | _, _ => some (.refused, s)
  | .permits h => match lookup s.owned h with
    | some ⟨_, .permit⟩ => (s.readEntry h).map fun w => (.count w.count, s)
    | _ => some (.refused, s)
  | .availablePermits => s.lock.read.map fun inner => (.count inner.available, s)
  | .totalPermits =>
      if B.semaphoreTotal then s.lock.read.map fun inner => (.count inner.total, s)
      else some (.refused, s)

section Refinement

variable {s : System B Q} {op : Op B P} {h : Handle} {result : Result B}

omit [Priority P] in
theorem release_shared : s.shared.release h result =
    (s.release h result).map fun (r, s) => (r, s.shared) := by
  rw [Shared.release, System.release, System.shared, dropPermitGuarded_new, Option.map_map,
    Option.map_map]
  congr 1
  apply funext
  rintro ⟨r, inner⟩
  cases r <;> rfl

omit [Priority P] in
theorem abandon_shared : s.shared.abandon h result =
    (s.abandon h result).map fun (r, s) => (r, s.shared) := by
  rw [Shared.abandon, System.abandon, System.shared, RwLock.guarded_new]
  simp only [Option.map_map]
  rfl

theorem acquire_shared {priority : P} {count : Usize B} {kind : Owned B} :
    s.shared.acquire priority count kind =
      (s.acquire priority count kind).map fun (r, s) => (r, s.shared) := by
  rw [Shared.acquire, System.acquire, System.shared, RwLock.guarded_new]
  simp only [Option.map_map]
  congr 1
  apply funext
  rintro ⟨⟨h, acquired⟩, inner⟩
  cases acquired <;> rfl

theorem acquireWithin_shared {priority : P} {count : Usize B} :
    s.shared.acquireWithin priority count =
      (if s.inner.total < count then some (.insufficient ⟨s.inner.total, count⟩, s)
        else s.acquire priority (count ||| withinTotalBit B) (.futureWithinTotal count)).map
          fun (r, s) => (r, s.shared) := by
  rw [Shared.acquireWithin, System.acquire, System.shared, RwLock.guarded_new]
  split
  · rfl
  · simp only [Option.map_map]
    congr 1
    apply funext
    rintro ⟨⟨h, acquired⟩, inner⟩
    cases acquired <;> rfl

omit [Priority P] in
theorem readEntry_shared {h : Handle} :
    s.shared.readEntry h = getByHandle s.inner.queue h := rfl

/-- On a free lock every call does what it does on the inner state, and leaves the lock free. -/
theorem callGuarded_shared : callGuarded s.shared op =
    (call s op).map fun (r, s) => (r, s.shared) := by
  have hown : s.shared.owned = s.owned := rfl
  have hlock : s.shared.lock = .new s.inner := rfl
  cases op with
  | acquireMany priority n =>
    simp only [callGuarded, call]
    split
    · rfl
    · exact acquire_shared
  | acquireWithinTotal priority n =>
    simp only [callGuarded, call]
    split
    · rfl
    · split
      · rfl
      · exact acquireWithin_shared
  | poll h =>
    simp only [callGuarded, call, hown, readEntry_shared]
    rcases lookup s.owned h with _ | ⟨_, _ | _ | _ | _⟩
    case some.future =>
      simp only [Option.map_map]
      congr 1
      funext w
      cases hl : w.waiter.hasLock with
      | true =>
        simp [hl]
        rfl
      | false => simp [hl]
    case some.futureWithinTotal =>
      simp only [Option.map_map]
      congr 1
      funext w
      cases hl : w.waiter.hasLock <;> cases he : w.waiter.wantsEvict <;> simp [hl, he] <;> rfl
    all_goals rfl
  | finish h =>
    simp only [callGuarded, call, hown]
    rcases lookup s.owned h with _ | ⟨_, _ | _ | _ | _⟩
    case some.rejected => exact abandon_shared
    all_goals rfl
  | cancel h =>
    simp only [callGuarded, call, hown]
    rcases lookup s.owned h with _ | ⟨_, _ | _ | _ | _⟩
    case some.future | some.futureWithinTotal => exact abandon_shared
    all_goals rfl
  | drop h | mergeIntoForeign h =>
    simp only [callGuarded, call, hown]
    rcases lookup s.owned h with _ | ⟨_, _ | _ | _ | _⟩
    case some.permit => exact release_shared
    all_goals rfl
  | forget h =>
    simp only [callGuarded, call, hown, hlock]
    rcases lookup s.owned h with _ | ⟨_, _ | _ | _ | _⟩
    case some.permit =>
      simp only [RwLock.guarded_new, Option.map_map]
      rfl
    all_goals rfl
  | split h n | splitWithPriority h n priority =>
    simp only [callGuarded, call, hown, hlock]
    rcases lookup s.owned h with _ | ⟨_, _ | _ | _ | _⟩
    case some.permit =>
      simp only
      split
      · rfl
      · simp only [RwLock.guarded_new, Option.map_map]
        congr 1
        apply funext
        rintro ⟨r, inner⟩
        cases r <;> rfl
    all_goals rfl
  | merge h other =>
    simp only [callGuarded, call, hown, hlock]
    rcases lookup s.owned h with _ | ⟨_, _ | _ | _ | _⟩
    case some.permit =>
      rcases lookup s.owned other with _ | ⟨_, _ | _ | _ | _⟩
      case some.permit =>
        simp only
        split
        · rfl
        · rw [RwLock.guarded_new]
          rcases merge s.inner h other with _ | ⟨_ | _, inner⟩
          · rfl
          · exact release_shared (s := ⟨inner, s.owned⟩)
          · rfl
      all_goals rfl
    all_goals rfl
  | mergeForeign h =>
    simp only [callGuarded, call, hown]
    rcases lookup s.owned h with _ | ⟨_, _ | _ | _ | _⟩ <;> rfl
  | tryAddPermits n | forgetPermits n =>
    simp only [callGuarded, call, hlock, RwLock.guarded_new, Option.map_map]
    rfl
  | addPermits n =>
    simp only [callGuarded, call, hlock, RwLock.guarded_new, Option.map_map]
    congr 1
    apply funext
    rintro ⟨r, inner⟩
    cases r <;> rfl
  | evicted h =>
    simp only [callGuarded, call, hown, readEntry_shared]
    cases B.evict with
    | false => rfl
    | true =>
      rcases lookup s.owned h with _ | ⟨_, _ | _ | _ | _⟩
      case some.permit =>
        simp only [Option.map_map]
        rfl
      all_goals rfl
  | permits h =>
    simp only [callGuarded, call, hown, readEntry_shared]
    rcases lookup s.owned h with _ | ⟨_, _ | _ | _ | _⟩
    case some.permit =>
      simp only [Option.map_map]
      rfl
    all_goals rfl
  | availablePermits => rfl
  | totalPermits =>
    simp only [callGuarded, call, hlock]
    split <;> rfl

theorem after_guarded (s : System B Q) (op : Op B P) :
    after callGuarded s.shared op = (after call s op).map System.shared := by
  rw [after, after, callGuarded_shared, Option.map_map, Option.map_map]
  rfl

theorem run_guarded (s : System B Q) (ops : List (Op B P)) :
    run (after callGuarded) s.shared ops = (run (after call) s ops).map System.shared :=
  run_map after_guarded s ops

end Refinement

end PriorityLock.Semaphore
