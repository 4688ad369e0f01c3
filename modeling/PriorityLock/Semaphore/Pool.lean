import PriorityLock.Semaphore.Basic
import PriorityLock.Semaphore.Order

/-! # The pool of permits

A pool holds entries that have permits and entries that wait for some, both in
queue order. `Activates` is the walk that grants permits to waiting entries and
`Moves` says how a call moves the pool and what it returns.
-/

namespace PriorityLock.Semaphore

open Placement

variable {B : Build} {P : Type}

/-- The entries with and without permits, and the handles of all, oldest first. -/
structure Pool (B : Build) (P : Type) where
  held : List (Queued B P)
  pending : List (Queued B P)
  total : Usize B
  available : Usize B
  arrivals : List Handle

def permits (l : List (Queued B P)) : ℕ := (l.map fun e => (count e).toNat).sum

def flag (cond : SemaphoreWaiter B P → Bool) (e : Queued B P) : Queued B P :=
  if cond e.data then ⟨e.handle, e.data.evict⟩ else e

def flagWhere (cond : SemaphoreWaiter B P → Bool) (l : List (Queued B P)) : List (Queued B P) :=
  l.map (flag cond)

/-- The entries that a request of a priority asks to leave. -/
def outranked [Priority P] (priority : P) (x : SemaphoreWaiter B P) : Bool :=
  B.evict && (x.waiter.hasLock && Priority.compare priority x.priority = .gt)

/-- The entries that a total asks to leave. -/
def oversized (total : Usize B) (x : SemaphoreWaiter B P) : Bool :=
  x.countAndFlag.2 && total < x.countAndFlag.1

/-- A waiting entry that the walk passes over when it cannot afford it. -/
def bypassed (e : Queued B P) : Bool := B.semaphoreTotal && wantsEvict e

/-- A waiting entry that a new request is compared with. -/
def blocks (e : Queued B P) : Bool := !B.semaphoreTotal || wantsEvict e

/-- The walk over waiting entries: those it has passed over, those ahead of it. -/
inductive Activates [Priority P] : List (Queued B P) → List (Queued B P) → List (Queued B P) →
    Usize B → List (Queued B P) → List (Queued B P) → Usize B → Prop

  | finish {held skipped : List (Queued B P)} {available : Usize B} :
      Activates held skipped [] available held skipped available

  | stop {held skipped rest : List (Queued B P)} {e : Queued B P} {available : Usize B} :
      available < count e → bypassed e = false →
      Activates held skipped (e :: rest) available held (skipped ++ e :: rest) available

  | skip {held skipped rest held' pending' : List (Queued B P)} {e : Queued B P}
      {available available' : Usize B} : available < count e → bypassed e = true →
      Activates held (skipped ++ [e]) rest available held' pending' available' →
      Activates held skipped (e :: rest) available held' pending' available'

  | grant {held held₁ skipped rest held' pending' : List (Queued B P)} {e : Queued B P}
      {available available' : Usize B} : count e ≤ available →
      Settled Priority.compare Priority.compareNew ⟨e.handle, e.data.start⟩ held held₁ →
      Activates held₁ skipped rest (available - count e) held' pending' available' →
      Activates held skipped (e :: rest) available held' pending' available'

def Op.request : Op B P → Option (P × Usize B)
  | .acquireMany p n | .acquireWithinTotal p n => some (p, n)
  | _ => none

/-- The entry that a call drops, with what it has of permits. -/
def Op.drops : Op B P → Option Handle
  | .finish h | .cancel h | .drop h | .mergeIntoForeign h | .merge _ h => some h
  | _ => none

/-- The word that an acquire queues for its count. -/
inductive Requests : Op B P → P → Usize B → Usize B → Prop

  | many {p : P} {n : Usize B} : n < maxPermits B → Requests (.acquireMany p n) p n n

  | withinTotal {p : P} {n : Usize B} : B.semaphoreTotal = true → n < maxPermits B →
      Requests (.acquireWithinTotal p n) p n (n ||| withinTotalBit B)

/-- What a call returns and how it moves the pool. -/
inductive Moves [Priority P] : Op B P → Result B → Pool B P → Pool B P → Prop

  | acquire {op : Op B P} {p : P} {n word total available : Usize B} {h : Handle}
      {held pending held' : List (Queued B P)} {arrivals : List Handle} :
      Requests op p n word → h ∉ arrivals → n ≤ available →
      (∀ f ∈ pending.find? blocks, (Priority.compare p f.data.priority).isGE) →
      Placed Priority.compareNew ⟨h, p, .new true, word⟩ (flagWhere (outranked p) held) held' →
      Moves op (.permit h) ⟨held, pending, total, available, arrivals⟩
        ⟨held', pending, total, available - n, arrivals ++ [h]⟩

  | enqueue {op : Op B P} {p : P} {n word total available : Usize B} {h : Handle}
      {held pending pending' : List (Queued B P)} {arrivals : List Handle} :
      Requests op p n word → h ∉ arrivals →
      (n ≤ available →
        ∃ f, pending.find? blocks = some f ∧ Priority.compare p f.data.priority = .lt) →
      Placed Priority.compareNew ⟨h, p, .new false, word⟩ pending pending' →
      Moves op (.pending h) ⟨held, pending, total, available, arrivals⟩
        ⟨flagWhere (outranked p) held, pending', total, available, arrivals ++ [h]⟩

  | release {op : Op B P} {r : Result B} {total available available' : Usize B} {e : Queued B P}
      {a b pending held' pending' : List (Queued B P)} {arrivals : List Handle} :
      op.drops = some e.handle →
      Activates (a ++ b) [] pending (available + count e) held' pending' available' →
      Moves op r ⟨a ++ e :: b, pending, total, available, arrivals⟩
        ⟨held', pending', total, available', arrivals.filter (· ≠ e.handle)⟩

  | discard {op : Op B P} {total available : Usize B} {e : Queued B P}
      {a b pending : List (Queued B P)} {arrivals : List Handle} :
      op.drops = some e.handle → B.semaphoreTotal = false →
      checkedAdd available (count e) = none →
      Moves op (.panicked (.overflow (count e) available))
        ⟨a ++ e :: b, pending, total, available, arrivals⟩
        ⟨a ++ b, pending, total, available, arrivals.filter (· ≠ e.handle)⟩

  | leave {op : Op B P} {r : Result B} {total available : Usize B} {e : Queued B P}
      {held a b : List (Queued B P)} {arrivals : List Handle} :
      op.drops = some e.handle → a ≠ [] ∨ available = 0 →
      Moves op r ⟨held, a ++ e :: b, total, available, arrivals⟩
        ⟨held, a ++ b, total, available, arrivals.filter (· ≠ e.handle)⟩

  | unblock {op : Op B P} {r : Result B} {total available available' : Usize B} {e : Queued B P}
      {held b held' pending' : List (Queued B P)} {arrivals : List Handle} :
      op.drops = some e.handle →
      Activates held [] b available held' pending' available' →
      Moves op r ⟨held, e :: b, total, available, arrivals⟩
        ⟨held', pending', total, available', arrivals.filter (· ≠ e.handle)⟩

  | forget {total available : Usize B} {e : Queued B P} {a b pending : List (Queued B P)}
      {arrivals : List Handle} : B.semaphoreTotal = false →
      Moves (.forget e.handle) .unit ⟨a ++ e :: b, pending, total, available, arrivals⟩
        ⟨a ++ b, pending, total, available, arrivals.filter (· ≠ e.handle)⟩

  | forgetTotal {total available : Usize B} {e : Queued B P} {a b pending : List (Queued B P)}
      {arrivals : List Handle} : B.semaphoreTotal = true → count e ≤ total →
      Moves (.forget e.handle) .unit ⟨a ++ e :: b, pending, total, available, arrivals⟩
        ⟨a ++ flagWhere (oversized (total - count e)) b,
          flagWhere (oversized (total - count e)) pending, total - count e, available,
          arrivals.filter (· ≠ e.handle)⟩

  | split {op : Op B P} {p : P} {n total available : Usize B} {h : Handle} {e : Queued B P}
      {a b pending held' : List (Queued B P)} {arrivals : List Handle} :
      op = .split e.handle n ∧ p = e.data.priority ∨ op = .splitWithPriority e.handle n p →
      h ∉ arrivals → n < count e →
      Placed Priority.compareNew ⟨h, p, .new true, n⟩
        (a ++ recount e (e.data.rawCount - n) :: b) held' →
      Moves op (.permit h) ⟨a ++ e :: b, pending, total, available, arrivals⟩
        ⟨held', pending, total, available, arrivals ++ [h]⟩

  | merge {total available : Usize B} {e f : Queued B P} {a b pending : List (Queued B P)}
      {arrivals : List Handle} : f ∈ a ++ b → count e + count f ≤ maxPermits B →
      Moves (.merge e.handle f.handle) (.merged true)
        ⟨a ++ e :: b, pending, total, available, arrivals⟩
        ⟨without (a ++ recount e (e.data.rawCount + count f) :: b)
          f.handle, pending, total, available, arrivals.filter (· ≠ f.handle)⟩

  | add {op : Op B P} {r : Result B} {n total available available' : Usize B}
      {held pending held' pending' : List (Queued B P)} {arrivals : List Handle} :
      op = .tryAddPermits n ∧ r = .added (some available') ∨
        op = .addPermits n ∧ r = .count available' → B.semaphoreTotal = false →
      checkedAdd available n = some (available + n) →
      Activates held [] pending (available + n) held' pending' available' →
      Moves op r ⟨held, pending, total, available, arrivals⟩
        ⟨held', pending', total, available', arrivals⟩

  | addTotal {op : Op B P} {r : Result B} {n total available available' : Usize B}
      {held pending held' pending' : List (Queued B P)} {arrivals : List Handle} :
      op = .tryAddPermits n ∧ r = .added (some available') ∨
        op = .addPermits n ∧ r = .count available' → B.semaphoreTotal = true →
      checkedAdd total n = some (total + n) →
      Activates held [] pending (available + n) held' pending' available' →
      Moves op r ⟨held, pending, total, available, arrivals⟩
        ⟨held', pending', total + n, available', arrivals⟩

  | forgetPermits {m n total available : Usize B} {held pending : List (Queued B P)}
      {arrivals : List Handle} : B.semaphoreTotal = false → n ≤ available →
      Moves (.forgetPermits m) (.count n) ⟨held, pending, total, available, arrivals⟩
        ⟨held, pending, total, available - n, arrivals⟩

  | forgetPermitsTotal {m n total available : Usize B} {held pending : List (Queued B P)}
      {arrivals : List Handle} : B.semaphoreTotal = true → n ≠ 0 → n ≤ available → n ≤ total →
      Moves (.forgetPermits m) (.count n) ⟨held, pending, total, available, arrivals⟩
        ⟨flagWhere (oversized (total - n)) held, flagWhere (oversized (total - n)) pending,
          total - n, available - n, arrivals⟩

  | unchanged {op : Op B P} {r : Result B} {p : Pool B P} :
      (∀ priority n, op.request = some (priority, n) → (∀ h, r ≠ .permit h) ∧
        (maxPermits B ≤ n ∨ B.semaphoreTotal = false ∨ p.total < n)) → Moves op r p p

end PriorityLock.Semaphore
