import Mathlib.Data.Option.Basic

/-! # A lock that a panic may poison

A write guard that is alive keeps all others out. It is dropped by its owner, or
by a panic that unwinds, which poisons the lock for whoever comes next.
-/

namespace PriorityLock

/-- `RwLock` over the lock of std: whether a write guard is alive, and whether a panic has dropped
one. -/
structure RwLock (T : Type) where
  value : T
  writing : Bool
  poisoned : Bool

namespace RwLock

variable {T α : Type}

def new (value : T) : RwLock T := ⟨value, false, false⟩

/-- `read().unwrap()` does not return while a write guard is alive, and panics on poison. -/
def read (lock : RwLock T) : Option T :=
  if lock.writing || lock.poisoned then none else some lock.value

def write (lock : RwLock T) : Option (RwLock T) :=
  if lock.writing || lock.poisoned then none else some { lock with writing := true }

/-- The write guard is dropped, by `drop(guard)` or at the end of its scope. -/
def dropGuard (lock : RwLock T) : RwLock T := { lock with writing := false }

/-- A panic unwinds: a guard that is still alive poisons the lock. -/
def unwind (lock : RwLock T) : RwLock T :=
  { lock with writing := false, poisoned := lock.poisoned || lock.writing }

/-- A body that has the write guard until it returns. -/
def guarded (lock : RwLock T) (body : T → Option (α × T)) : Option (α × RwLock T) := do
  let guard ← lock.write
  let (a, value) ← body guard.value
  return (a, dropGuard { guard with value })

def Free (lock : RwLock T) : Prop := lock.writing = false ∧ lock.poisoned = false

theorem free_new (value : T) : (new value).Free := ⟨rfl, rfl⟩

@[simp] theorem guarded_new (value : T) (body : T → Option (α × T)) :
    (new value).guarded body = (body value).map fun (a, value) => (a, new value) := by
  change (body value).bind _ = _
  cases body value <;> rfl

/-- After a panic under its guard nobody gets the lock. -/
example (value : T) : (new value).write.bind (fun guard => guard.unwind.write) = none := rfl

end RwLock

end PriorityLock
