/-! # Waiters

A waiter is one atomic word. Its flags are what the mutex and the semaphore
read; the rest of the word hands a waker from its owner to a notifier.
-/

namespace PriorityLock

/-- The flags that `add_flag` sets: `WAITER_FLAG_HAS_LOCK`, `WAITER_FLAG_WANTS_EVICT`. -/
inductive Flag | hasLock | wantsEvict
  deriving DecidableEq, Repr

/-- The flags of a waiter's word, also as the mask that a future waits for. -/
structure Waiter where
  hasLock : Bool
  wantsEvict : Bool
  deriving DecidableEq, Repr

namespace Waiter

def new (hasLock : Bool) : Waiter := ⟨hasLock, false⟩

def has (w : Waiter) : Flag → Bool
  | .hasLock => w.hasLock
  | .wantsEvict => w.wantsEvict

def addFlag (w : Waiter) : Flag → Waiter
  | .hasLock => { w with hasLock := true }
  | .wantsEvict => { w with wantsEvict := true }

def start (w : Waiter) : Waiter := w.addFlag .hasLock

def evict (w : Waiter) : Waiter := w.addFlag .wantsEvict

/-- `flag & target == target` -/
def covers (w target : Waiter) : Bool :=
  (!target.hasLock || w.hasLock) && (!target.wantsEvict || w.wantsEvict)

/-- `flag & target != 0` -/
def meets (w target : Waiter) : Bool :=
  (w.hasLock && target.hasLock) || (w.wantsEvict && target.wantsEvict)

variable {w T : Waiter} {f g : Flag}

theorem has_addFlag : (w.addFlag f).has g = true ↔ f = g ∨ w.has g = true := by
  cases f <;> cases g <;> simp [addFlag, has]

theorem meets_iff : w.meets T = true ↔ ∃ f, w.has f = true ∧ T.has f = true := by
  constructor
  · intro h
    rcases Bool.or_eq_true_iff.mp h with h | h
    · exact ⟨.hasLock, by simpa [has] using h⟩
    · exact ⟨.wantsEvict, by simpa [has] using h⟩
  · rintro ⟨f, hw, hT⟩
    cases f <;> simp_all [meets, has]

theorem meets_addFlag (h : w.meets T = true) : (w.addFlag f).meets T = true := by
  obtain ⟨g, hw, hT⟩ := meets_iff.mp h
  exact meets_iff.mpr ⟨g, has_addFlag.mpr (Or.inr hw), hT⟩

theorem meets_of_covers (h : w.covers T = true) (hT : T.meets T = true) : w.meets T = true := by
  rcases w with ⟨a, b⟩
  rcases T with ⟨c, d⟩
  revert h hT
  revert a b c d
  decide

end Waiter

end PriorityLock
