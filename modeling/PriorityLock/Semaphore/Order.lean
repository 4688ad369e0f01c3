import PriorityLock.Semaphore.Entry

/-! # The order of a semaphore's entries

Entries with the lock compare above all others, entries of the same kind by
their priorities. New pending entries of equal priority compare by their counts
unless the priority decides ties itself.
-/

namespace PriorityLock.Semaphore

open Placement

variable {B : Build} {P : Type}

abbrev Queued (B : Build) (P : Type) := Entry (SemaphoreWaiter B P)

def hasLock (e : Queued B P) : Bool := e.data.waiter.hasLock

def wantsEvict (e : Queued B P) : Bool := e.data.waiter.wantsEvict

/-- The permits that an entry asks for or has. -/
def count (e : Queued B P) : Usize B := e.data.count

/-- The flag of `acquire_within_total`. -/
def within (e : Queued B P) : Bool := e.data.countAndFlag.2

def recount (e : Queued B P) (word : Usize B) : Queued B P :=
  ⟨e.handle, { e.data with rawCount := word }⟩

@[simp] theorem recount_handle (e : Queued B P) (word : Usize B) :
    (recount e word).handle = e.handle := rfl
@[simp] theorem recount_priority (e : Queued B P) (word : Usize B) :
    (recount e word).data.priority = e.data.priority := rfl
@[simp] theorem hasLock_recount (e : Queued B P) (word : Usize B) :
    hasLock (recount e word) = hasLock e := rfl

theorem count_of_rawCount {d e : Queued B P} (h : e.data.rawCount = d.data.rawCount) :
    count e = count d ∧ within e = within d := by
  simp [count, within, SemaphoreWaiter.count, SemaphoreWaiter.countAndFlag, h]

variable [Priority P]

section Compare

variable {e f : Queued B P}

theorem compare_eq (h : hasLock e = hasLock f) :
    Priority.compare e f = Priority.compare e.data.priority f.data.priority := by
  unfold hasLock at h
  cases he : e.data.waiter.hasLock <;> simp_all [Priority.compare]

theorem compare_locked (he : hasLock e = true) (hf : hasLock f = false) :
    Priority.compare e f = .gt := by
  simp_all [Priority.compare, hasLock]

theorem compareNew_locked (he : hasLock e = true) (hf : hasLock f = false) :
    Priority.compareNew e f = .gt := by
  simp_all [Priority.compareNew, hasLock]

/-- A permit settles in front of the entries that wait. -/
theorem settled_locked {a c l : List (Queued B P)} (he : hasLock e = true)
    (hc : ∀ f ∈ c, hasLock f = false)
    (hs : Settled Priority.compare Priority.compareNew e (a ++ c) l) :
    ∃ a', l = a' ++ c ∧ Settled Priority.compare Priority.compareNew e a a' := by
  apply hs.within_front
  · exact fun f hf => compareNew_locked he (hc f hf)
  · exact fun f hf => compare_locked he (hc f hf)

theorem compareNew_unlocked (he : hasLock e = false) (hf : hasLock f = true) :
    Priority.compareNew e f = .lt := by
  simp_all [Priority.compareNew, hasLock]

theorem compareNew_pending (he : hasLock e = false) (hf : hasLock f = false) :
    Priority.compareNew e f = (Priority.compareNew e.data.priority f.data.priority).then
      (compare (count e).toNat (count f).toNat).swap := by
  simp_all [Priority.compareNew, hasLock, count]

end Compare

section Laws

variable [LawfulPriority P]

instance : LawfulPriority (SemaphoreWaiter B P) where
  trans := {
    eq_swap := by
      intro a b
      have hs : Priority.compare a.priority b.priority =
          (Priority.compare b.priority a.priority).swap := Std.OrientedCmp.eq_swap
      cases ha : a.waiter.hasLock <;> cases hb : b.waiter.hasLock <;>
        simp_all [Priority.compare]
    isLE_trans := by
      intro a b c
      have ht : (Priority.compare a.priority b.priority).isLE →
          (Priority.compare b.priority c.priority).isLE →
          (Priority.compare a.priority c.priority).isLE := Std.TransCmp.isLE_trans
      cases ha : a.waiter.hasLock <;> cases hb : b.waiter.hasLock <;>
        cases hc : c.waiter.hasLock <;> simp_all [Priority.compare] }
  agree := by
    intro a b
    have hg := LawfulPriority.agree a.priority b.priority
    cases ha : a.waiter.hasLock <;> cases hb : b.waiter.hasLock <;>
      cases hc : Priority.compare a.priority b.priority <;>
      simp_all [Priority.compare, Priority.compareNew]

end Laws

end PriorityLock.Semaphore
