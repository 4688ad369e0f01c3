import Mathlib.Order.Basic

/-! # Priorities

`compare` orders queued entries, `compareNew` decides where a new entry goes
relative to a queued one. A lawful priority has a total preorder for the first
and lets the second differ from it on ties only.
-/

namespace PriorityLock

/-- The trait `Priority`; `compareNew` defaults to `compare`. -/
class Priority (P : Type) where
  compare : P → P → Ordering
  compareNew : P → P → Ordering := compare

/-- The contract that the trait's documentation states. -/
class LawfulPriority (P : Type) [Priority P] : Prop where
  trans : Std.TransCmp (Priority.compare (P := P))
  agree : ∀ a b : P, Priority.compare a b ≠ .eq → Priority.compareNew a b = Priority.compare a b

attribute [instance] LawfulPriority.trans

/-- `compareNew` is not overridden. -/
class DefaultCompareNew (P : Type) [Priority P] : Prop where
  eq : ∀ a b : P, Priority.compareNew a b = Priority.compare a b

/-- Every `Ord` type is a priority, highest first. -/
instance (priority := low) instPriorityOfOrd {O : Type} [Ord O] : Priority O where
  compare := Ord.compare

structure LowestFirst (O : Type) where
  val : O
  deriving DecidableEq, Repr

instance {O : Type} [Ord O] : Priority (LowestFirst O) where
  compare a b := Ord.compare b.val a.val

/-- Entries of equal priority stay behind older ones. -/
structure FIFO (P : Type) where
  val : P
  deriving DecidableEq, Repr

instance {P : Type} [Priority P] : Priority (FIFO P) where
  compare a b := Priority.compare a.val b.val
  compareNew a b := (Priority.compareNew a.val b.val).then .lt

/-- Entries of equal priority go in front of older ones. -/
structure LIFO (P : Type) where
  val : P
  deriving DecidableEq, Repr

instance {P : Type} [Priority P] : Priority (LIFO P) where
  compare a b := Priority.compare a.val b.val
  compareNew a b := (Priority.compareNew a.val b.val).then .gt

section Laws

variable {O P : Type}

theorem transCmp_comap {α β : Type} (cmp : β → β → Ordering) [Std.TransCmp cmp] (f : α → β) :
    Std.TransCmp fun a b => cmp (f a) (f b) where
  eq_swap := Std.OrientedCmp.eq_swap
  isLE_trans := Std.TransCmp.isLE_trans

instance [Ord O] [Std.TransOrd O] : LawfulPriority O where
  trans := inferInstanceAs (Std.TransCmp (Ord.compare (α := O)))
  agree _ _ _ := rfl

instance [Ord O] : DefaultCompareNew O where
  eq _ _ := rfl

instance [Ord O] [Std.TransOrd O] : LawfulPriority (LowestFirst O) where
  trans := transCmp_comap (fun a b : O => Ord.compare b a) LowestFirst.val
  agree _ _ _ := rfl

instance [Ord O] : DefaultCompareNew (LowestFirst O) where
  eq _ _ := rfl

variable [Priority P] [LawfulPriority P]

instance : LawfulPriority (FIFO P) where
  trans := transCmp_comap (Priority.compare (P := P)) FIFO.val
  agree a b h := by
    have he := LawfulPriority.agree a.val b.val h
    change (Priority.compareNew a.val b.val).then .lt = Priority.compare a.val b.val
    cases hc : Priority.compare a.val b.val <;> simp_all [Priority.compare]

instance : LawfulPriority (LIFO P) where
  trans := transCmp_comap (Priority.compare (P := P)) LIFO.val
  agree a b h := by
    have he := LawfulPriority.agree a.val b.val h
    change (Priority.compareNew a.val b.val).then .gt = Priority.compare a.val b.val
    cases hc : Priority.compare a.val b.val <;> simp_all [Priority.compare]

end Laws

section Ties

variable {P : Type} [Priority P] [DefaultCompareNew P]

/-- A new entry is never tied under `FIFO`: it is above or goes behind. -/
theorem FIFO.compareNew_eq (a b : FIFO P) :
    Priority.compareNew a b = (Priority.compare a b).then .lt := by
  change (Priority.compareNew a.val b.val).then .lt = _
  rw [DefaultCompareNew.eq]
  rfl

/-- A new entry is never tied under `LIFO`: it is below or goes in front. -/
theorem LIFO.compareNew_eq (a b : LIFO P) :
    Priority.compareNew a b = (Priority.compare a b).then .gt := by
  change (Priority.compareNew a.val b.val).then .gt = _
  rw [DefaultCompareNew.eq]
  rfl

end Ties

end PriorityLock
