import Mathlib.Algebra.Order.BigOperators.Group.List
import Mathlib.Algebra.Order.Group.Nat
import PriorityLock.Queue.ArenaLawful
import PriorityLock.Queue.BoxedLawful

/-! # The four builtin queues

A queue type of the crate is an arena or a box queue with single or dual links.
All of them are lawful.
-/

namespace PriorityLock

/-- A queue type with the layout or the allocator that it runs on. -/
inductive QueueKind
  | arena (link : Link) (layout : NodeLayout)
  | boxed (link : Link) (allocator : Allocator)

/-- A dual-link arena on a 64-bit target. -/
abbrev QueueKind.dualArena : QueueKind := .arena .dual ⟨64, 48, by decide, by decide, by decide⟩

/-- An allocator that never returns an address below one in use. -/
def Allocator.ascending : Allocator where
  alloc used := used.sum + 1
  fresh _ h := Nat.not_succ_le_self _ (List.le_sum_of_mem h)

abbrev QueueKind.singleBox : QueueKind := .boxed .single .ascending

/-- The queue type of the crate for a kind. -/
def QueueKind.Queue : QueueKind → Type → Type
  | .arena L N, D => ArenaQueue L N D
  | .boxed L A, D => BoxQueue L A D

namespace QueueKind

variable {D : Type}

instance [Priority D] : (k : QueueKind) → PriorityQueue (k.Queue D) D
  | .arena L N => inferInstanceAs (PriorityQueue (ArenaQueue L N D) D)
  | .boxed L A => inferInstanceAs (PriorityQueue (BoxQueue L A D) D)

instance [Priority D] : (k : QueueKind) → LawfulQueue (k.Queue D) D
  | .arena L N => inferInstanceAs (LawfulQueue (ArenaQueue L N D) D)
  | .boxed L A => inferInstanceAs (LawfulQueue (BoxQueue L A D) D)

instance : (k : QueueKind) → ConstDefault (k.Queue D)
  | .arena L N => inferInstanceAs (ConstDefault (ArenaQueue L N D))
  | .boxed L A => inferInstanceAs (ConstDefault (BoxQueue L A D))

def IsBoxed : QueueKind → Prop
  | .arena _ _ => False
  | .boxed _ _ => True

end QueueKind

end PriorityLock
