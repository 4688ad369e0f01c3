import Mathlib.Logic.Function.Basic
import PriorityLock.Queue.Basic

/-! # The box queue

Each node is an allocation of its own. A node owns the next one, so that
assigning to a link drops what the link owned before; the backward link of the
dual-link node does not own. Access to a node that was dropped is undefined
behaviour.
-/

namespace PriorityLock

/-- The allocator may return any address that is not in use. -/
structure Allocator where
  alloc : List Handle → Handle
  fresh : ∀ used, alloc used ∉ used

/-- A node; `prev` is used by the dual-link node only. -/
structure BoxNode (D : Type) where
  data : D
  next : Option Handle
  prev : Option Handle
  deriving DecidableEq, Repr

/-- The queue with the boxes that exist and the addresses in use. -/
structure BoxQueue (L : Link) (A : Allocator) (D : Type) where
  head : Option Handle
  heap : Handle → Option (BoxNode D)
  used : List Handle

namespace BoxQueue

variable {L : Link} {A : Allocator} {D : Type}

def default : BoxQueue L A D := ⟨none, fun _ => none, []⟩

def constDefault : BoxQueue L A D := ⟨none, fun _ => none, []⟩

def getNext (q : BoxQueue L A D) (ptr : Handle) : Option (Option Handle) :=
  (q.heap ptr).map BoxNode.next

def getPrev (q : BoxQueue L A D) (ptr : Handle) : Option (Option Handle) :=
  (q.heap ptr).map BoxNode.prev

def getData (q : BoxQueue L A D) (ptr : Handle) : Option D :=
  (q.heap ptr).map BoxNode.data

def modifyNode (q : BoxQueue L A D) (ptr : Handle) (f : BoxNode D → BoxNode D) :
    BoxQueue L A D :=
  { q with heap := Function.update q.heap ptr ((q.heap ptr).map f) }

/-- Write to a link without dropping what it owned, as `take` and `replace` do. -/
def putNext (q : BoxQueue L A D) (ptr : Handle) (val : Option Handle) : BoxQueue L A D :=
  q.modifyNode ptr fun n => { n with next := val }

def putPrev (q : BoxQueue L A D) (ptr : Handle) (val : Option Handle) : BoxQueue L A D :=
  if L.hasPrev then q.modifyNode ptr fun n => { n with prev := val } else q

def putData (q : BoxQueue L A D) (ptr : Handle) (val : D) : BoxQueue L A D :=
  q.modifyNode ptr fun n => { n with data := val }

/-- `set_prev` does nothing on a single-link node. -/
def setPrev (q : BoxQueue L A D) (ptr : Handle) (val : Option Handle) :
    Option (BoxQueue L A D) :=
  (q.heap ptr).map fun _ => q.putPrev ptr val

def free (q : BoxQueue L A D) (ptr : Handle) : BoxQueue L A D :=
  { q with heap := Function.update q.heap ptr none, used := q.used.filter (· ≠ ptr) }

/-- Drop a box and with it the chain that it owns: the data of its nodes and what is left. -/
def dropChain (q : BoxQueue L A D) : ℕ → Option Handle → Option (List D × BoxQueue L A D)
  | _, none => some ([], q)
  | 0, some _ => none
  | fuel + 1, some ptr => do
    let node ← q.heap ptr
    let (data, q) ← dropChain (q.free ptr) fuel node.next
    pure (node.data :: data, q)

def dropBox (q : BoxQueue L A D) (fuel : ℕ) (ptr : Option Handle) : Option (BoxQueue L A D) :=
  (q.dropChain fuel ptr).map Prod.snd

/-- `*node.next() = val` -/
def storeNext (q : BoxQueue L A D) (ptr : Handle) (val : Option Handle) :
    Option (BoxQueue L A D) := do
  let old ← q.getNext ptr
  let q ← q.dropBox q.used.length old
  let _ ← q.getNext ptr
  pure (q.putNext ptr val)

/-- `self.head = val` -/
def storeHead (q : BoxQueue L A D) (val : Option Handle) : Option (BoxQueue L A D) := do
  let q ← q.dropBox q.used.length q.head
  pure { q with head := val }

/-- `node.next().take()` -/
def takeNext (q : BoxQueue L A D) (ptr : Handle) : Option (Option Handle × BoxQueue L A D) := do
  let old ← q.getNext ptr
  pure (old, q.putNext ptr none)

/-- `replace(node.next(), val).unwrap()` -/
def replaceNext (q : BoxQueue L A D) (ptr : Handle) (val : Option Handle) :
    Option (Handle × BoxQueue L A D) := do
  let old ← q.getNext ptr
  let node ← old
  pure (node, q.putNext ptr val)

/-- `replace(&mut self.head, val).unwrap()` -/
def replaceHead (q : BoxQueue L A D) (val : Option Handle) :
    Option (Handle × BoxQueue L A D) := do
  let node ← q.head
  pure (node, { q with head := val })

/-- `if let Some(nxt) = &next { nxt.set_prev(val) }` -/
def linkBack (q : BoxQueue L A D) (next val : Option Handle) : Option (BoxQueue L A D) :=
  match next with
  | some nxt => q.setPrev nxt val
  | none => some q

section Insertion

variable [Priority D]

def insertLoop (q : BoxQueue L A D) (newData : D) : ℕ → Handle → Option Handle
  | 0, _ => none
  | fuel + 1, curr => do
    match ← q.getNext curr with
    | none => pure curr
    | some next => do
      let nextData ← q.getData next
      if (Priority.compareNew newData nextData).isGE then pure curr
      else insertLoop q newData fuel next

def insert (q : BoxQueue L A D) (newNode : Handle) : Option (BoxQueue L A D) := do
  let newData ← q.getData newNode
  match q.head with
  | none => pure { q with head := some newNode }
  | some head => do
    let headData ← q.getData head
    if (Priority.compareNew newData headData).isGE then
      let q ← q.setPrev head (some newNode)
      let q : BoxQueue L A D := { q with head := none }
      let q ← q.storeNext newNode (some head)
      q.storeHead (some newNode)
    else
      let curr ← q.insertLoop newData (q.used.length + 1) head
      let (next, q) ← q.takeNext curr
      let q ← q.linkBack next (some newNode)
      let q ← q.storeNext newNode next
      let q ← q.setPrev newNode (some curr)
      q.storeNext curr (some newNode)

def enqueue (q : BoxQueue L A D) (data : D) : Option (Handle × BoxQueue L A D) := do
  let ptr := A.alloc q.used
  let q : BoxQueue L A D := { q with
    heap := Function.update q.heap ptr (some ⟨data, none, none⟩)
    used := ptr :: q.used }
  let q ← q.insert ptr
  pure (ptr, q)

/-- The node before a given one, which a single-link queue finds by walking from `node`. -/
def findPrev (q : BoxQueue L A D) (ptr : Handle) : ℕ → Handle → Option (Option Handle)
  | 0, _ => none
  | fuel + 1, node => do
    match ← q.getNext node with
    | none => pure none
    | some next => if next = ptr then pure (some node) else findPrev q ptr fuel next

/-- `is_none_or(|x| rf.data().compare(x.data()).is_le())` -/
def notAbove (q : BoxQueue L A D) (data : D) (prev : Option Handle) : Option Bool :=
  match prev with
  | none => some true
  | some ptr => (q.getData ptr).map fun d => (Priority.compare data d).isLE

/-- `is_none_or(|nxt| rf.data().compare(nxt.data()).is_ge())` -/
def notBelow (q : BoxQueue L A D) (data : D) (next : Option Handle) : Option Bool :=
  match next with
  | none => some true
  | some ptr => (q.getData ptr).map fun d => (Priority.compare data d).isGE

/-- The dual-link part of `update_node` behind the closure. -/
def settleDual (q : BoxQueue L A D) (ptr : Handle) (data : D) : Option (BoxQueue L A D) := do
  let prev ← q.getPrev ptr
  let next ← q.getNext ptr
  if (← q.notAbove data prev) && (← q.notBelow data next) then
    pure q
  else
    let (next, q) ← q.takeNext ptr
    let q ← q.linkBack next prev
    let q ← q.setPrev ptr none
    let (node, q) ← match prev with
      | some prev => q.replaceNext prev next
      | none => q.replaceHead next
    q.insert node

/-- The single-link part of `update_node` behind the closure. -/
def settleSingle (q : BoxQueue L A D) (ptr : Handle) (data : D) : Option (BoxQueue L A D) := do
  -- `unreachable!` when the queue is empty or the handle is not found
  let head ← q.head
  if head = ptr then
    let next ← q.getNext ptr
    let below ← match next with
      | some next => do
        let nextData ← q.getData next
        pure (Priority.compare data nextData).isLE
      | none => pure false
    if below then
      let (next, q) ← q.takeNext ptr
      let (node, q) ← q.replaceHead next
      q.insert node
    else pure q
  else
    let prev ← (← q.findPrev ptr (q.used.length + 1) head)
    let next ← q.getNext ptr
    if (← q.notAbove data (some prev)) && (← q.notBelow data next) then
      pure q
    else
      let (next, q) ← q.takeNext ptr
      let (toInsert, q) ← q.replaceNext prev next
      q.insert toInsert

def updateNode (q : BoxQueue L A D) (ptr : Handle) (update : D → D × Bool) :
    Option (BoxQueue L A D) := do
  let old ← q.getData ptr
  let (data, changed) := update old
  let q := q.putData ptr data
  if changed then
    if L.hasPrev then q.settleDual ptr data else q.settleSingle ptr data
  else pure q

end Insertion

def dequeue (q : BoxQueue L A D) (ptr : Handle) :
    Option ((Option D × Option Handle) × BoxQueue L A D) := do
  if L.hasPrev then
    let (next, q) ← q.takeNext ptr
    let prev ← q.getPrev ptr
    let q ← q.linkBack next prev
    match prev with
    | some prev => do
      let q ← q.storeNext prev next
      let prevData ← q.getData prev
      pure ((some prevData, next), q)
    | none => do
      let q ← q.storeHead next
      pure ((none, next), q)
  else if q.head = some ptr then
    let (next, q) ← q.takeNext ptr
    let q ← q.storeHead next
    pure ((none, q.head), q)
  else
    match q.head with
    | none => pure ((none, none), q)
    | some head => do
      match ← q.findPrev ptr (q.used.length + 1) head with
      | none => pure ((none, none), q)
      | some node => do
        let (next, q) ← q.takeNext ptr
        let q ← q.storeNext node next
        let nodeData ← q.getData node
        let next ← q.getNext node
        pure ((some nodeData, next), q)

/-- The nodes an iterator at `current` visits. A chain longer than the number of boxes
never ends. -/
def iterLoop (q : BoxQueue L A D) : ℕ → Option Handle → Option (List Handle)
  | _, none => some []
  | 0, some _ => none
  | fuel + 1, some current => do
    let next ← q.getNext current
    let rest ← iterLoop q fuel next
    pure (current :: rest)

def iterAt (q : BoxQueue L A D) (after : Option Handle) : Option (List Handle) :=
  q.iterLoop q.used.length (after.or q.head)

/-- The first item of `iter`, whose `next` has already read the link out of it. -/
def firstItem (q : BoxQueue L A D) : Option (Option Handle) :=
  match q.head with
  | none => some none
  | some head => (q.getNext head).map fun _ => some head

instance [Priority D] : PriorityQueue (BoxQueue L A D) D where
  default := default
  enqueue := enqueue
  dequeue := dequeue
  getByHandle := getData
  iterAt := iterAt
  isEmpty q := some q.head.isNone
  updateNode := updateNode
  head := firstItem
  headHandle q := some q.head
  getNextHandle := getNext
  store q h f := (q.getData h).map fun old => q.putData h (f old)

instance : ConstDefault (BoxQueue L A D) := ⟨constDefault⟩

end BoxQueue

abbrev SingleLinkBoxQueue (A : Allocator) (D : Type) := BoxQueue .single A D

abbrev DualLinkBoxQueue (A : Allocator) (D : Type) := BoxQueue .dual A D

end PriorityLock
