import Mathlib.Algebra.Group.Nat.Defs
import PriorityLock.Queue.Basic

/-! # The arena queue

All nodes lie in one block of slots. A node refers to its neighbours by their
byte offset from the block's start; `sentinel` ends the chain and `unallocated`
marks a free slot. An access outside the block or to uninitialised data is
undefined behaviour. The block grows without bound: running out of memory ends
the program and is not modelled.
-/

namespace PriorityLock

/-- The width of `usize` and the size of a node, which its alignment makes even. -/
structure NodeLayout where
  bits : ℕ
  nodeSize : ℕ
  two_le_bits : 2 ≤ bits
  nodeSize_pos : 0 < nodeSize
  nodeSize_even : 2 ∣ nodeSize

/-- `SENTINEL`: the link out of the last node. -/
def sentinel : ℕ := 1

/-- `UNALLOCATED`, which is `usize::MAX`: the link out of a free slot. -/
def NodeLayout.unallocated (N : NodeLayout) : ℕ := 2 ^ N.bits - 1

/-- A slot; `prev` is used by the dual-link node only. -/
structure ArenaNode (D : Type) where
  next : ℕ
  prev : ℕ
  data : Option D
  deriving DecidableEq, Repr

/-- The block `data` points to is `nodes`. -/
structure ArenaQueue (L : Link) (N : NodeLayout) (D : Type) where
  nodes : List (ArenaNode D)
  size : ℕ
  used : ℕ
  good : ℕ
  head : ℕ
  deriving DecidableEq, Repr

namespace ArenaQueue

variable {L : Link} {N : NodeLayout} {D : Type}

def default : ArenaQueue L N D := ⟨[], 0, 0, 0, sentinel⟩

def constDefault : ArenaQueue L N D := ⟨[], 0, 0, 0, 0⟩

def node (q : ArenaQueue L N D) (offset : ℕ) : Option (ArenaNode D) :=
  if offset % N.nodeSize = 0 then q.nodes[offset / N.nodeSize]? else none

def getNext (q : ArenaQueue L N D) (offset : ℕ) : Option ℕ :=
  (q.node offset).map ArenaNode.next

def getPrev (q : ArenaQueue L N D) (offset : ℕ) : Option ℕ :=
  (q.node offset).map ArenaNode.prev

def getData (q : ArenaQueue L N D) (offset : ℕ) : Option D :=
  (q.node offset).bind ArenaNode.data

def modifyNode (q : ArenaQueue L N D) (offset : ℕ) (f : ArenaNode D → ArenaNode D) :
    ArenaQueue L N D :=
  if offset % N.nodeSize = 0 then
    { q with nodes := q.nodes.modify (offset / N.nodeSize) f }
  else q

def setNext (q : ArenaQueue L N D) (offset val : ℕ) : Option (ArenaQueue L N D) :=
  (q.node offset).map fun _ => q.modifyNode offset fun n => { n with next := val }

/-- `set_prev` does nothing on a single-link node. -/
def setPrev (q : ArenaQueue L N D) (offset val : ℕ) : Option (ArenaQueue L N D) :=
  (q.node offset).map fun _ =>
    if L.hasPrev then q.modifyNode offset fun n => { n with prev := val } else q

def setData (q : ArenaQueue L N D) (offset : ℕ) (val : Option D) : Option (ArenaQueue L N D) :=
  (q.node offset).map fun _ => q.modifyNode offset fun n => { n with data := val }

/-- The reference or handle that a link word designates. -/
def linkRef (offset : ℕ) : Option Handle :=
  if offset ≠ sentinel then some offset else none

def expand (q : ArenaQueue L N D) : ArenaQueue L N D :=
  let oldSize := q.size
  let size := if q.size = 0 then 4 else q.size <<< 1
  { q with
    nodes := q.nodes ++ List.replicate (size - oldSize) ⟨N.unallocated, 0, none⟩
    size := size
    good := oldSize }

/-- `prev_for`: the single-link queue searches the slots. -/
def prevFor (q : ArenaQueue L N D) (offset : ℕ) : Option ℕ :=
  if L.hasPrev then q.getPrev offset
  else (q.nodes.findIdx? fun n => n.next = offset).map fun i => i * N.nodeSize

section Insertion

variable [Priority D]

/-- The probing loop of `emplace`. A slot is found within `size` probes or never, so
running out of fuel is the loop that does not end. -/
def emplaceLoop (q : ArenaQueue L N D) (data : D) :
    ℕ → ℕ → Option ℕ → Bool → Option (ℕ × Option ℕ × Bool)
  | 0, _, _, _ => none
  | fuel + 1, idx, prev, found => do
    let node ← q.nodes[idx]?
    if node.next = N.unallocated then
      pure (idx, prev, found)
    else
      let idx' := (idx + 1) &&& (q.size - 1)
      if found then
        emplaceLoop q data fuel idx' prev found
      else
        let nodeData ← node.data
        match Priority.compareNew data nodeData with
        | .gt => emplaceLoop q data fuel idx' prev false
        | .eq => emplaceLoop q data fuel idx' (some (idx * N.nodeSize)) true
        | .lt =>
          match prev with
          | none => emplaceLoop q data fuel idx' (some (idx * N.nodeSize)) false
          | some b =>
            let bData ← q.getData b
            if (Priority.compare nodeData bData).isGT then
              emplaceLoop q data fuel idx' (some (idx * N.nodeSize)) false
            else
              emplaceLoop q data fuel idx' prev false

/-- Write the data to a free slot; the result is the slot's offset, a node to place the
new one behind and whether that node is an equal one. -/
def emplace (q : ArenaQueue L N D) (data : D) :
    Option (ℕ × Option ℕ × Bool × ArenaQueue L N D) := do
  let (idx, prev, found) ← q.emplaceLoop data q.size q.good none false
  let q : ArenaQueue L N D := { q with good := (idx + 1) &&& (q.size - 1), used := q.used + 1 }
  let q ← q.setData (idx * N.nodeSize) (some data)
  pure (idx * N.nodeSize, prev, found, q)

def insertLoop (q : ArenaQueue L N D) (newData : D) (newOffset : ℕ) :
    ℕ → ℕ → Option (ℕ × ArenaQueue L N D)
  | 0, _ => none
  | fuel + 1, prev => do
    let nextOff ← q.getNext prev
    if nextOff = sentinel then
      pure (prev, q)
    else
      let nextData ← q.getData nextOff
      if (Priority.compareNew newData nextData).isGE then
        let q ← q.setPrev nextOff newOffset
        pure (prev, q)
      else
        insertLoop q newData newOffset fuel nextOff

def insertAfter (q : ArenaQueue L N D) (newData : D) (newOffset prev : ℕ) :
    Option (ArenaQueue L N D) := do
  let (prev, q) ← q.insertLoop newData newOffset (q.size + 1) prev
  let next ← q.getNext prev
  let q ← q.setNext newOffset next
  let q ← q.setPrev newOffset prev
  q.setNext prev newOffset

def insert (q : ArenaQueue L N D) (newOffset : ℕ) (after : Option ℕ) :
    Option (ArenaQueue L N D) := do
  let newData ← q.getData newOffset
  match after with
  | some prev => q.insertAfter newData newOffset prev
  | none =>
    if q.head = sentinel then
      let q : ArenaQueue L N D := { q with head := newOffset }
      let q ← q.setNext newOffset sentinel
      q.setPrev newOffset sentinel
    else
      let head := q.head
      let headData ← q.getData head
      if (Priority.compareNew newData headData).isGE then
        let q ← q.setNext newOffset head
        let q : ArenaQueue L N D := { q with head := newOffset }
        let q ← q.setPrev newOffset sentinel
        q.setPrev head newOffset
      else
        q.insertAfter newData newOffset head

def reposition (q : ArenaQueue L N D) (offset : ℕ) (prev next : Option ℕ) :
    Option (ArenaQueue L N D) := do
  let nodeNext ← q.getNext offset
  match prev with
  | some pr =>
    let q ← q.setNext pr nodeNext
    let q ← match next with
      | some nxt => do
        if L.hasPrev then
          let nodePrev ← q.getPrev offset
          q.setPrev nxt nodePrev
        else pure q
      | none => pure q
    q.insert offset none
  | none =>
    let q : ArenaQueue L N D := { q with head := nodeNext }
    let q ← match next with
      | some nxt => q.setPrev nxt sentinel
      | none => pure q
    q.insert offset (some q.head)

def enqueue (q : ArenaQueue L N D) (data : D) : Option (Handle × ArenaQueue L N D) := do
  let q : ArenaQueue L N D := if q.size = q.used then q.expand else q
  let (newOffset, biggestPrev, foundPrev, q) ← q.emplace data
  if foundPrev then
    let prev ← biggestPrev
    let exNext ← q.getNext prev
    let q ← q.setNext newOffset exNext
    let q ← q.setNext prev newOffset
    let q ← if exNext ≠ sentinel then q.setPrev exNext newOffset else pure q
    let q ← q.setPrev newOffset prev
    pure (newOffset, q)
  else
    let q ← q.insert newOffset biggestPrev
    pure (newOffset, q)

/-- The part of `update_node` that follows the closure. -/
def settle (q : ArenaQueue L N D) (handle : Handle) (data : D) : Option (ArenaQueue L N D) := do
  let nextOff ← q.getNext handle
  let maybePrev ← if handle ≠ q.head then (q.prevFor handle).map some else pure none
  let abovePrev ← match maybePrev with
    | some prev => do
      let prevData ← q.getData prev
      pure (Priority.compare data prevData).isGT
    | none => pure false
  if abovePrev then
    q.reposition handle maybePrev (linkRef nextOff)
  else if nextOff ≠ sentinel then
    let nextData ← q.getData nextOff
    if (Priority.compare data nextData).isLT then
      q.reposition handle maybePrev (some nextOff)
    else pure q
  else pure q

def updateNode (q : ArenaQueue L N D) (handle : Handle) (update : D → D × Bool) :
    Option (ArenaQueue L N D) := do
  let old ← q.getData handle
  let (data, changed) := update old
  let q ← q.setData handle (some data)
  if changed then q.settle handle data else pure q

end Insertion

def dequeue (q : ArenaQueue L N D) (handle : Handle) :
    Option ((Option D × Option Handle) × ArenaQueue L N D) := do
  let q : ArenaQueue L N D := { q with good := handle / N.nodeSize }
  let _ ← q.getData handle
  let q ← q.setData handle none
  let oldNext ← q.getNext handle
  let q ← q.setNext handle N.unallocated
  let q : ArenaQueue L N D := { q with used := q.used - 1 }
  let q ← if L.hasPrev && oldNext ≠ sentinel then do
      let oldPrev ← q.getPrev handle
      q.setPrev oldNext oldPrev
    else pure q
  if handle = q.head then
    pure ((none, linkRef oldNext), { q with head := oldNext })
  else
    let prev ← q.prevFor handle
    let q ← q.setNext prev oldNext
    let prevData ← q.getData prev
    pure ((some prevData, linkRef oldNext), q)

/-- The offsets of the nodes an iterator at `current` visits. A chain longer than the
number of slots never ends. -/
def iterLoop (q : ArenaQueue L N D) : ℕ → ℕ → Option (List Handle)
  | 0, _ => none
  | fuel + 1, current =>
    if current = sentinel then some []
    else do
      let _ ← q.getData current
      let next ← q.getNext current
      let rest ← iterLoop q fuel next
      pure (current :: rest)

def iterAt (q : ArenaQueue L N D) (after : Option Handle) : Option (List Handle) :=
  q.iterLoop (q.size + 1) (after.getD q.head)

/-- The first item of `iter`, whose `next` already refers to the second node. -/
def firstItem (q : ArenaQueue L N D) : Option (Option Handle) :=
  if q.head = sentinel then some none
  else do
    let _ ← q.getData q.head
    let next ← q.getNext q.head
    if next ≠ sentinel then do
      let _ ← q.node next
      pure (some q.head)
    else pure (some q.head)

instance [Priority D] : PriorityQueue (ArenaQueue L N D) D where
  default := default
  enqueue := enqueue
  dequeue := dequeue
  getByHandle := getData
  iterAt := iterAt
  isEmpty q := q.firstItem.map Option.isNone
  updateNode := updateNode
  head := firstItem
  headHandle q := some (linkRef q.head)
  getNextHandle q h := (q.getNext h).map linkRef
  store q h f := do
    let old ← q.getData h
    q.setData h (some (f old))

instance : ConstDefault (ArenaQueue L N D) := ⟨constDefault⟩

end ArenaQueue

abbrev SingleLinkArenaQueue (N : NodeLayout) (D : Type) := ArenaQueue .single N D

abbrev DualLinkArenaQueue (N : NodeLayout) (D : Type) := ArenaQueue .dual N D

end PriorityLock
