import PriorityLock.Queue.Correctness

/-! # The arena by slots

What an arena queue computes, seen without its links, its node size and its
node type: the entries by slot and in order, the number of slots and the slot to
try first. Every arena refines it, whatever its comparisons answer.
-/

namespace PriorityLock

open ArenaQueue Placement Transition

/-- The handle of an entry is its slot. -/
structure SlotQueue (D : Type) where
  size : ℕ
  good : ℕ
  entries : List (Entry D)

def splitOn {D : Type} (l : List (Entry D)) (h : Handle) :
    Option (List (Entry D) × Entry D × List (Entry D)) :=
  match l with
  | [] => none
  | e :: l =>
    if e.handle = h then some ([], e, l)
    else (splitOn l h).map fun (a, f, b) => (e :: a, f, b)

namespace SlotQueue

variable {D : Type}

def grown (s : SlotQueue D) : SlotQueue D :=
  if s.size = s.entries.length then
    { s with size := if s.size = 0 then 4 else s.size <<< 1, good := s.size }
  else s

section Probe

variable [Priority D]

/-- The first free slot from one on, and the hint that the entries on the way give. -/
def probe (s : SlotQueue D) (data : D) :
    ℕ → ℕ → Option ℕ → Bool → Option (ℕ × Option ℕ × Bool)
  | 0, _, _, _ => none
  | fuel + 1, i, prev, found =>
    let i' := (i + 1) &&& (s.size - 1)
    match lookup s.entries i with
    | none => some (i, prev, found)
    | some e =>
      if found then probe s data fuel i' prev true
      else match Priority.compareNew data e.data with
        | .gt => probe s data fuel i' prev false
        | .eq => probe s data fuel i' (some i) true
        | .lt => match prev.bind (lookup s.entries) with
          | none => probe s data fuel i' (some i) false
          | some b =>
            if (Priority.compare e.data b.data).isGT then probe s data fuel i' (some i) false
            else probe s data fuel i' prev false

def enqueue (s : SlotQueue D) (data : D) : Option (Handle × SlotQueue D) :=
  (s.grown.probe data s.grown.size s.grown.good none false).map fun (i, prev, found) =>
    (i, ⟨s.grown.size, (i + 1) &&& (s.grown.size - 1), placeAt ⟨i, data⟩ prev found s.entries⟩)

def dequeue (s : SlotQueue D) (slot : Handle) :
    Option ((Option D × Option Handle) × SlotQueue D) :=
  (splitOn s.entries slot).map fun (a, _, b) =>
    ((a.getLast?.map Entry.data, b.head?.map Entry.handle), ⟨s.size, slot, a ++ b⟩)

def updateNode (s : SlotQueue D) (slot : Handle) (update : D → D × Bool) : Option (SlotQueue D) :=
  (splitOn s.entries slot).map fun (a, e, b) =>
    let x : Entry D := ⟨slot, (update e.data).1⟩
    { s with entries := if (update e.data).2 then resettled x a b else a ++ x :: b }

instance : PriorityQueue (SlotQueue D) D where
  default := ⟨0, 0, []⟩
  enqueue := enqueue
  dequeue := dequeue
  getByHandle s slot := (splitOn s.entries slot).map fun (_, e, _) => e.data
  iterAt s
    | none => some (handles s.entries)
    | some slot => (splitOn s.entries slot).map fun (_, e, b) => handles (e :: b)
  isEmpty s := some s.entries.isEmpty
  updateNode := updateNode
  head s := some (s.entries.head?.map Entry.handle)
  headHandle s := some (s.entries.head?.map Entry.handle)
  getNextHandle s slot := (splitOn s.entries slot).map fun (_, _, b) => b.head?.map Entry.handle
  store s slot f := (splitOn s.entries slot).map fun (a, e, b) =>
    { s with entries := a ++ ⟨slot, f e.data⟩ :: b }

end Probe

end SlotQueue

section Split

variable {D : Type} {e : Entry D} {a b l : List (Entry D)}

theorem splitOn_middle (hn : (handles (a ++ e :: b)).Nodup) :
    splitOn (a ++ e :: b) e.handle = some (a, e, b) := by
  induction a with
  | nil => simp [splitOn]
  | cons f a ih =>
    have hfe : f.handle ≠ e.handle := fun he => by simp [he] at hn
    have hr := ih (List.nodup_cons.mp hn).2
    simp [splitOn, hfe, hr]

end Split

/-- The entry of a slot queue with its byte offset in the block. -/
def Entry.byte {D : Type} (N : NodeLayout) (e : Entry D) : Entry D :=
  ⟨e.handle * N.nodeSize, e.data⟩

section Offsets

variable {N : NodeLayout} {D : Type} {l : List (Entry D)} {e x : Entry D} {i : ℕ}

theorem handles_byte : handles (l.map (Entry.byte N)) = (handles l).map (· * N.nodeSize) := by
  simp [handles, Entry.byte, Function.comp_def]

theorem mem_handles_byte : i * N.nodeSize ∈ handles (l.map (Entry.byte N)) ↔ i ∈ handles l := by
  rw [handles_byte, List.mem_map]
  constructor
  · rintro ⟨j, hj, he⟩
    exact mul_nodeSize_inj.mp he ▸ hj
  · exact fun hi => ⟨i, hi, rfl⟩

theorem byte_injective : Function.Injective (Entry.byte (D := D) N) := by
  rintro ⟨i, d⟩ ⟨j, d'⟩ he
  obtain ⟨hi, hd⟩ := Entry.mk.inj he
  exact congrArg₂ Entry.mk (mul_nodeSize_inj.mp hi) hd

theorem nodup_byte (hn : (handles (l.map (Entry.byte N))).Nodup) : (handles l).Nodup := by
  rw [handles_byte] at hn
  exact List.Nodup.of_map _ hn

theorem lookup_byte : lookup (l.map (Entry.byte N)) (i * N.nodeSize) =
    (lookup l i).map (Entry.byte N) := by
  have hp : ((fun f : Entry D => decide (f.handle = i * N.nodeSize)) ∘ Entry.byte N) =
      fun f => decide (f.handle = i) := by
    ext1 f
    simp [Entry.byte, N.nodeSize_pos.ne']
  rw [lookup, List.find?_map, hp]
  rfl

theorem without_byte : without (l.map (Entry.byte N)) (i * N.nodeSize) =
    (without l i).map (Entry.byte N) := by
  have hp : ((fun f : Entry D => decide (f.handle ≠ i * N.nodeSize)) ∘ Entry.byte N) =
      fun f => decide (f.handle ≠ i) := by
    ext1 f
    simp [Entry.byte, N.nodeSize_pos.ne']
  rw [without, List.filter_map, hp]
  rfl

variable [Priority D]

theorem scan_byte : scan Priority.compareNew (x.byte N) (l.map (Entry.byte N)) =
    (scan Priority.compareNew x l).map (Entry.byte N) :=
  (map_scan l).symm

theorem placeAt_byte (x : Entry D) (prev : Option ℕ) (found : Bool) (l : List (Entry D)) :
    placeAt (x.byte N) (prev.map (· * N.nodeSize)) found (l.map (Entry.byte N)) =
      (placeAt x prev found l).map (Entry.byte N) := by
  cases prev with
  | none => exact scan_byte
  | some p =>
    change placeBehind _ _ _ _ = (placeBehind _ _ _ _).map _
    induction l with
    | nil => rfl
    | cons e l ih =>
      by_cases he : e.handle = p
      · have he' : (e.byte N).handle = p * N.nodeSize := congrArg (· * N.nodeSize) he
        simp only [List.map_cons, placeBehind, if_pos he, if_pos he', scan_byte]
        split <;> rfl
      · have he' : (e.byte N).handle ≠ p * N.nodeSize := fun h => he (mul_nodeSize_inj.mp h)
        simp only [List.map_cons, placeBehind, if_neg he, if_neg he', ih]

theorem resettled_byte {a b : List (Entry D)} :
    resettled (x.byte N) (a.map (Entry.byte N)) (b.map (Entry.byte N)) =
      (resettled x a b).map (Entry.byte N) := by
  have hacc : Accepted Priority.compare (x.byte N) (a.map (Entry.byte N)) (b.map (Entry.byte N)) ↔
      Accepted Priority.compare x a b := accepted_map a b
  simp only [resettled, hacc]
  split
  · simp
  · cases a with
    | nil =>
      cases b with
      | nil => rfl
      | cons f b => exact congrArg (_ :: ·) scan_byte
    | cons e a =>
      have hs := scan_byte (N := N) (x := x) (l := e :: a ++ b)
      rwa [List.map_append] at hs

end Offsets

end PriorityLock
