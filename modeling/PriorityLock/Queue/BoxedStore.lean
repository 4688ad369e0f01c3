import Mathlib.Data.List.Perm.Subperm
import PriorityLock.Queue.Boxed
import PriorityLock.Queue.Chained

/-! # Reading and writing boxes

The links and data of the boxes are functions of the address. A write to a box
that exists updates the one function it is about, and storing to a link frees
exactly the box that the link owned.
-/

namespace PriorityLock.BoxQueue

open Links Placement

variable {L : Link} {A : Allocator} {D : Type} {q q' : BoxQueue L A D} {l a b : List (Entry D)}
  {e p x : Entry D} {i j : Handle} {v : Option Handle} {d : D}

def Valid (q : BoxQueue L A D) (ptr : Handle) : Prop := (q.heap ptr).isSome

def nextAt (q : BoxQueue L A D) (ptr : Handle) : Option Handle := (q.heap ptr).bind BoxNode.next
def prevAt (q : BoxQueue L A D) (ptr : Handle) : Option Handle := (q.heap ptr).bind BoxNode.prev

theorem valid_of_getData (h : q.getData i = some d) : q.Valid i := by
  unfold getData at h
  unfold Valid
  cases hn : q.heap i <;> simp_all

theorem getNext_eq (h : q.Valid i) : q.getNext i = some (q.nextAt i) := by
  obtain ⟨n, hn⟩ := Option.isSome_iff_exists.mp h
  simp [getNext, nextAt, hn]

theorem getPrev_eq (h : q.Valid i) : q.getPrev i = some (q.prevAt i) := by
  obtain ⟨n, hn⟩ := Option.isSome_iff_exists.mp h
  simp [getPrev, prevAt, hn]

theorem setPrev_eq (h : q.Valid i) : q.setPrev i v = some (q.putPrev i v) := by
  obtain ⟨n, hn⟩ := Option.isSome_iff_exists.mp h
  simp [setPrev, hn]

theorem takeNext_eq (h : q.Valid i) : q.takeNext i = some (q.nextAt i, q.putNext i none) := by
  simp [takeNext, getNext_eq h]

section Views

variable {hd : Option Handle} {us : List Handle}

theorem heap_modifyNode {f : BoxNode D → BoxNode D} :
    (q.modifyNode i f).heap j = if j = i then (q.heap i).map f else q.heap j := by
  simp [modifyNode, Function.update_apply]

@[simp] theorem valid_modifyNode {f : BoxNode D → BoxNode D} :
    (q.modifyNode i f).Valid j ↔ q.Valid j := by
  unfold Valid
  rw [heap_modifyNode]
  split
  · next he => simp [he]
  · rfl

@[simp] theorem valid_putNext : (q.putNext i v).Valid j ↔ q.Valid j := valid_modifyNode
@[simp] theorem valid_putData : (q.putData i d).Valid j ↔ q.Valid j := valid_modifyNode

@[simp] theorem valid_putPrev : (q.putPrev i v).Valid j ↔ q.Valid j := by
  unfold putPrev
  split
  · exact valid_modifyNode
  · rfl

theorem nextAt_putNext (hi : q.Valid i) :
    (q.putNext i v).nextAt = Function.update q.nextAt i v := by
  obtain ⟨n, hn⟩ := Option.isSome_iff_exists.mp hi
  ext1 j
  simp only [nextAt, putNext, heap_modifyNode, Function.update_apply]
  split <;> simp [hn]

@[simp] theorem prevAt_putNext : (q.putNext i v).prevAt = q.prevAt := by
  ext1 j
  simp only [prevAt, putNext, heap_modifyNode]
  split
  · next he => subst he; cases q.heap j <;> rfl
  · rfl

@[simp] theorem getData_putNext : (q.putNext i v).getData = q.getData := by
  ext1 j
  simp only [getData, putNext, heap_modifyNode]
  split
  · next he => subst he; cases q.heap j <;> rfl
  · rfl

@[simp] theorem nextAt_putPrev : (q.putPrev i v).nextAt = q.nextAt := by
  ext1 j
  unfold putPrev
  split
  · simp only [nextAt, heap_modifyNode]
    split
    · next he => subst he; cases q.heap j <;> rfl
    · rfl
  · rfl

theorem prevAt_putPrev (hL : L.hasPrev = true) (hi : q.Valid i) :
    (q.putPrev i v).prevAt = Function.update q.prevAt i v := by
  obtain ⟨n, hn⟩ := Option.isSome_iff_exists.mp hi
  ext1 j
  simp only [prevAt, putPrev, hL, if_true, heap_modifyNode, Function.update_apply]
  split <;> simp [hn]

@[simp] theorem getData_putPrev : (q.putPrev i v).getData = q.getData := by
  ext1 j
  unfold putPrev
  split
  · simp only [getData, heap_modifyNode]
    split
    · next he => subst he; cases q.heap j <;> rfl
    · rfl
  · rfl

@[simp] theorem nextAt_putData : (q.putData i d).nextAt = q.nextAt := by
  ext1 j
  simp only [nextAt, putData, heap_modifyNode]
  split
  · next he => subst he; cases q.heap j <;> rfl
  · rfl

@[simp] theorem prevAt_putData : (q.putData i d).prevAt = q.prevAt := by
  ext1 j
  simp only [prevAt, putData, heap_modifyNode]
  split
  · next he => subst he; cases q.heap j <;> rfl
  · rfl

theorem getData_putData (hi : q.Valid i) :
    (q.putData i d).getData = Function.update q.getData i (some d) := by
  obtain ⟨n, hn⟩ := Option.isSome_iff_exists.mp hi
  ext1 j
  simp only [getData, putData, heap_modifyNode, Function.update_apply]
  split <;> simp [hn]

@[simp] theorem head_putPrev : (q.putPrev i v).head = q.head := by
  unfold putPrev; split <;> rfl

@[simp] theorem used_putPrev : (q.putPrev i v).used = q.used := by
  unfold putPrev; split <;> rfl

@[simp] theorem valid_mk : (⟨hd, q.heap, us⟩ : BoxQueue L A D).Valid i ↔ q.Valid i := Iff.rfl
@[simp] theorem nextAt_mk : (⟨hd, q.heap, us⟩ : BoxQueue L A D).nextAt = q.nextAt := rfl
@[simp] theorem prevAt_mk : (⟨hd, q.heap, us⟩ : BoxQueue L A D).prevAt = q.prevAt := rfl
@[simp] theorem getData_mk : (⟨hd, q.heap, us⟩ : BoxQueue L A D).getData = q.getData := rfl

end Views

abbrev Linked (q : BoxQueue L A D) (l : List (Entry D)) : Prop :=
  Chained some none (L.hasPrev = true) q.head q.nextAt q.prevAt q.getData l

/-- The representation invariant: the boxes in use are the queued ones. -/
structure WF (q : BoxQueue L A D) (l : List (Entry D)) : Prop extends Linked q l where
  used : ∀ i, i ∈ q.used ↔ i ∈ handles l
  live : ∀ i, q.Valid i ↔ i ∈ handles l

theorem Linked.valid (h : q.Linked l) (he : e ∈ l) : q.Valid e.handle :=
  valid_of_getData (h.data e he)

theorem WF.valid (h : q.WF l) (he : e ∈ l) : q.Valid e.handle :=
  Linked.valid h.toChained he

/-- What an operation on links leaves alone. -/
structure Frame (q q' : BoxQueue L A D) : Prop where
  used : q'.used = q.used
  valid : ∀ i, q'.Valid i ↔ q.Valid i
  data : q'.getData = q.getData

namespace Frame

variable {q₁ : BoxQueue L A D}

theorem refl (q : BoxQueue L A D) : Frame q q := ⟨rfl, fun _ => Iff.rfl, rfl⟩

theorem trans (h : Frame q q₁) (h' : Frame q₁ q') : Frame q q' :=
  ⟨h'.used.trans h.used, fun i => (h'.valid i).trans (h.valid i), h'.data.trans h.data⟩

theorem putNext : Frame q (q.putNext i v) := ⟨rfl, fun _ => valid_putNext, getData_putNext⟩
theorem putPrev : Frame q (q.putPrev i v) := ⟨used_putPrev, fun _ => valid_putPrev, getData_putPrev⟩
theorem head : Frame q { q with head := v } := ⟨rfl, fun _ => Iff.rfl, rfl⟩

end Frame

theorem WF.frame {l' : List (Entry D)} (h : q.WF l) (hf : Frame q q') (hl : q'.Linked l')
    (hp : (handles l').Perm (handles l)) : q'.WF l' where
  toChained := hl
  used i := by rw [hf.used, h.used, hp.mem_iff]
  live i := by rw [hf.valid, h.live, hp.mem_iff]

theorem length_le_used (hl : (handles l).Nodup) (hs : ∀ i ∈ handles l, i ∈ q.used) :
    l.length ≤ q.used.length := by
  simpa [handles] using (hl.subperm fun i hi => hs i hi).length_le

section Stores

def relinkBack (q : BoxQueue L A D) (next val : Option Handle) : BoxQueue L A D :=
  match next with
  | some nxt => q.putPrev nxt val
  | none => q

theorem linkBack_eq (hb : ∀ f ∈ b, q.Valid f.handle) :
    q.linkBack (first some (handles b) none) v =
      some (q.relinkBack (first some (handles b) none) v) := by
  cases b with
  | nil => rfl
  | cons f b => exact setPrev_eq (hb f (by simp))

@[simp] theorem nextAt_relinkBack {w : Option Handle} :
    (q.relinkBack v w).nextAt = q.nextAt := by
  cases v <;> simp [relinkBack]

@[simp] theorem getData_relinkBack {w : Option Handle} :
    (q.relinkBack v w).getData = q.getData := by
  cases v <;> simp [relinkBack]

@[simp] theorem head_relinkBack {w : Option Handle} : (q.relinkBack v w).head = q.head := by
  cases v <;> simp [relinkBack]

@[simp] theorem valid_relinkBack {w : Option Handle} :
    (q.relinkBack v w).Valid j ↔ q.Valid j := by
  cases v <;> simp [relinkBack]

theorem prevAt_relinkBack (hL : L.hasPrev = true) (hb : ∀ f ∈ b, q.Valid f.handle) :
    (q.relinkBack (first some (handles b) none) v).prevAt =
      relink q.prevAt (handles b).head? v := by
  cases b with
  | nil => rfl
  | cons f b => exact prevAt_putPrev hL (hb f (by simp))

theorem Frame.relinkBack {w : Option Handle} : Frame q (q.relinkBack v w) := by
  cases v
  · exact .refl q
  · exact .putPrev

theorem dropBox_none (fuel : ℕ) : q.dropBox fuel none = some q := by cases fuel <;> rfl

/-- Dropping a box that owns nothing frees it alone. -/
theorem dropBox_some (hv : q.Valid i) (hn : q.nextAt i = none) (hu : i ∈ q.used) :
    q.dropBox q.used.length (some i) = some (q.free i) := by
  obtain ⟨n, hlen⟩ : ∃ n, q.used.length = n + 1 :=
    Nat.exists_eq_succ_of_ne_zero (Nat.ne_of_gt (List.length_pos_of_mem hu))
  obtain ⟨node, hnode⟩ := Option.isSome_iff_exists.mp hv
  have hnext : node.next = none := by simpa [nextAt, hnode] using hn
  have hnone : (q.free i).dropChain n none = some ([], q.free i) := by cases n <;> rfl
  simp [hlen, dropBox, dropChain, hnode, hnext, hnone]

theorem storeNext_none (hv : q.Valid i) (hn : q.nextAt i = none) :
    q.storeNext i v = some (q.putNext i v) := by
  simp [storeNext, getNext_eq hv, hn, dropBox_none]

theorem storeHead_none (hh : q.head = none) : q.storeHead v = some { q with head := v } := by
  simp [storeHead, hh, dropBox_none]

theorem valid_free : (q.free i).Valid j ↔ j ≠ i ∧ q.Valid j := by
  unfold Valid free
  by_cases h : j = i <;> simp [h]

theorem nextAt_free (h : j ≠ i) : (q.free i).nextAt j = q.nextAt j := by
  simp [nextAt, free, h]

theorem prevAt_free (h : j ≠ i) : (q.free i).prevAt j = q.prevAt j := by
  simp [prevAt, free, h]

theorem getData_free (h : j ≠ i) : (q.free i).getData j = q.getData j := by
  simp [getData, free, h]

end Stores

end PriorityLock.BoxQueue
