import PriorityLock.Lists.Links
import PriorityLock.Queue.Arena

/-! # Reading and writing arena slots

The links and data of an arena are functions of the byte offset. A write to a
valid offset succeeds and updates the one function it is about.
-/

namespace PriorityLock.ArenaQueue

open Links

variable {L : Link} {N : NodeLayout} {D : Type} {q : ArenaQueue L N D} {o o' v : ℕ}

def Valid (q : ArenaQueue L N D) (offset : ℕ) : Prop := (q.node offset).isSome

def nextAt (q : ArenaQueue L N D) (offset : ℕ) : ℕ :=
  ((q.node offset).map ArenaNode.next).getD 0

def prevAt (q : ArenaQueue L N D) (offset : ℕ) : ℕ :=
  ((q.node offset).map ArenaNode.prev).getD 0

def putNext (q : ArenaQueue L N D) (offset val : ℕ) : ArenaQueue L N D :=
  q.modifyNode offset fun n => { n with next := val }

def putPrev (q : ArenaQueue L N D) (offset val : ℕ) : ArenaQueue L N D :=
  if L.hasPrev then q.modifyNode offset fun n => { n with prev := val } else q

def putData (q : ArenaQueue L N D) (offset : ℕ) (val : Option D) : ArenaQueue L N D :=
  q.modifyNode offset fun n => { n with data := val }

theorem node_modifyNode (f : ArenaNode D → ArenaNode D) :
    (q.modifyNode o f).node o' = if o' = o then (q.node o).map f else q.node o' := by
  unfold modifyNode node
  by_cases ho : o % N.nodeSize = 0
  · rcases eq_or_ne o' o with rfl | hne
    · simp [ho]
    · by_cases ho' : o' % N.nodeSize = 0
      · have hd : o / N.nodeSize ≠ o' / N.nodeSize := by
          intro he
          apply hne
          calc o' = N.nodeSize * (o' / N.nodeSize) :=
                (Nat.mul_div_cancel' (Nat.dvd_of_mod_eq_zero ho')).symm
            _ = o := by rw [← he]; exact Nat.mul_div_cancel' (Nat.dvd_of_mod_eq_zero ho)
        simp [ho, ho', hne, hd]
      · simp [ho', hne]
  · rcases eq_or_ne o' o with rfl | hne
    · simp [ho]
    · simp [ho, hne]

theorem valid_of_getData {d : D} (h : q.getData o = some d) : q.Valid o := by
  unfold getData at h
  unfold Valid
  cases hn : q.node o <;> simp_all

theorem getNext_eq (h : q.Valid o) : q.getNext o = some (q.nextAt o) := by
  unfold Valid at h
  unfold getNext nextAt
  obtain ⟨n, hn⟩ := Option.isSome_iff_exists.mp h
  simp [hn]

theorem getPrev_eq (h : q.Valid o) : q.getPrev o = some (q.prevAt o) := by
  unfold Valid at h
  unfold getPrev prevAt
  obtain ⟨n, hn⟩ := Option.isSome_iff_exists.mp h
  simp [hn]

theorem setNext_eq (h : q.Valid o) : q.setNext o v = some (q.putNext o v) := by
  obtain ⟨n, hn⟩ := Option.isSome_iff_exists.mp h
  simp [setNext, putNext, hn]

theorem setPrev_eq (h : q.Valid o) : q.setPrev o v = some (q.putPrev o v) := by
  obtain ⟨n, hn⟩ := Option.isSome_iff_exists.mp h
  simp [setPrev, putPrev, hn]

theorem setData_eq (h : q.Valid o) {d : Option D} : q.setData o d = some (q.putData o d) := by
  obtain ⟨n, hn⟩ := Option.isSome_iff_exists.mp h
  simp [setData, putData, hn]

section Views

variable {d : Option D} {nodes : List (ArenaNode D)} {s u g h : ℕ}

@[simp] theorem valid_modifyNode {f : ArenaNode D → ArenaNode D} :
    (q.modifyNode o f).Valid o' ↔ q.Valid o' := by
  unfold Valid
  rw [node_modifyNode]
  split
  · next he => simp [he]
  · rfl

@[simp] theorem valid_putNext : (q.putNext o v).Valid o' ↔ q.Valid o' := valid_modifyNode
@[simp] theorem valid_putData : (q.putData o d).Valid o' ↔ q.Valid o' := valid_modifyNode

@[simp] theorem valid_putPrev : (q.putPrev o v).Valid o' ↔ q.Valid o' := by
  unfold putPrev
  split
  · exact valid_modifyNode
  · rfl

@[simp] theorem nextAt_putNext (ho : q.Valid o) :
    (q.putNext o v).nextAt = Function.update q.nextAt o v := by
  obtain ⟨n, hn⟩ := Option.isSome_iff_exists.mp ho
  funext o'
  simp only [nextAt, putNext, node_modifyNode, Function.update_apply]
  split <;> simp [hn]

@[simp] theorem prevAt_putNext : (q.putNext o v).prevAt = q.prevAt := by
  funext o'
  simp only [prevAt, putNext, node_modifyNode]
  split
  · next he => subst he; cases q.node o' <;> rfl
  · rfl

@[simp] theorem getData_putNext : (q.putNext o v).getData = q.getData := by
  funext o'
  simp only [getData, putNext, node_modifyNode]
  split
  · next he => subst he; cases q.node o' <;> rfl
  · rfl

@[simp] theorem nextAt_putPrev : (q.putPrev o v).nextAt = q.nextAt := by
  funext o'
  unfold putPrev
  split
  · simp only [nextAt, node_modifyNode]
    split
    · next he => subst he; cases q.node o' <;> rfl
    · rfl
  · rfl

theorem prevAt_putPrev (hL : L.hasPrev = true) (ho : q.Valid o) :
    (q.putPrev o v).prevAt = Function.update q.prevAt o v := by
  obtain ⟨n, hn⟩ := Option.isSome_iff_exists.mp ho
  funext o'
  simp only [prevAt, putPrev, hL, if_true, node_modifyNode, Function.update_apply]
  split <;> simp [hn]

@[simp] theorem getData_putPrev : (q.putPrev o v).getData = q.getData := by
  funext o'
  unfold putPrev
  split
  · simp only [getData, node_modifyNode]
    split
    · next he => subst he; cases q.node o' <;> rfl
    · rfl
  · rfl

@[simp] theorem nextAt_putData : (q.putData o d).nextAt = q.nextAt := by
  funext o'
  simp only [nextAt, putData, node_modifyNode]
  split
  · next he => subst he; cases q.node o' <;> rfl
  · rfl

@[simp] theorem prevAt_putData : (q.putData o d).prevAt = q.prevAt := by
  funext o'
  simp only [prevAt, putData, node_modifyNode]
  split
  · next he => subst he; cases q.node o' <;> rfl
  · rfl

@[simp] theorem getData_putData (ho : q.Valid o) :
    (q.putData o d).getData = Function.update q.getData o d := by
  obtain ⟨n, hn⟩ := Option.isSome_iff_exists.mp ho
  funext o'
  simp only [getData, putData, node_modifyNode, Function.update_apply]
  split <;> simp [hn]

@[simp] theorem head_modifyNode {f : ArenaNode D → ArenaNode D} :
    (q.modifyNode o f).head = q.head := by
  unfold modifyNode; split <;> rfl

@[simp] theorem size_modifyNode {f : ArenaNode D → ArenaNode D} :
    (q.modifyNode o f).size = q.size := by
  unfold modifyNode; split <;> rfl

@[simp] theorem used_modifyNode {f : ArenaNode D → ArenaNode D} :
    (q.modifyNode o f).used = q.used := by
  unfold modifyNode; split <;> rfl

@[simp] theorem good_modifyNode {f : ArenaNode D → ArenaNode D} :
    (q.modifyNode o f).good = q.good := by
  unfold modifyNode; split <;> rfl

@[simp] theorem length_modifyNode {f : ArenaNode D → ArenaNode D} :
    (q.modifyNode o f).nodes.length = q.nodes.length := by
  unfold modifyNode; split <;> simp

@[simp] theorem head_putNext : (q.putNext o v).head = q.head := head_modifyNode
@[simp] theorem head_putData : (q.putData o d).head = q.head := head_modifyNode

@[simp] theorem head_putPrev : (q.putPrev o v).head = q.head := by
  unfold putPrev; split <;> simp

@[simp] theorem valid_mk : (⟨q.nodes, s, u, g, h⟩ : ArenaQueue L N D).Valid o ↔ q.Valid o :=
  Iff.rfl

@[simp] theorem nextAt_mk : (⟨q.nodes, s, u, g, h⟩ : ArenaQueue L N D).nextAt = q.nextAt := rfl
@[simp] theorem prevAt_mk : (⟨q.nodes, s, u, g, h⟩ : ArenaQueue L N D).prevAt = q.prevAt := rfl
@[simp] theorem getData_mk : (⟨q.nodes, s, u, g, h⟩ : ArenaQueue L N D).getData = q.getData := rfl

end Views

theorem Valid.two_dvd (h : q.Valid o) : 2 ∣ o := by
  unfold Valid node at h
  split at h
  · next he => exact Nat.dvd_trans N.nodeSize_even (Nat.dvd_of_mod_eq_zero he)
  · simp at h

/-- Offsets are even, the two marks are odd. -/
theorem Valid.ne_sentinel (h : q.Valid o) : o ≠ sentinel := by
  have := h.two_dvd
  unfold sentinel
  omega

theorem unallocated_odd (N : NodeLayout) : ¬ 2 ∣ N.unallocated := by
  obtain ⟨k, hk⟩ : ∃ k, N.bits = k + 1 := ⟨N.bits - 1, by have := N.two_le_bits; omega⟩
  have hp : 0 < 2 ^ k := Nat.two_pow_pos k
  unfold NodeLayout.unallocated
  rw [hk, Nat.pow_succ]
  omega

theorem Valid.ne_unallocated (h : q.Valid o) : o ≠ N.unallocated := by
  rintro rfl
  exact unallocated_odd N h.two_dvd

theorem sentinel_ne_unallocated (N : NodeLayout) : sentinel ≠ N.unallocated := by
  have hp : 2 ^ 2 ≤ 2 ^ N.bits := Nat.pow_le_pow_right (by omega) N.two_le_bits
  unfold sentinel NodeLayout.unallocated
  omega

/-- What an operation on links leaves alone: the counters, the data and the forward links
of the slots outside `S`. -/
structure Frame (q q' : ArenaQueue L N D) (S : List ℕ) : Prop where
  length : q'.nodes.length = q.nodes.length
  size : q'.size = q.size
  used : q'.used = q.used
  good : q'.good = q.good
  valid : ∀ o, q'.Valid o ↔ q.Valid o
  data : q'.getData = q.getData
  next : ∀ o, o ∉ S → q'.nextAt o = q.nextAt o

namespace Frame

variable {q₁ q₂ : ArenaQueue L N D} {S : List ℕ}

theorem refl (q : ArenaQueue L N D) (S : List ℕ) : Frame q q S :=
  ⟨rfl, rfl, rfl, rfl, fun _ => Iff.rfl, rfl, fun _ _ => rfl⟩

theorem trans (h : Frame q q₁ S) (h' : Frame q₁ q₂ S) : Frame q q₂ S where
  length := h'.length.trans h.length
  size := h'.size.trans h.size
  used := h'.used.trans h.used
  good := h'.good.trans h.good
  valid o := (h'.valid o).trans (h.valid o)
  data := h'.data.trans h.data
  next o ho := (h'.next o ho).trans (h.next o ho)

theorem putNext (ho : q.Valid o) (hS : o ∈ S) : Frame q (q.putNext o v) S where
  length := length_modifyNode
  size := size_modifyNode
  used := used_modifyNode
  good := good_modifyNode
  valid _ := valid_putNext
  data := getData_putNext
  next o' ho' := by
    rw [nextAt_putNext ho]
    have hne : o' ≠ o := by rintro rfl; exact ho' hS
    exact Function.update_of_ne hne _ _

theorem putPrev : Frame q (q.putPrev o v) S where
  length := by unfold ArenaQueue.putPrev; split <;> simp
  size := by unfold ArenaQueue.putPrev; split <;> simp
  used := by unfold ArenaQueue.putPrev; split <;> simp
  good := by unfold ArenaQueue.putPrev; split <;> simp
  valid _ := valid_putPrev
  data := getData_putPrev
  next _ _ := by rw [nextAt_putPrev]

theorem head {w : ℕ} : Frame q { q with head := w } S :=
  ⟨rfl, rfl, rfl, rfl, fun _ => Iff.rfl, rfl, fun _ _ => rfl⟩

end Frame

end PriorityLock.ArenaQueue
