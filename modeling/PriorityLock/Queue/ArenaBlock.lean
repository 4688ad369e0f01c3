import Mathlib.Data.Nat.Bitwise
import PriorityLock.Queue.ArenaLinks

/-! # The arena's block of slots

Every slot outside the chain is marked free and holds no datum, and the counters
describe the block. Growing keeps this, and the probe of `emplace` finds a free slot within
one round; the hint it returns is a queued entry above the new one or tied with
it.
-/

namespace PriorityLock.ArenaQueue

open Links

variable {L : Link} {N : NodeLayout} {D : Type} {q q' : ArenaQueue L N D}
  {l : List (Entry D)} {S S' : List ℕ} {o i : ℕ} {d : D}

/-- The slots in use are those at the offsets `S`. -/
structure Block (q : ArenaQueue L N D) (S : List ℕ) : Prop where
  length : q.nodes.length = q.size
  size : q.size = 0 ∨ ∃ k, 2 ≤ k ∧ q.size = 2 ^ k
  used : q.used = S.length
  good : 0 < q.size → q.good < q.size
  free : ∀ o, q.Valid o → o ∉ S → q.nextAt o = N.unallocated
  vacant : ∀ o, o ∉ S → q.getData o = none

/-- The representation invariant of an arena queue. -/
structure WF (q : ArenaQueue L N D) (l : List (Entry D)) : Prop extends
  Linked q l, Block q (handles l)

theorem WF.valid (h : q.WF l) {e : Entry D} (he : e ∈ l) : q.Valid e.handle :=
  Linked.valid h.toChained he

theorem WF.length_le (h : q.WF l) : l.length ≤ q.size :=
  h.length ▸ Linked.length_le h.toChained

theorem node_mul (i : ℕ) : q.node (i * N.nodeSize) = q.nodes[i]? := by
  simp [node, Nat.mul_div_cancel _ N.nodeSize_pos]

theorem valid_mul : q.Valid (i * N.nodeSize) ↔ i < q.nodes.length := by
  simp [Valid, node_mul]

theorem Valid.exists_slot (h : q.Valid o) : ∃ i < q.nodes.length, o = i * N.nodeSize := by
  have ho := h
  unfold Valid node at h
  split at h
  · next he =>
    have hi : o = o / N.nodeSize * N.nodeSize :=
      (Nat.div_mul_cancel (Nat.dvd_of_mod_eq_zero he)).symm
    rw [hi] at ho
    exact ⟨_, valid_mul.mp ho, hi⟩
  · simp at h

theorem mul_nodeSize_inj {N : NodeLayout} {i j : ℕ} :
    i * N.nodeSize = j * N.nodeSize ↔ i = j :=
  Nat.mul_left_inj N.nodeSize_pos.ne'

namespace Block

theorem perm (h : q.Block S) (hp : S'.Perm S) : q.Block S' where
  length := h.length
  size := h.size
  used := h.used.trans hp.length_eq.symm
  good := h.good
  free o ho hS := h.free o ho fun hm => hS (hp.mem_iff.mpr hm)
  vacant o hS := h.vacant o fun hm => hS (hp.mem_iff.mpr hm)

theorem frame (h : q.Block S) (hf : Frame q q' S) : q'.Block S where
  length := by rw [hf.length, hf.size]; exact h.length
  size := by rw [hf.size]; exact h.size
  used := hf.used.trans h.used
  good := by rw [hf.size, hf.good]; exact h.good
  free o ho hS := (hf.next o hS).trans (h.free o ((hf.valid o).mp ho) hS)
  vacant o hS := (congrFun hf.data o).trans (h.vacant o hS)

theorem two_le_size (h : q.Block S) (hs : q.size ≠ 0) : ∃ k, 2 ≤ k ∧ q.size = 2 ^ k :=
  h.size.resolve_left hs

theorem mask (h : q.Block S) (hs : q.size ≠ 0) (i : ℕ) : i &&& (q.size - 1) = i % q.size := by
  obtain ⟨k, -, hk⟩ := h.two_le_size hs
  rw [hk, Nat.and_two_pow_sub_one_eq_mod]

theorem exists_free (h : q.Block S) (hlt : q.used < q.size) :
    ∃ i < q.size, i * N.nodeSize ∉ S := by
  by_contra! hc
  have hnd : ((List.range q.size).map (· * N.nodeSize)).Nodup :=
    List.nodup_range.map fun _ _ => mul_nodeSize_inj.mp
  have hsub : (List.range q.size).map (· * N.nodeSize) ⊆ S := by
    intro o ho
    obtain ⟨i, hi, rfl⟩ := List.mem_map.mp ho
    exact hc i (List.mem_range.mp hi)
  have hle := (hnd.subperm hsub).length_le
  rw [List.length_map, List.length_range, ← h.used] at hle
  omega

end Block

namespace WF

variable {a b : List (Entry D)} {e p : Entry D}

theorem free_iff (h : q.WF l) (ho : q.Valid o) : q.nextAt o = N.unallocated ↔ o ∉ handles l := by
  constructor
  · intro hn hm
    rcases h.chain.follows.next_mem hm with he | ⟨j, hj, he⟩
    · exact sentinel_ne_unallocated N (he.symm.trans hn)
    · obtain ⟨e, hel, rfl⟩ := List.mem_map.mp hj
      exact (h.valid hel).ne_unallocated (he.symm.trans hn)
  · exact h.free o ho

/-- Only the link of the node before an entry refers to it. -/
theorem eq_of_next_eq (h : q.WF (a ++ p :: e :: b)) (ho : q.Valid o)
    (hn : q.nextAt o = e.handle) : o = p.handle := by
  have he : q.Valid e.handle := h.valid (by simp)
  have hm : o ∈ handles (a ++ p :: e :: b) := by
    by_contra hm
    exact he.ne_unallocated (hn.symm.trans (h.free o ho hm))
  have hs : handles (a ++ p :: e :: b) = handles (a ++ [p]) ++ e.handle :: handles b := by simp
  have hl := Follows.eq_of_next_eq Function.injective_id (hs ▸ h.nodup) (hs ▸ h.chain.follows)
    he.ne_sentinel (hs ▸ hm) hn
  simpa using hl.symm

theorem frame {l' : List (Entry D)} (h : q.WF l) (hf : Frame q q' (handles l))
    (hl : q'.Linked l') (hp : (handles l').Perm (handles l)) : q'.WF l' :=
  ⟨hl, (h.toBlock.frame hf).perm hp⟩

theorem default : (ArenaQueue.default : ArenaQueue L N D).WF [] where
  chain := .empty
  data := by simp
  length := rfl
  size := Or.inl rfl
  used := rfl
  good h := absurd h (by simp [ArenaQueue.default])
  free o ho := by simp [Valid, node, ArenaQueue.default] at ho
  vacant o _ := by simp [getData, node, ArenaQueue.default]

end WF

section Expand

theorem size_expand (h : q.size = 0 ∨ ∃ k, 2 ≤ k ∧ q.size = 2 ^ k) :
    (∃ k, 2 ≤ k ∧ q.expand.size = 2 ^ k) ∧ q.size < q.expand.size := by
  rcases h with h | ⟨k, hk, h⟩
  · simp only [expand, h, if_true]
    exact ⟨⟨2, by omega, rfl⟩, by omega⟩
  · have hp : 0 < 2 ^ k := Nat.two_pow_pos k
    have hs : q.expand.size = 2 ^ (k + 1) := by
      simp only [expand, h, hp.ne', if_false, Nat.shiftLeft_eq, Nat.pow_succ, Nat.pow_zero]
    constructor
    · exact ⟨k + 1, by omega, hs⟩
    · rw [hs, h, Nat.pow_succ]
      omega

theorem node_expand_of_valid (h : q.Valid o) : q.expand.node o = q.node o := by
  obtain ⟨i, hi, rfl⟩ := h.exists_slot
  rw [node_mul, node_mul]
  exact List.getElem?_append_left hi

theorem nextAt_expand (hlen : q.nodes.length = q.size) (ho : q.expand.Valid o)
    (h : ¬ q.Valid o) : q.expand.nextAt o = N.unallocated := by
  obtain ⟨i, hi, rfl⟩ := ho.exists_slot
  rw [valid_mul] at h
  simp only [nextAt, node_mul]
  simp only [expand, List.length_append, List.length_replicate] at hi ⊢
  rw [List.getElem?_append_right (by omega), List.getElem?_replicate]
  rw [if_pos (by omega)]
  rfl

theorem getData_expand (h : ¬ q.Valid o) : q.expand.getData o = none := by
  by_cases ho : q.expand.Valid o
  · obtain ⟨i, hi, rfl⟩ := ho.exists_slot
    rw [valid_mul] at h
    simp only [getData, node_mul]
    simp only [expand, List.length_append, List.length_replicate] at hi ⊢
    rw [List.getElem?_append_right (by omega), List.getElem?_replicate]
    rw [if_pos (by omega)]
    rfl
  · rw [getData, Option.not_isSome_iff_eq_none.mp ho]
    rfl

theorem WF.expand (h : q.WF l) (hfull : q.size = q.used) :
    q.expand.WF l ∧ q.expand.used < q.expand.size := by
  obtain ⟨hsize, hlt⟩ := size_expand h.size
  have hv : ∀ o ∈ handles l, q.Valid o := by
    intro o ho
    obtain ⟨e, he, rfl⟩ := List.mem_map.mp ho
    exact h.valid he
  refine ⟨⟨⟨h.chain.congr ?_ ?_, ?_⟩, ?_⟩, ?_⟩
  · intro o ho
    simp only [nextAt, node_expand_of_valid (hv o ho)]
  · intro _ o ho
    simp only [prevAt, node_expand_of_valid (hv o ho)]
  · intro e he
    rw [← h.data e he]
    simp only [getData, node_expand_of_valid (h.valid he)]
  · refine ⟨?_, Or.inr hsize, h.used, fun _ => hlt, ?_, ?_⟩
    · have hl := h.length
      simp only [ArenaQueue.expand, List.length_append, List.length_replicate] at hlt ⊢
      omega
    · intro o ho hm
      by_cases hq : q.Valid o
      · rw [← h.free o hq hm]
        simp only [nextAt, node_expand_of_valid hq]
      · exact nextAt_expand h.length ho hq
    · intro o hm
      by_cases hq : q.Valid o
      · rw [← h.vacant o hm]
        simp only [getData, node_expand_of_valid hq]
      · exact getData_expand hq
  · calc q.expand.used = q.size := hfull.symm
      _ < q.expand.size := hlt

def grown (q : ArenaQueue L N D) : ArenaQueue L N D := if q.size = q.used then q.expand else q

theorem WF.grown (h : q.WF l) : q.grown.WF l ∧ q.grown.used < q.grown.size := by
  unfold ArenaQueue.grown
  split
  · next hfull => exact h.expand hfull
  · next hroom =>
    have hle := h.length_le
    have hu := h.used
    simp only [handles, List.length_map] at hu
    exact ⟨h, by omega⟩

end Expand

section Emplace

variable [Priority D] {prev : Option ℕ} {found : Bool}

/-- A hint is a queued entry that the new one is tied with, if `found`, or below. -/
def Hint (l : List (Entry D)) (d : D) : Option ℕ → Bool → Prop
  | none, found => found = false
  | some p, found => ∃ e ∈ l, e.handle = p ∧
      Priority.compareNew d e.data = if found then .eq else .lt

/-- The probe ends at a free slot that lies `j` slots ahead, or before. -/
theorem emplaceLoop_spec (h : q.WF l) (hs : q.size ≠ 0) : ∀ {j fuel : ℕ}, j < fuel →
    i < q.size → (i + j) % q.size * N.nodeSize ∉ handles l → Hint l d prev found →
    ∃ i' prev' found', q.emplaceLoop d fuel i prev found = some (i', prev', found') ∧
      i' < q.size ∧ i' * N.nodeSize ∉ handles l ∧ Hint l d prev' found' := by
  intro j fuel
  induction fuel generalizing i j prev found with
  | zero => intro hj; omega
  | succ fuel ih =>
    intro hj hi hfree hhint
    have hv : q.Valid (i * N.nodeSize) := valid_mul.mpr (by rw [h.length]; exact hi)
    obtain ⟨n, hn⟩ := Option.isSome_iff_exists.mp hv
    have hnext : q.nextAt (i * N.nodeSize) = n.next := by simp [nextAt, hn]
    rw [node_mul] at hn
    by_cases hun : n.next = N.unallocated
    · refine ⟨i, prev, found, by simp [emplaceLoop, hn, hun], hi, ?_, hhint⟩
      exact (h.free_iff hv).mp (hnext.trans hun)
    · have hlive : i * N.nodeSize ∈ handles l := by
        by_contra hm
        exact hun (hnext.symm.trans ((h.free_iff hv).mpr hm))
      -- the slot in use is not the free one ahead, so that one is now a slot closer
      have hj0 : j ≠ 0 := by
        rintro rfl
        rw [Nat.add_zero, Nat.mod_eq_of_lt hi] at hfree
        exact hfree hlive
      have hstep : ((i + 1) % q.size + (j - 1)) % q.size = (i + j) % q.size := by
        rw [Nat.mod_add_mod, show i + 1 + (j - 1) = i + j by omega]
      have hrec : ∀ {prev' : Option ℕ} {found' : Bool}, Hint l d prev' found' →
          ∃ i' p' f', q.emplaceLoop d fuel ((i + 1) &&& (q.size - 1)) prev' found' =
            some (i', p', f') ∧ i' < q.size ∧ i' * N.nodeSize ∉ handles l ∧ Hint l d p' f' := by
        intro prev' found' hh
        rw [h.mask hs]
        exact ih (j := j - 1) (by omega) (Nat.mod_lt _ (by omega)) (hstep ▸ hfree) hh
      obtain ⟨e, he, heo⟩ := List.mem_map.mp hlive
      have hdata : n.data = some e.data := by
        have hd := h.data e he
        rw [heo] at hd
        simpa [getData, node_mul, hn] using hd
      cases hf : found with
      | true => simpa [emplaceLoop, hn, hun] using hrec (hf ▸ hhint)
      | false =>
        subst hf
        cases hc : Priority.compareNew d e.data with
        | gt => simpa [emplaceLoop, hn, hun, hdata, hc] using hrec hhint
        | eq =>
          have hh : Hint l d (some (i * N.nodeSize)) true := ⟨e, he, heo, by simp [hc]⟩
          simpa [emplaceLoop, hn, hun, hdata, hc] using hrec hh
        | lt =>
          have hh : Hint l d (some (i * N.nodeSize)) false := ⟨e, he, heo, by simp [hc]⟩
          cases prev with
          | none => simpa [emplaceLoop, hn, hun, hdata, hc] using hrec hh
          | some p =>
            obtain ⟨f, hfl, hfp, -⟩ := id hhint
            have hpd : q.getData p = some f.data := hfp ▸ h.data f hfl
            by_cases hg : Priority.compare e.data f.data = .gt
            · simpa [emplaceLoop, hn, hun, hdata, hc, hpd, hg] using hrec hh
            · simpa [emplaceLoop, hn, hun, hdata, hc, hpd, hg] using hrec hhint

/-- With a slot to spare, the probe of `emplace` ends within one round. -/
theorem emplaceLoop_free (h : q.WF l) (hlt : q.used < q.size) (d : D) : ∃ i prev found,
    q.emplaceLoop d q.size q.good none false = some (i, prev, found) ∧ i < q.size ∧
      i * N.nodeSize ∉ handles l ∧ Hint l d prev found := by
  have hs : q.size ≠ 0 := by omega
  have hgood : q.good < q.size := h.good (by omega)
  obtain ⟨i, hi, hfree⟩ := h.exists_free hlt
  have hahead : (q.good + (i + q.size - q.good) % q.size) % q.size = i := by
    rw [Nat.add_mod_mod, show q.good + (i + q.size - q.good) = i + q.size by omega,
      Nat.add_mod_right, Nat.mod_eq_of_lt hi]
  have hj : (i + q.size - q.good) % q.size < q.size := Nat.mod_lt _ (by omega)
  exact emplaceLoop_spec h hs hj hgood (by rwa [hahead]) rfl

/-- What `emplace` leaves when its probe ends at a slot. -/
def reserve (q : ArenaQueue L N D) (i : ℕ) (d : D) : ArenaQueue L N D :=
  let q : ArenaQueue L N D := { q with good := (i + 1) &&& (q.size - 1), used := q.used + 1 }
  q.putData (i * N.nodeSize) (some d)

omit [Priority D] in
theorem size_reserve : (q.reserve i d).size = q.size := size_modifyNode

omit [Priority D] in
theorem valid_reserve : (q.reserve i d).Valid o ↔ q.Valid o := by
  rw [reserve, valid_putData, valid_mk]

theorem emplace_eq (hi : i < q.nodes.length)
    (hl : q.emplaceLoop d q.size q.good none false = some (i, prev, found)) :
    q.emplace d = some (i * N.nodeSize, prev, found, q.reserve i d) := by
  let q₁ : ArenaQueue L N D := { q with good := (i + 1) &&& (q.size - 1), used := q.used + 1 }
  have hv : q₁.Valid (i * N.nodeSize) := valid_mul.mpr hi
  simp only [emplace, hl, Option.bind_eq_bind, Option.bind_some]
  change (q₁.setData _ _).bind _ = _
  rw [setData_eq hv]
  rfl

omit [Priority D] in
theorem getData_reserve (hi : i < q.nodes.length) :
    (q.reserve i d).getData = Function.update q.getData (i * N.nodeSize) (some d) :=
  getData_putData (valid_mul.mpr hi)

omit [Priority D] in
theorem WF.linked_reserve (h : q.WF l) (hi : i < q.size) (hf : i * N.nodeSize ∉ handles l) :
    (q.reserve i d).Linked l := by
  constructor
  · rw [reserve, nextAt_putData, prevAt_putData, head_putData]
    exact h.chain
  · intro e he
    have hne : e.handle ≠ i * N.nodeSize := by
      intro heq
      exact hf (heq ▸ List.mem_map_of_mem he)
    rw [getData_reserve (h.length.symm ▸ hi), Function.update_of_ne hne]
    exact h.data e he

omit [Priority D] in
theorem WF.block_reserve (h : q.WF l) (hi : i < q.size) :
    (q.reserve i d).Block (i * N.nodeSize :: handles l) := by
  constructor
  · rw [size_reserve]
    exact length_modifyNode.trans h.length
  · rw [size_reserve]
    exact h.size
  · calc (q.reserve i d).used = q.used + 1 := used_modifyNode
      _ = _ := by rw [h.used]; rfl
  · intro _
    rw [size_reserve]
    calc (q.reserve i d).good = (i + 1) &&& (q.size - 1) := good_modifyNode
      _ = (i + 1) % q.size := h.mask (by omega) _
      _ < q.size := Nat.mod_lt _ (by omega)
  · intro o ho hm
    rw [reserve, nextAt_putData]
    exact h.free o (valid_reserve.mp ho) fun hl => hm (by simp [hl])
  · intro o hm
    have hne : o ≠ i * N.nodeSize := fun he => hm (by simp [he])
    rw [getData_reserve (h.length.symm ▸ hi), Function.update_of_ne hne]
    exact h.vacant o fun hl => hm (by simp [hl])

end Emplace

end PriorityLock.ArenaQueue
