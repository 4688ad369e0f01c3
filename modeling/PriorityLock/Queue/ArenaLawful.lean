import PriorityLock.Queue.ArenaBlock

/-! # The arena queue is lawful

Each operation of the arena keeps the representation invariant and acts on the
represented list as the interface asks, for both node types.
-/

namespace PriorityLock.ArenaQueue

open Links Placement

variable {L : Link} {N : NodeLayout} {D : Type} {q q' : ArenaQueue L N D}
  {l a b : List (Entry D)} {e p x : Entry D} {o : ℕ} {d : D}

theorem linkRef_first (hv : ∀ e ∈ b, e.handle ≠ sentinel) :
    linkRef (first id (handles b) sentinel) = b.head?.map Entry.handle := by
  cases b with
  | nil => rfl
  | cons e b => exact if_pos (hv e (by simp))

theorem WF.linkRef_next (h : q.WF (a ++ e :: b)) :
    linkRef (q.nextAt e.handle) = b.head?.map Entry.handle := by
  rw [h.next_eq]
  exact linkRef_first fun f hf => (h.valid (by simp [hf])).ne_sentinel

theorem WF.linkRef_head (h : q.WF l) : linkRef q.head = l.head?.map Entry.handle := by
  rw [h.head_eq]
  exact linkRef_first fun f hf => (h.valid hf).ne_sentinel

/-- `prev_for` finds the one node that links to the given one. -/
theorem prevFor_eq (hx : q.Valid o) (hp : q.Valid p.handle)
    (hdual : L.hasPrev = true → q.prevAt o = p.handle) (hn : q.nextAt p.handle = o)
    (hu : ∀ i, q.Valid i → q.nextAt i = o → i = p.handle) : q.prevFor o = some p.handle := by
  unfold prevFor
  by_cases hL : L.hasPrev = true
  · rw [if_pos hL, getPrev_eq hx, hdual hL]
  · obtain ⟨i, hi, hpi⟩ := hp.exists_slot
    have hat : ∀ (j : ℕ) (hj : j < q.nodes.length),
        q.nextAt (j * N.nodeSize) = q.nodes[j].next := fun j hj => by
      simp [nextAt, node_mul, hj]
    have hfind : q.nodes.findIdx? (fun n => n.next = o) = some i := by
      rw [List.findIdx?_eq_some_iff_getElem]
      refine ⟨hi, ?_, ?_⟩
      · rw [← hat i hi, ← hpi]
        exact decide_eq_true hn
      · intro j hji hc
        have hj : j < q.nodes.length := hji.trans hi
        rw [← hat j hj] at hc
        have he := hu _ (valid_mul.mpr hj) (of_decide_eq_true hc)
        rw [hpi, mul_nodeSize_inj] at he
        omega
    rw [if_neg hL, hfind, hpi]
    rfl

theorem WF.prevFor (h : q.WF (a ++ p :: e :: b)) : q.prevFor e.handle = some p.handle :=
  prevFor_eq (h.valid (by simp)) (h.valid (by simp)) h.prev_eq_behind h.next_eq
    fun _ hi hn => h.eq_of_next_eq hi hn

section Iter

theorem iterLoop_spec : ∀ {b : List (Entry D)} {c fuel : ℕ}, b.length < fuel →
    c = first id (handles b) sentinel → Follows id q.nextAt (handles b) sentinel →
    (∀ e ∈ b, q.getData e.handle = some e.data) → q.iterLoop fuel c = some (handles b)
  | [], c, fuel + 1, _, hc, _, _ => by
    have hc' : c = sentinel := hc
    simp [iterLoop, hc']
  | e :: b, c, fuel + 1, hlt, hc, hf, hd => by
    have hc' : c = e.handle := hc
    have he : q.getData e.handle = some e.data := hd e (by simp)
    have hv : q.Valid e.handle := valid_of_getData he
    have hr := iterLoop_spec (Nat.lt_of_succ_lt_succ hlt) hf.1 hf.2 fun f hfm =>
      hd f (by simp [hfm])
    simp [iterLoop, hc', hv.ne_sentinel, he, getNext_eq hv, hr]

theorem WF.iterAt_none (h : q.WF l) : q.iterAt none = some (l.map Entry.handle) := by
  exact iterLoop_spec (Nat.lt_succ_of_le h.length_le) h.head_eq h.chain.follows h.data

theorem WF.iterAt_some (h : q.WF (a ++ e :: b)) :
    q.iterAt (some e.handle) = some ((e :: b).map Entry.handle) := by
  have hle := h.length_le
  rw [List.length_append] at hle
  have hf := h.chain.follows
  rw [handles_append, follows_append] at hf
  exact iterLoop_spec (by omega) rfl hf.2 fun f hfm => h.data f (List.mem_append_right a hfm)

theorem WF.firstItem (h : q.WF l) : q.firstItem = some (l.head?.map Entry.handle) := by
  have hh := h.head_eq
  cases l with
  | nil =>
    have hs : q.head = sentinel := hh
    simp [ArenaQueue.firstItem, hs]
  | cons e b =>
    have hs : q.head = e.handle := hh
    have hv : q.Valid e.handle := h.valid (by simp)
    have hn : q.nextAt e.handle = first id (handles b) sentinel :=
      Chained.next_eq (a := []) h.toChained
    simp only [ArenaQueue.firstItem, hs, hv.ne_sentinel, if_false, h.data e (by simp),
      getNext_eq hv, hn, Option.bind_eq_bind, Option.bind_some]
    cases b with
    | nil => rfl
    | cons f b =>
      have hfv : q.Valid f.handle := h.valid (by simp)
      obtain ⟨n, hnf⟩ := Option.isSome_iff_exists.mp hfv
      simp [hfv.ne_sentinel, hnf]

end Iter

section Write

theorem Linked.putData (h : q.Linked (a ++ e :: b)) (d : D) :
    (q.putData e.handle (some d)).Linked (a ++ ⟨e.handle, d⟩ :: b) := by
  have hv : q.Valid e.handle := h.valid (by simp)
  have hs := h.set_data (getData_putData hv (d := some d))
  rwa [← nextAt_putData (o := e.handle) (d := some d), ← prevAt_putData (o := e.handle)
    (d := some d), ← head_putData (o := e.handle) (d := some d)] at hs

theorem WF.putData (h : q.WF (a ++ e :: b)) (d : D) :
    (q.putData e.handle (some d)).WF (a ++ ⟨e.handle, d⟩ :: b) where
  toChained := Linked.putData h.toChained d
  toBlock := by
    have hs : handles (a ++ ⟨e.handle, d⟩ :: b) = handles (a ++ e :: b) := by simp
    rw [hs]
    constructor
    · exact length_modifyNode.trans (h.length.trans size_modifyNode.symm)
    · rw [show (q.putData e.handle (some d)).size = q.size from size_modifyNode]
      exact h.size
    · exact used_modifyNode.trans h.used
    · rw [show (q.putData e.handle (some d)).size = q.size from size_modifyNode,
        show (q.putData e.handle (some d)).good = q.good from good_modifyNode]
      exact h.good
    · intro o ho
      rw [nextAt_putData]
      exact h.free o (valid_putData.mp ho)
    · intro o ho
      have hne : o ≠ e.handle := fun he => ho (by simp [he])
      rw [getData_putData (h.valid (by simp)), Function.update_of_ne hne]
      exact h.vacant o ho

end Write

section Enqueue

/-- The branch of `enqueue` that places the new node directly behind a tied one. -/
theorem enqueue_tie (h : q.Linked (a ++ p :: b)) (ho : o ∉ handles (a ++ p :: b))
    (hd : q.getData o = some d) : ∃ q', (do
        let exNext ← q.getNext p.handle
        let q ← q.setNext o exNext
        let q ← q.setNext p.handle o
        let q ← if exNext ≠ sentinel then q.setPrev exNext o else pure q
        let q ← q.setPrev o p.handle
        pure (o, q)) = some (o, q') ∧
      q'.Linked (a ++ p :: ⟨o, d⟩ :: b) ∧ Frame q q' (o :: handles (a ++ p :: b)) := by
  have hov : q.Valid o := valid_of_getData hd
  have hpv : q.Valid p.handle := h.valid (by simp)
  let n := first id (handles b) sentinel
  let q₁ := q.putNext o n
  let q₂ := q₁.putNext p.handle o
  let q₃ := q₂.backLink n o
  have hpv₁ : q₁.Valid p.handle := valid_putNext.mpr hpv
  have hov₃ : q₃.Valid o := valid_backLink.mpr (valid_putNext.mpr (valid_putNext.mpr hov))
  refine ⟨q₃.putPrev o p.handle, ?_, h.insert_behind ho ?_ ?_ ?_ ?_ ?_, ?_⟩
  · rw [getNext_eq hpv, h.next_eq]
    simp only [Option.bind_eq_bind, Option.bind_some, Option.pure_def]
    rw [setNext_eq hov, Option.bind_some, setNext_eq hpv₁, Option.bind_some]
    cases b with
    | nil => exact congrArg (Option.bind · _) (setPrev_eq hov₃)
    | cons f b =>
      have hfv : q.Valid f.handle := h.valid (by simp)
      have hfv₂ : q₂.Valid f.handle := valid_putNext.mpr (valid_putNext.mpr hfv)
      have h₃ : q₂.setPrev f.handle o = some q₃ := by
        simp [n, q₃, backLink, hfv.ne_sentinel, setPrev_eq hfv₂]
      change (if f.handle ≠ sentinel then (q₂.setPrev f.handle o).bind _ else _) = _
      rw [if_pos hfv.ne_sentinel, h₃, Option.bind_some, setPrev_eq hov₃, Option.bind_some]
  · simpa [q₃, q₂, q₁] using hd
  · simp [q₃, q₂, q₁]
  · rw [nextAt_putPrev, nextAt_backLink, nextAt_putNext hpv₁, nextAt_putNext hov]
    rfl
  · intro hL
    have hbv : ∀ e ∈ b, q₂.Valid e.handle := fun e he =>
      valid_putNext.mpr (valid_putNext.mpr (h.valid (by simp [he])))
    rw [prevAt_putPrev hL hov₃, prevAt_backLink hL hbv, prevAt_putNext, prevAt_putNext]
    rfl
  · simp [q₃, q₂, q₁]
  · exact (((Frame.putNext hov (by simp)).trans (.putNext hpv₁ (by simp))).trans .backLink).trans
      .putPrev

variable [Priority D]

/-- The place of a new entry behind the one at an offset: directly behind it, if the two are
tied, or where a scan from there puts it. -/
def placeBehind (x : Entry D) (p : ℕ) (tied : Bool) : List (Entry D) → List (Entry D)
  | [] => [x]
  | e :: l =>
    if e.handle = p then e :: if tied then x :: l else scan Priority.compareNew x l
    else e :: placeBehind x p tied l

def placeAt (x : Entry D) : Option ℕ → Bool → List (Entry D) → List (Entry D)
  | none, _, l => scan Priority.compareNew x l
  | some p, tied, l => placeBehind x p tied l

theorem placeBehind_middle (hn : (handles (a ++ e :: b)).Nodup) (tied : Bool) :
    placeBehind x e.handle tied (a ++ e :: b) =
      a ++ e :: if tied then x :: b else scan Priority.compareNew x b := by
  induction a with
  | nil => simp [placeBehind]
  | cons f a ih =>
    have hfe : f.handle ≠ e.handle := fun he => by simp [he] at hn
    have hr := ih (List.nodup_cons.mp hn).2
    simp [placeBehind, hfe, hr]

theorem placed_placeAt {prev : Option ℕ} {tied : Bool} (hn : (handles l).Nodup)
    (hint : Hint l d prev tied) :
    Placed Priority.compareNew ⟨o, d⟩ l (placeAt ⟨o, d⟩ prev tied l) := by
  cases prev with
  | none => exact placed_scan _ _ _
  | some p =>
    obtain ⟨e, he, rfl, hc⟩ := hint
    obtain ⟨a, b, rfl⟩ := List.append_of_mem he
    rw [placeAt, placeBehind_middle hn]
    cases tied with
    | true => exact placed_tie hc
    | false =>
      have hlt : ∀ t ∈ (a ++ [e]).getLast?, Priority.compareNew (⟨o, d⟩ : Entry D) t = .lt := by
        intro t ht
        obtain rfl : e = t := by simpa using ht
        exact hc
      simpa using placed_scan_after (b := b) hlt

/-- The place `insert` finds for a hint that is above the new entry, or for none. -/
theorem insert_spec {prev : Option ℕ} (h : q.Linked l) (hlen : q.nodes.length ≤ q.size)
    (ho : o ∉ handles l) (hd : q.getData o = some d) (hint : Hint l d prev false) :
    ∃ q', q.insert o prev = some q' ∧ q'.Linked (placeAt ⟨o, d⟩ prev false l) ∧
      Frame q q' (o :: handles l) := by
  cases prev with
  | none => exact insert_none_spec h hlen ho hd
  | some p =>
    obtain ⟨e, he, rfl, -⟩ := hint
    obtain ⟨a, b, rfl⟩ := List.append_of_mem he
    rw [placeAt, placeBehind_middle h.nodup]
    exact insert_some_spec h hlen ho hd

theorem enqueue_eq (h : q.WF l) (d : D) : ∃ i prev tied q',
    q.grown.emplaceLoop d q.grown.size q.grown.good none false = some (i, prev, tied) ∧
      i * N.nodeSize ∉ handles l ∧ Hint l d prev tied ∧
      q.enqueue d = some (i * N.nodeSize, q') ∧
      q'.WF (placeAt ⟨i * N.nodeSize, d⟩ prev tied l) ∧
      q'.size = q.grown.size ∧ q'.good = (i + 1) &&& (q.grown.size - 1) := by
  obtain ⟨h₀, hlt⟩ := h.grown
  obtain ⟨i, prev, tied, hl, hi, hfree, hint⟩ := emplaceLoop_free h₀ hlt d
  have hlen : i < q.grown.nodes.length := h₀.length.symm ▸ hi
  let o := i * N.nodeSize
  let q₁ := q.grown.reserve i d
  have hlk : q₁.Linked l := h₀.linked_reserve hi hfree
  have hb : q₁.Block (o :: handles l) := h₀.block_reserve hi
  have hd : q₁.getData o = some d := by
    rw [getData_reserve hlen, Function.update_self]
  have hp := placed_placeAt (o := o) h.nodup hint
  have hwf : ∀ {q' : ArenaQueue L N D}, q'.Linked (placeAt ⟨o, d⟩ prev tied l) →
      Frame q₁ q' (o :: handles l) → q'.WF (placeAt ⟨o, d⟩ prev tied l) ∧
        q'.size = q.grown.size ∧ q'.good = (i + 1) &&& (q.grown.size - 1) :=
    fun hl' hf => ⟨⟨hl', (hb.frame hf).perm (hp.perm.map Entry.handle)⟩,
      hf.size.trans size_reserve, hf.good.trans good_modifyNode⟩
  have henq : q.enqueue d = if tied then prev.bind fun prev => do
        let exNext ← q₁.getNext prev
        let q ← q₁.setNext o exNext
        let q ← q.setNext prev o
        let q ← if exNext ≠ sentinel then q.setPrev exNext o else pure q
        let q ← q.setPrev o prev
        pure (o, q)
      else (q₁.insert o prev).bind fun q => some (o, q) := by
    rw [enqueue]
    change (q.grown.emplace d).bind _ = _
    rw [emplace_eq hlen hl]
    cases tied <;> rfl
  cases tied with
  | true =>
    cases prev with
    | none => simp [Hint] at hint
    | some p =>
      obtain ⟨t, ht, rfl, -⟩ := id hint
      obtain ⟨a, b, rfl⟩ := List.append_of_mem ht
      obtain ⟨q', hq', hl', hf⟩ := enqueue_tie hlk hfree hd
      have hplace : placeAt ⟨o, d⟩ (some t.handle) true (a ++ t :: b) = a ++ t :: ⟨o, d⟩ :: b :=
        placeBehind_middle h.nodup true
      exact ⟨i, some t.handle, true, q', hl, hfree, hint, henq.trans hq', hwf (hplace ▸ hl') hf⟩
  | false =>
    obtain ⟨q', hq', hl', hf⟩ := insert_spec hlk hb.length.le hfree hd hint
    refine ⟨i, prev, false, q', hl, hfree, hint, ?_, hwf hl' hf⟩
    rw [henq]
    simp [hq', o]

theorem enqueue_spec (h : q.WF l) (d : D) : ∃ o q' l', q.enqueue d = some (o, q') ∧
    q'.WF l' ∧ o ∉ handles l ∧ Placed Priority.compareNew ⟨o, d⟩ l l' := by
  obtain ⟨i, prev, tied, q', -, ho, hint, hq', hw, -⟩ := enqueue_eq h d
  exact ⟨_, q', _, hq', hw, ho, placed_placeAt h.nodup hint⟩

end Enqueue

section Dequeue

def freed (q : ArenaQueue L N D) (offset : ℕ) : ArenaQueue L N D :=
  let q₁ : ArenaQueue L N D := { q with good := offset / N.nodeSize }
  let q₂ := (q₁.putData offset none).putNext offset N.unallocated
  { q₂ with used := q₂.used - 1 }

variable {i : ℕ}

theorem valid_freed : (q.freed o).Valid i ↔ q.Valid i :=
  valid_putNext.trans valid_putData

theorem nextAt_freed (ho : q.Valid o) :
    (q.freed o).nextAt = Function.update q.nextAt o N.unallocated := by
  have hv : ({ q with good := o / N.nodeSize } : ArenaQueue L N D).Valid o := ho
  unfold freed
  rw [nextAt_mk, nextAt_putNext (valid_putData.mpr hv), nextAt_putData]
  rfl

theorem prevAt_freed : (q.freed o).prevAt = q.prevAt := by
  unfold freed
  rw [prevAt_mk, prevAt_putNext, prevAt_putData]
  rfl

theorem getData_freed (ho : q.Valid o) :
    (q.freed o).getData = Function.update q.getData o none := by
  have hv : ({ q with good := o / N.nodeSize } : ArenaQueue L N D).Valid o := ho
  unfold freed
  rw [getData_mk, getData_putNext, getData_putData hv]
  rfl

theorem head_freed : (q.freed o).head = q.head :=
  head_putNext.trans head_putData

theorem size_freed : (q.freed o).size = q.size :=
  size_modifyNode.trans size_modifyNode

theorem used_freed : (q.freed o).used = q.used - 1 :=
  congrArg (· - 1) (used_modifyNode.trans used_modifyNode)

theorem WF.block_freed (h : q.WF (a ++ e :: b)) :
    (q.freed e.handle).Block (handles (a ++ b)) := by
  have hv : q.Valid e.handle := h.valid (by simp)
  obtain ⟨i, hi, hei⟩ := hv.exists_slot
  have hout : ∀ o, o ∉ handles (a ++ b) → o ≠ e.handle → o ∉ handles (a ++ e :: b) := by
    intro o hm he hl
    apply hm
    simp only [handles_append, handles_cons, List.mem_append, List.mem_cons] at hl ⊢
    tauto
  constructor
  · calc (q.freed e.handle).nodes.length = q.nodes.length :=
          length_modifyNode.trans length_modifyNode
      _ = (q.freed e.handle).size := h.length.trans size_freed.symm
  · rw [size_freed]
    exact h.size
  · have hu := h.used
    rw [used_freed, hu]
    simp
  · intro _
    have hg : (q.freed e.handle).good = e.handle / N.nodeSize :=
      good_modifyNode.trans good_modifyNode
    rw [size_freed, hg, hei, Nat.mul_div_cancel _ N.nodeSize_pos, ← h.length]
    exact hi
  · intro o ho hm
    rw [nextAt_freed hv]
    by_cases he : o = e.handle
    · rw [he, Function.update_self]
    · rw [Function.update_of_ne he]
      exact h.free o (valid_freed.mp ho) (hout o hm he)
  · intro o hm
    rw [getData_freed hv]
    by_cases he : o = e.handle
    · rw [he, Function.update_self]
    · rw [Function.update_of_ne he]
      exact h.vacant o (hout o hm he)

/-- Once the slot is marked free, the node before it is still the only one that links to it. -/
theorem WF.nextAt_freed_iff (h : q.WF (a ++ p :: e :: b)) (hi : q.Valid i) :
    (q.freed e.handle).nextAt i = e.handle ↔ i = p.handle := by
  have hv : q.Valid e.handle := h.valid (by simp)
  rw [nextAt_freed hv]
  constructor
  · intro hn
    by_cases hie : i = e.handle
    · rw [hie, Function.update_self] at hn
      exact absurd hn.symm hv.ne_unallocated
    · rw [Function.update_of_ne hie] at hn
      exact h.eq_of_next_eq hi hn
  · rintro rfl
    have hpe : p.handle ≠ e.handle := fun he => h.not_mem_behind (by simp [← he])
    rw [Function.update_of_ne hpe, h.toChained.next_eq]
    rfl

def unlinkFreed (q : ArenaQueue L N D) (offset oldNext : ℕ) :
    Option ((Option D × Option Handle) × ArenaQueue L N D) :=
  if offset = q.head then some ((none, linkRef oldNext), { q with head := oldNext })
  else (q.prevFor offset).bind fun prev => (q.setNext prev oldNext).bind fun q =>
    (q.getData prev).bind fun prevData => some ((some prevData, linkRef oldNext), q)

theorem dequeue_eq (h : q.WF (a ++ e :: b)) : q.dequeue e.handle =
    ((q.freed e.handle).backLink (q.nextAt e.handle) (q.prevAt e.handle)).unlinkFreed e.handle
      (q.nextAt e.handle) := by
  have hv : q.Valid e.handle := h.valid (by simp)
  let q₁ : ArenaQueue L N D := { q with good := e.handle / N.nodeSize }
  let q₂ := q₁.putData e.handle none
  have hv₁ : q₁.Valid e.handle := hv
  have hv₂ : q₂.Valid e.handle := valid_putData.mpr hv₁
  have hd : q₁.getData e.handle = some e.data := h.data e (by simp)
  have hn : q₂.getNext e.handle = some (q.nextAt e.handle) := by
    rw [getNext_eq hv₂, nextAt_putData]
    rfl
  have hp : (q.freed e.handle).getPrev e.handle = some (q.prevAt e.handle) := by
    rw [getPrev_eq (valid_freed.mpr hv), prevAt_freed]
  unfold dequeue
  change (q₁.getData e.handle).bind _ = _
  rw [hd, Option.bind_some, setData_eq hv₁]
  change (q₂.getNext e.handle).bind _ = _
  rw [hn, Option.bind_some, setNext_eq hv₂]
  change (if (L.hasPrev && decide (q.nextAt e.handle ≠ sentinel)) = true then
    ((q.freed e.handle).getPrev e.handle).bind fun p =>
      ((q.freed e.handle).setPrev (q.nextAt e.handle) p).bind fun q' =>
        q'.unlinkFreed e.handle (q.nextAt e.handle)
    else (q.freed e.handle).unlinkFreed e.handle (q.nextAt e.handle)) = _
  by_cases hL : L.hasPrev = true
  · cases b with
    | nil =>
      have hs : q.nextAt e.handle = sentinel := h.next_eq
      simp [hs, backLink]
    | cons f b =>
      have hf : q.nextAt e.handle = f.handle := h.next_eq
      have hfv : q.Valid f.handle := h.valid (by simp)
      rw [hf, if_pos (by simp [hL, hfv.ne_sentinel]), hp, Option.bind_some,
        setPrev_eq (valid_freed.mpr hfv), Option.bind_some, backLink, if_neg hfv.ne_sentinel]
  · simp [hL, backLink, putPrev]

theorem dequeue_counts {r : Option D × Option Handle} (h : q.WF (a ++ e :: b))
    (hq : q.dequeue e.handle = some (r, q')) :
    q'.size = q.size ∧ q'.good = e.handle / N.nodeSize := by
  let q₁ := (q.freed e.handle).backLink (q.nextAt e.handle) (q.prevAt e.handle)
  have hf : Frame (q.freed e.handle) q₁ [] := .backLink
  have hs : q₁.size = q.size := hf.size.trans size_freed
  have hg : q₁.good = e.handle / N.nodeSize :=
    hf.good.trans (good_modifyNode.trans good_modifyNode)
  rw [dequeue_eq h] at hq
  change q₁.unlinkFreed _ _ = _ at hq
  unfold unlinkFreed at hq
  split at hq
  · obtain ⟨-, rfl⟩ := Prod.mk.inj (Option.some_inj.mp hq)
    exact ⟨hs, hg⟩
  · obtain ⟨p, -, hq⟩ := Option.bind_eq_some_iff.mp hq
    obtain ⟨q₂, hset, hq⟩ := Option.bind_eq_some_iff.mp hq
    obtain ⟨d, -, hq⟩ := Option.bind_eq_some_iff.mp hq
    obtain ⟨-, rfl⟩ := Prod.mk.inj (Option.some_inj.mp hq)
    obtain ⟨n, -, rfl⟩ := Option.map_eq_some_iff.mp hset
    exact ⟨size_modifyNode.trans hs, good_modifyNode.trans hg⟩

/-- `dequeue` removes exactly its entry and returns the data before it and the handle
behind it. -/
theorem dequeue_spec (h : q.WF (a ++ e :: b)) : ∃ q', q.dequeue e.handle =
    some ((a.getLast?.map Entry.data, b.head?.map Entry.handle), q') ∧ q'.WF (a ++ b) := by
  have hv : q.Valid e.handle := h.valid (by simp)
  have hne := h.not_mem
  have hn := h.next_eq
  have hbv : ∀ f ∈ b, (q.freed e.handle).Valid f.handle := fun f hf =>
    valid_freed.mpr (h.valid (by simp [hf]))
  have hbl := h.block_freed
  let n := first id (handles b) sentinel
  let q₁ := (q.freed e.handle).backLink n (q.prevAt e.handle)
  have hnx : q₁.nextAt = Function.update q.nextAt e.handle N.unallocated := by
    rw [nextAt_backLink, nextAt_freed hv]
  have hgd : ∀ i ∈ handles (a ++ b), q₁.getData i = q.getData i := by
    intro i hi
    have hie : i ≠ e.handle := fun he => hne (he ▸ hi)
    rw [getData_backLink, getData_freed hv, Function.update_of_ne hie]
  have hpr : L.hasPrev = true →
      q₁.prevAt = relink q.prevAt (handles b).head? (q.prevAt e.handle) := by
    intro hL
    rw [prevAt_backLink hL hbv, prevAt_freed]
  have hh : q₁.head = q.head := head_backLink.trans head_freed
  have hfr : Frame (q.freed e.handle) q₁ (handles (a ++ b)) := .backLink
  rw [dequeue_eq h, hn, ← h.linkRef_next, hn]
  change ∃ q', q₁.unlinkFreed e.handle n = _ ∧ _
  unfold unlinkFreed
  rcases List.eq_nil_or_concat' a with rfl | ⟨a, p, rfl⟩
  · have hhd : e.handle = q₁.head := hh.symm ▸ h.head_eq.symm
    rw [if_pos hhd]
    refine ⟨{ q₁ with head := n }, rfl, ?_, hbl.frame (hfr.trans .head)⟩
    refine h.toChained.remove_head rfl ?_ ?_ hgd
    · intro i hi
      have hie : i ≠ e.handle := fun he => hne (he ▸ hi)
      rw [nextAt_mk, hnx, Function.update_of_ne hie]
    · intro hL i _
      have hpe : q.prevAt e.handle = sentinel := h.prev_eq hL
      rw [prevAt_mk, hpr hL, hpe]
  · have hl : (a ++ [p]) ++ e :: b = a ++ p :: e :: b := by simp
    have hl' : (a ++ [p]) ++ b = a ++ p :: b := by simp
    rw [hl] at h
    rw [hl'] at hne hgd hfr hbl ⊢
    have hpe : p.handle ≠ e.handle := fun he => hne (by simp [he])
    have hhd : e.handle ≠ q₁.head := by
      rw [hh, h.head_eq]
      cases a with
      | nil => exact hpe.symm
      | cons f a =>
        have hfe : e.handle ≠ f.handle := fun he => hne (by simp [he])
        exact hfe
    have hpv : q.Valid p.handle := h.valid (by simp)
    have hpv₁ : q₁.Valid p.handle := valid_backLink.mpr (valid_freed.mpr hpv)
    have hprev : q₁.prevFor e.handle = some p.handle := by
      apply prevFor_eq (valid_backLink.mpr (valid_freed.mpr hv)) hpv₁
      · intro hL
        have heb : e.handle ∉ handles b := fun hm => hne (by simp [hm])
        rw [hpr hL, relink_of_not_mem heb, h.prev_eq_behind hL, id]
      · rw [nextAt_backLink]
        exact (h.nextAt_freed_iff hpv).mpr rfl
      · intro i hi hni
        rw [nextAt_backLink] at hni
        exact (h.nextAt_freed_iff (valid_freed.mp (valid_backLink.mp hi))).mp hni
    have hpd : (q₁.putNext p.handle n).getData p.handle = some p.data := by
      rw [getData_putNext, hgd _ (by simp)]
      exact h.data p (by simp)
    rw [if_neg hhd, hprev, Option.bind_some, setNext_eq hpv₁, Option.bind_some, hpd,
      Option.bind_some]
    refine ⟨q₁.putNext p.handle n, by simp [n], ?_,
      hbl.frame (hfr.trans (.putNext hpv₁ (by simp)))⟩
    apply h.toChained.remove_behind (head_putNext.trans hh)
    · intro i hi
      have hie : i ≠ e.handle := fun he => hne (he ▸ hi)
      rw [nextAt_putNext hpv₁, hnx]
      by_cases hip : i = p.handle
      · rw [hip, Function.update_self, Function.update_self]
      · rw [Function.update_of_ne hip, Function.update_of_ne hip, Function.update_of_ne hie]
    · intro hL i _
      rw [prevAt_putNext, hpr hL, h.prev_eq_behind hL]
    · intro i hi
      rw [getData_putNext, hgd i hi]

end Dequeue

section Update

variable [Priority D]

/-- Where the arena puts an entry that moves; a head goes behind the next one unseen. -/
def rescan (x : Entry D) : List (Entry D) → List (Entry D) → List (Entry D)
  | [], f :: b => f :: scan Priority.compareNew x b
  | [], [] => [x]
  | e :: a, b => scan Priority.compareNew x (e :: a ++ b)

/-- Where the arena leaves a changed entry. -/
def resettled (x : Entry D) (a b : List (Entry D)) : List (Entry D) :=
  if Accepted Priority.compare x a b then a ++ x :: b else rescan x a b

theorem settled_resettled : Settled Priority.compare Priority.compareNew x (a ++ b)
    (resettled x a b) := by
  unfold resettled
  split
  · next h => exact h.settled
  · next h =>
    cases a with
    | nil =>
      cases b with
      | nil => exact settled_scan _ _ _ []
      | cons f b =>
        apply settled_scan_after (a := [f])
        intro t ht _
        obtain rfl : f = t := by simpa using ht
        simp [not_accepted_head.mp h]
    | cons e a => exact settled_scan _ _ _ _

/-- A lawful priority puts a head that is below the next entry behind it again. -/
theorem resettled_eq [LawfulPriority D] (x : Entry D) (a b : List (Entry D)) :
    resettled x a b = resettle Priority.compare Priority.compareNew x a b := by
  unfold resettled resettle
  split
  · rfl
  · next h =>
    cases a with
    | nil =>
      cases b with
      | nil => rfl
      | cons f b =>
        have hlt : Priority.compare x f = .lt := not_accepted_head.mp h
        have hn : Priority.compareNew x f = .lt :=
          (LawfulPriority.agree x f (by simp [hlt])).trans hlt
        simp [rescan, scan, hn]
    | cons e a => rfl

theorem settle_eq (h : q.WF (a ++ x :: b)) : ∃ q', q.settle x.handle x.data = some q' ∧
    q'.WF (resettled x a b) ∧ Frame q q' (handles (a ++ x :: b)) := by
  have hv : q.Valid x.handle := h.valid (by simp)
  have hn := h.next_eq
  have hlen : q.nodes.length ≤ q.size := h.length.le
  have hcmp : ∀ f : Entry D, Priority.compare x f = Priority.compare x.data f.data := fun _ => rfl
  have hperm : (handles (resettled x a b)).Perm (handles (a ++ x :: b)) :=
    (settled_resettled.perm.trans List.perm_middle.symm).map Entry.handle
  -- the entry stays between its neighbours
  have hstay : Accepted Priority.compare x a b → q.WF (resettled x a b) := fun hok => by
    rw [resettled, if_pos hok]
    exact h
  rcases List.eq_nil_or_concat' a with rfl | ⟨a, p, rfl⟩
  · have hh : x.handle = q.head := h.head_eq.symm
    cases b with
    | nil =>
      have hs : q.nextAt x.handle = sentinel := hn
      refine ⟨q, ?_, hstay (by simp [Accepted]), .refl q _⟩
      simp [settle, getNext_eq hv, hs, hh.symm]
    | cons f b =>
      have hfv : q.Valid f.handle := h.valid (by simp)
      have hs : q.nextAt x.handle = f.handle := hn
      have hfd : q.getData f.handle = some f.data := h.data f (by simp)
      by_cases hok : Accepted Priority.compare x [] (f :: b)
      · have hge : Priority.compare x.data f.data ≠ .lt := fun hlt =>
          not_accepted_head.mpr ((hcmp f).trans hlt) hok
        refine ⟨q, ?_, hstay hok, .refl q _⟩
        simp [settle, getNext_eq hv, hs, hh.symm, hfv.ne_sentinel, hfd, hge]
      · have hlt : Priority.compare x.data f.data = .lt :=
          (hcmp f).symm.trans (not_accepted_head.mp hok)
        obtain ⟨q', hq', hl', hf⟩ := reposition_head_spec h.toChained hlen
        have hl : resettled x [] (f :: b) = f :: scan Priority.compareNew x b := if_neg hok
        refine ⟨q', ?_, h.frame hf (hl ▸ hl') hperm, hf⟩
        rw [← hq']
        simp [settle, getNext_eq hv, hs, hh.symm, hfv.ne_sentinel, hfd, hlt]
  · have hl : (a ++ [p]) ++ x :: b = a ++ p :: x :: b := by simp
    have hlr := WF.linkRef_next h
    have hmove : ¬Accepted Priority.compare x (a ++ [p]) b →
        resettled x (a ++ [p]) b = scan Priority.compareNew x (a ++ p :: b) := by
      intro hok
      rw [resettled, if_neg hok]
      cases a <;> simp [rescan]
    rw [hl] at h hperm ⊢
    have hpd : q.getData p.handle = some p.data := h.data p (by simp)
    have hh : x.handle ≠ q.head := by
      have hnm := h.not_mem_behind
      rw [h.head_eq]
      intro he
      apply hnm
      cases a with
      | nil => simp [show x.handle = p.handle from he]
      | cons f a => simp [show x.handle = f.handle from he]
    obtain ⟨q', hq', hlk, hf⟩ := reposition_behind_spec h.toChained hlen
    by_cases hgt : Priority.compare x.data p.data = .gt
    · have hok : ¬Accepted Priority.compare x (a ++ [p]) b := fun hok => by
        simpa [hcmp, hgt] using hok.1 p (by simp)
      refine ⟨q', ?_, h.frame hf (hmove hok ▸ hlk) hperm, hf⟩
      rw [← hq', ← hlr]
      simp [settle, getNext_eq hv, hh, h.prevFor, hpd, hgt]
    · have hle : ∀ e ∈ (a ++ [p]).getLast?, (Priority.compare x e).isLE := by
        simpa [hcmp, Ordering.isLE_iff_ne_gt] using hgt
      cases b with
      | nil =>
        have hs : q.nextAt x.handle = sentinel := hn
        refine ⟨q, ?_, hstay ⟨hle, by simp⟩, .refl q _⟩
        simp [settle, getNext_eq hv, hs, hh, h.prevFor, hpd, hgt]
      | cons f b =>
        have hfv : q.Valid f.handle := h.valid (by simp)
        have hs : q.nextAt x.handle = f.handle := hn
        have hfd : q.getData f.handle = some f.data := h.data f (by simp)
        by_cases hlt : Priority.compare x.data f.data = .lt
        · have hok : ¬Accepted Priority.compare x (a ++ [p]) (f :: b) := fun hok => by
            simpa [hcmp, hlt] using hok.2 f rfl
          refine ⟨q', ?_, h.frame hf (hmove hok ▸ hlk) hperm, hf⟩
          rw [← hq']
          simp [settle, getNext_eq hv, hs, hh, h.prevFor, hpd, hgt, hfv.ne_sentinel, hfd, hlt]
        · have hge : ∀ e ∈ (f :: b).head?, (Priority.compare x e).isGE := by
            simpa [hcmp, Ordering.isGE_iff_ne_lt] using hlt
          refine ⟨q, ?_, hstay ⟨hle, hge⟩, .refl q _⟩
          simp [settle, getNext_eq hv, hs, hh, h.prevFor, hpd, hgt, hfv.ne_sentinel, hfd, hlt]

theorem settle_spec (h : q.WF (a ++ x :: b)) : ∃ q' l', q.settle x.handle x.data = some q' ∧
    q'.WF l' ∧ Settled Priority.compare Priority.compareNew x (a ++ b) l' := by
  obtain ⟨q', hq', hw, -⟩ := settle_eq h
  exact ⟨q', _, hq', hw, settled_resettled⟩

variable {f : D → D × Bool}

theorem updateNode_stay (h : q.WF (a ++ e :: b)) (hf : (f e.data).2 = false) :
    ∃ q', q.updateNode e.handle f = some q' ∧ q'.WF (a ++ ⟨e.handle, (f e.data).1⟩ :: b) := by
  have hv : q.Valid e.handle := h.valid (by simp)
  refine ⟨_, ?_, h.putData (f e.data).1⟩
  simp [updateNode, h.data e (by simp), setData_eq hv, hf]

theorem updateNode_eq (h : q.WF (a ++ e :: b)) (hf : (f e.data).2 = true) :
    q.updateNode e.handle f =
      (q.putData e.handle (some (f e.data).1)).settle e.handle (f e.data).1 := by
  have hv : q.Valid e.handle := h.valid (by simp)
  simp [updateNode, h.data e (by simp), setData_eq hv, hf]

theorem updateNode_settle (h : q.WF (a ++ e :: b)) (hf : (f e.data).2 = true) :
    ∃ q' l', q.updateNode e.handle f = some q' ∧ q'.WF l' ∧
      Settled Priority.compare Priority.compareNew ⟨e.handle, (f e.data).1⟩ (a ++ b) l' := by
  rw [updateNode_eq h hf]
  exact settle_spec (x := ⟨e.handle, (f e.data).1⟩) (h.putData (f e.data).1)

theorem store_spec (h : q.WF (a ++ e :: b)) (f : D → D) : ∃ q',
    PriorityQueue.store q e.handle f = some q' ∧ q'.WF (a ++ ⟨e.handle, f e.data⟩ :: b) := by
  have hv : q.Valid e.handle := h.valid (by simp)
  refine ⟨_, ?_, h.putData (f e.data)⟩
  simp [PriorityQueue.store, h.data e (by simp), setData_eq hv]

end Update

instance [Priority D] : LawfulQueue (ArenaQueue L N D) D where
  Rep := WF
  rep_default := .default
  nodup h := h.nodup
  enqueue_spec d h := enqueue_spec h d
  dequeue_spec h := dequeue_spec h
  getByHandle_spec h he := h.data _ he
  iterAt_none h := h.iterAt_none
  iterAt_some h := h.iterAt_some
  isEmpty_spec {q l} h := by
    change q.firstItem.map Option.isNone = _
    rw [h.firstItem]
    cases l <;> rfl
  updateNode_stay _ h hf := updateNode_stay h hf
  updateNode_settle _ h hf := updateNode_settle h hf
  head_spec h := h.firstItem
  headHandle_spec h := congrArg some h.linkRef_head
  getNextHandle_spec {q a b e} h := by
    have hv : q.Valid e.handle := h.valid (by simp)
    change (q.getNext e.handle).map linkRef = _
    rw [getNext_eq hv, ← h.linkRef_next]
    rfl
  store_spec f h := store_spec h f

end PriorityLock.ArenaQueue
