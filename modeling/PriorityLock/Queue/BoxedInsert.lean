import PriorityLock.Queue.BoxedStore

/-! # Inserting a box

A new box is linked in front of the first one that it is not below. The search
keeps the box behind which it stands.
-/

namespace PriorityLock.BoxQueue

open Links Placement

variable {L : Link} {A : Allocator} {D : Type} {q q' : BoxQueue L A D} {l a b : List (Entry D)}
  {e p x : Entry D} {i o : Handle} {d : D}

theorem WF.default : (BoxQueue.default : BoxQueue L A D).WF [] where
  chain := .empty
  data := by simp
  used i := by simp [BoxQueue.default]
  live i := by simp [BoxQueue.default, Valid]

theorem WF.length_le (h : q.WF l) : l.length ≤ q.used.length :=
  length_le_used h.nodup fun i hi => (h.used i).mpr hi

section Insert

variable [Priority D]

theorem insertLoop_spec : ∀ {b : List (Entry D)} {p fuel : ℕ}, b.length < fuel → q.Valid p →
    q.nextAt p = first some (handles b) none → Follows some q.nextAt (handles b) none →
    (∀ e ∈ b, q.getData e.handle = some e.data) →
    ∃ m t c, b = m ++ t ∧ scan Priority.compareNew ⟨o, d⟩ b = m ++ ⟨o, d⟩ :: t ∧
      q.insertLoop d fuel p = some c ∧ last some (some p) (handles m) = some c
  | [], p, fuel + 1, _, hp, hn, _, _ => by
    have hn' : q.nextAt p = none := hn
    exact ⟨[], [], p, rfl, rfl, by simp [insertLoop, getNext_eq hp, hn'], rfl⟩
  | e :: b, p, fuel + 1, hlt, hp, hn, hf, hd => by
    have he : q.getData e.handle = some e.data := hd e (by simp)
    have hv : q.Valid e.handle := valid_of_getData he
    have hn' : q.nextAt p = some e.handle := hn
    have hcn : Priority.compareNew (⟨o, d⟩ : Entry D) e = Priority.compareNew d e.data := rfl
    by_cases hc : (Priority.compareNew d e.data).isGE
    · refine ⟨[], e :: b, p, rfl, by simp [scan, hcn, hc], ?_, rfl⟩
      simp [insertLoop, getNext_eq hp, hn', he, hc]
    · obtain ⟨m, t, c, rfl, hs, hl, hlast⟩ := insertLoop_spec (Nat.lt_of_succ_lt_succ hlt) hv
        hf.1 hf.2 fun f hfm => hd f (by simp [hfm])
      refine ⟨e :: m, t, c, rfl, by simp [scan, hcn, hc, hs], ?_, hlast⟩
      simp [insertLoop, getNext_eq hp, hn', he, hc, hl]

/-- `insert` places an unlinked box where a scan from the head does. -/
theorem insert_spec (h : q.Linked l) (ho : o ∉ handles l) (hd : q.getData o = some d)
    (hn : q.nextAt o = none) (hp : L.hasPrev = true → q.prevAt o = none)
    (hlen : l.length ≤ q.used.length) : ∃ q', q.insert o = some q' ∧
      q'.Linked (scan Priority.compareNew ⟨o, d⟩ l) ∧ Frame q q' := by
  have hov : q.Valid o := valid_of_getData hd
  cases l with
  | nil =>
    have hh : q.head = none := h.head_eq
    refine ⟨{ q with head := some o }, by simp [insert, hd, hh], ?_, .head⟩
    refine h.insert_front ho hd rfl ?_ ?_ (by simp)
    · exact (Function.update_eq_self_iff.mpr hn.symm).symm
    · intro hL
      exact (Function.update_eq_self_iff.mpr (hp hL).symm).symm
  | cons e b =>
    have he : q.getData e.handle = some e.data := h.data e (by simp)
    have hv : q.Valid e.handle := h.valid (by simp)
    have hh : q.head = some e.handle := h.head_eq
    have hcn : Priority.compareNew (⟨o, d⟩ : Entry D) e = Priority.compareNew d e.data := rfl
    have hoe : e.handle ≠ o := fun hoe => ho (by simp [hoe])
    by_cases hc : (Priority.compareNew d e.data).isGE
    · let q₁ : BoxQueue L A D := { q.putPrev e.handle (some o) with head := none }
      have hov₁ : q₁.Valid o := valid_putPrev.mpr hov
      have hn₁ : q₁.nextAt o = none := by simpa [q₁] using hn
      refine ⟨{ q₁.putNext o (some e.handle) with head := some o }, ?_, ?_, ?_⟩
      · simp only [insert, hd, hh, he, hc, if_true, Option.bind_eq_bind, Option.bind_some]
        rw [setPrev_eq hv, Option.bind_some]
        change (q₁.storeNext o (some e.handle)).bind _ = _
        rw [storeNext_none hov₁ hn₁]
        exact storeHead_none rfl
      · rw [show scan Priority.compareNew ⟨o, d⟩ (e :: b) = ⟨o, d⟩ :: e :: b by
          simp [scan, hcn, hc]]
        refine h.insert_front ho (by simpa [q₁] using hd) rfl ?_ ?_ (by simp [q₁])
        · rw [nextAt_mk, nextAt_putNext hov₁]
          simp [q₁]
        · intro hL
          have hpo : (relink q.prevAt (handles (e :: b)).head? (some o)) o = none := by
            rw [relink_of_not_mem ho]
            exact hp hL
          rw [prevAt_mk, prevAt_putNext, Function.update_eq_self_iff.mpr hpo.symm]
          exact prevAt_putPrev hL hv
      · exact (Frame.putPrev.trans .head).trans (.trans .putNext .head)
    · have hfol : Follows some q.nextAt (handles b) none := h.chain.follows.2
      obtain ⟨m, t, c, rfl, hs, hl, hlast⟩ := insertLoop_spec (o := o) (d := d)
        (show b.length < q.used.length + 1 by simp at hlen; omega) hv (h.next_eq (a := []))
        hfol fun f hf => h.data f (by simp [hf])
      -- the node the new one goes behind
      obtain ⟨a', p', hsplit, hp'⟩ : ∃ a' p', e :: m = a' ++ [p'] ∧ c = p'.handle := by
        rcases List.eq_nil_or_concat' m with rfl | ⟨m, f, rfl⟩
        · exact ⟨[], e, rfl, by simpa using hlast.symm⟩
        · exact ⟨e :: m, f, by simp, by simpa using hlast.symm⟩
      have hlist : ∀ s, e :: (m ++ s) = a' ++ p' :: s := fun s => by
        calc e :: (m ++ s) = (e :: m) ++ s := by simp
          _ = a' ++ p' :: s := by rw [hsplit]; simp
      have hscan : scan Priority.compareNew ⟨o, d⟩ (e :: (m ++ t)) = a' ++ p' :: ⟨o, d⟩ :: t := by
        simp [scan, hcn, hc, hs, ← hlist]
      rw [hscan]
      rw [hlist] at h ho
      subst hp'
      have hpv : q.Valid p'.handle := h.valid (by simp)
      have hop : o ≠ p'.handle := fun he => ho (by simp [he])
      have htv : ∀ f ∈ t, q.Valid f.handle := fun f hf => h.valid (by simp [hf])
      let n := first some (handles t) none
      let q₁ := q.putNext p'.handle none
      let q₂ := q₁.relinkBack n (some o)
      let q₃ := q₂.putNext o n
      let q₄ := q₃.putPrev o (some p'.handle)
      have hnext : q.nextAt p'.handle = n := h.next_eq
      have hv₂ : ∀ i, q₂.Valid i ↔ q.Valid i := fun i => by simp [q₂, q₁]
      have hv₄ : ∀ i, q₄.Valid i ↔ q.Valid i := fun i => by simp [q₄, q₃, hv₂]
      have hn₂ : q₂.nextAt = Function.update q.nextAt p'.handle none := by
        simp only [q₂, q₁, nextAt_relinkBack, nextAt_putNext hpv]
      have hn₄ : q₄.nextAt = Function.update (Function.update q.nextAt p'.handle none) o n := by
        simp only [q₄, q₃, nextAt_putPrev]
        rw [nextAt_putNext ((hv₂ o).mpr hov), hn₂]
      refine ⟨q₄.putNext p'.handle (some o), ?_, ?_, ?_⟩
      · simp only [insert, hd, hh, he, hc, hl, Option.bind_eq_bind, Option.bind_some]
        rw [takeNext_eq hpv, hnext]
        change (q₁.linkBack n (some o)).bind _ = _
        rw [linkBack_eq fun f hf => valid_putNext.mpr (htv f hf), Option.bind_some]
        change (q₂.storeNext o n).bind _ = _
        rw [storeNext_none ((hv₂ o).mpr hov) (by rw [hn₂, Function.update_of_ne hop, hn]),
          Option.bind_some]
        change (q₃.setPrev o _).bind _ = _
        rw [setPrev_eq (valid_putNext.mpr ((hv₂ o).mpr hov)), Option.bind_some]
        apply storeNext_none ((hv₄ _).mpr hpv)
        rw [hn₄, Function.update_of_ne hop.symm, Function.update_self]
      · refine h.insert_behind ho (by simpa [q₄, q₃, q₂, q₁] using hd) ?_ ?_ ?_
          (by simp [q₄, q₃, q₂, q₁])
        · change q₄.head = q.head
          simp only [q₄, head_putPrev]
          exact head_relinkBack
        · rw [nextAt_putNext ((hv₄ _).mpr hpv), hn₄]
          rw [Function.update_comm hop.symm, Function.update_idem]
        · intro hL
          rw [prevAt_putNext, prevAt_putPrev hL (valid_putNext.mpr ((hv₂ o).mpr hov)),
            prevAt_putNext]
          rw [prevAt_relinkBack hL fun f hf => valid_putNext.mpr (htv f hf), prevAt_putNext]
      · exact ((((Frame.putNext.trans .relinkBack).trans .putNext).trans .putPrev).trans .putNext)

theorem enqueue_spec (h : q.WF l) (d : D) : ∃ o q' l', q.enqueue d = some (o, q') ∧
    q'.WF l' ∧ o ∉ handles l ∧ Placed Priority.compareNew ⟨o, d⟩ l l' := by
  let o := A.alloc q.used
  have ho : o ∉ handles l := fun hm => A.fresh q.used ((h.used o).mpr hm)
  let q₁ : BoxQueue L A D :=
    { q with heap := Function.update q.heap o (some ⟨d, none, none⟩), used := o :: q.used }
  have hne : ∀ i ∈ handles l, i ≠ o := fun i hi he => ho (he ▸ hi)
  have hheap : ∀ i ∈ handles l, q₁.heap i = q.heap i := fun i hi =>
    Function.update_of_ne (hne i hi) _ _
  have hl : q₁.Linked l := by
    refine ⟨h.chain.congr ?_ ?_, ?_⟩
    · intro i hi
      simp only [nextAt, hheap i hi]
    · intro _ i hi
      simp only [prevAt, hheap i hi]
    · intro e he
      rw [← h.data e he]
      simp only [getData, hheap _ (mem_handles he)]
  have hself : q₁.heap o = some ⟨d, none, none⟩ := Function.update_self _ _ _
  obtain ⟨q', hq', hlk, hf⟩ := insert_spec hl ho (d := d) (by simp [getData, hself])
    (by simp [nextAt, hself]) (by simp [prevAt, hself])
    (Nat.le_succ_of_le h.length_le)
  have hpl : Placed Priority.compareNew ⟨o, d⟩ l (scan Priority.compareNew ⟨o, d⟩ l) :=
    placed_scan _ _ _
  have hperm : (handles (scan Priority.compareNew ⟨o, d⟩ l)).Perm (o :: handles l) :=
    hpl.perm.map Entry.handle
  refine ⟨o, q', _, ?_, ⟨hlk, ?_, ?_⟩, ho, hpl⟩
  · simp only [enqueue]
    change (q₁.insert o).bind _ = _
    rw [hq']
    rfl
  · intro i
    rw [hf.used, hperm.mem_iff, List.mem_cons, List.mem_cons, h.used]
  · intro i
    rw [hf.valid, hperm.mem_iff, List.mem_cons, ← h.live]
    by_cases hi : i = o
    · simp [hi, Valid, hself]
    · simp [hi, Valid, q₁]

end Insert

end PriorityLock.BoxQueue
