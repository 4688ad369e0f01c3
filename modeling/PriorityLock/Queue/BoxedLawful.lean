import PriorityLock.Queue.BoxedDequeue

/-! # The box queue is lawful

An update that moves a box unlinks it and inserts it again. With the reads this
makes the box queue a lawful one.
-/

namespace PriorityLock.BoxQueue

open Links Placement

variable {L : Link} {A : Allocator} {D : Type} {q q' : BoxQueue L A D} {l a b : List (Entry D)}
  {e p x : Entry D} {i o : Handle} {d : D}

section Update

theorem Linked.putData (h : q.Linked (a ++ e :: b)) (d : D) :
    (q.putData e.handle d).Linked (a ++ ⟨e.handle, d⟩ :: b) := by
  have hs := h.set_data (getData_putData (h.valid (by simp)) (d := d))
  rwa [← nextAt_putData (i := e.handle) (d := d), ← prevAt_putData (i := e.handle) (d := d)] at hs

theorem WF.putData (h : q.WF (a ++ e :: b)) (d : D) :
    (q.putData e.handle d).WF (a ++ ⟨e.handle, d⟩ :: b) where
  toChained := Linked.putData h.toChained d
  used i := (h.used i).trans (by simp)
  live i := by simpa using h.live i

/-- The states from which the two node types insert a detached node again. -/
theorem detached_head (h : q.WF (x :: b)) :
    ∃ q', q' = { (q.detach x.handle none).putPrev x.handle none with
        head := q.nextAt x.handle } ∧ Frame q q' ∧ q'.Linked b ∧
      q'.nextAt x.handle = none ∧ (L.hasPrev = true → q'.prevAt x.handle = none) := by
  have hv : q.Valid x.handle := h.valid (by simp)
  have hv₁ : (q.detach x.handle none).Valid x.handle := valid_detach.mpr hv
  have hne : ∀ i ∈ handles b, i ≠ x.handle := fun i hi he => h.not_mem (a := []) (he ▸ hi)
  refine ⟨_, rfl, (frame_detach.trans .putPrev).trans .head, ?_, ?_, ?_⟩
  · apply linked_detach_head h.toChained rfl (by simp)
    · intro hL i hi
      rw [prevAt_mk, prevAt_putPrev hL hv₁, Function.update_of_ne (hne i hi)]
    · simp [getData_detach]
  · rw [nextAt_mk, nextAt_putPrev, nextAt_detach hv, Function.update_self]
  · intro hL
    rw [prevAt_mk, prevAt_putPrev hL hv₁, Function.update_self]

theorem detached_behind (h : q.WF (a ++ p :: x :: b)) :
    ∃ q', q' = ((q.detach x.handle (some p.handle)).putPrev x.handle none).putNext p.handle
        (q.nextAt x.handle) ∧ Frame q q' ∧ q'.Linked (a ++ p :: b) ∧
      q'.nextAt x.handle = none ∧ (L.hasPrev = true → q'.prevAt x.handle = none) := by
  have hv : q.Valid x.handle := h.valid (by simp)
  have hpv : q.Valid p.handle := h.valid (by simp)
  have hv₁ : (q.detach x.handle (some p.handle)).Valid x.handle := valid_detach.mpr hv
  have hpv₁ : ((q.detach x.handle (some p.handle)).putPrev x.handle none).Valid p.handle :=
    valid_putPrev.mpr (valid_detach.mpr hpv)
  have hne : ∀ i ∈ handles (a ++ p :: b), i ≠ x.handle := fun i hi he =>
    h.not_mem_behind (he ▸ hi)
  have hxp : x.handle ≠ p.handle := (hne p.handle (by simp)).symm
  refine ⟨_, rfl, (frame_detach.trans .putPrev).trans .putNext, ?_, ?_, ?_⟩
  · apply linked_detach_behind h.toChained
    · exact head_putPrev.trans head_detach
    · intro i _
      rw [nextAt_putNext hpv₁, nextAt_putPrev]
    · intro hL i hi
      rw [prevAt_putNext, prevAt_putPrev hL hv₁, Function.update_of_ne (hne i hi)]
    · simp [getData_detach]
  · rw [nextAt_putNext hpv₁, nextAt_putPrev, nextAt_detach hv, Function.update_of_ne hxp,
      Function.update_self]
  · intro hL
    rw [prevAt_putNext, prevAt_putPrev hL hv₁, Function.update_self]

variable [Priority D]

theorem notAbove_spec (h : q.Linked (a ++ x :: b)) : ∃ r,
    q.notAbove x.data (last some none (handles a)) = some r ∧
      (r = true ↔ ∀ f ∈ a.getLast?, (Priority.compare x f).isLE) := by
  rcases List.eq_nil_or_concat' a with rfl | ⟨a, p, rfl⟩
  · exact ⟨true, rfl, by simp⟩
  · refine ⟨(Priority.compare x p).isLE, ?_, by simp⟩
    simp [notAbove, h.data p (by simp), Priority.compare]

theorem notBelow_spec (h : q.Linked (a ++ x :: b)) : ∃ r,
    q.notBelow x.data (first some (handles b) none) = some r ∧
      (r = true ↔ ∀ f ∈ b.head?, (Priority.compare x f).isGE) := by
  cases b with
  | nil => exact ⟨true, rfl, by simp⟩
  | cons f b =>
    refine ⟨(Priority.compare x f).isGE, ?_, by simp⟩
    simp [notBelow, h.data f (by simp), Priority.compare]

theorem move_head (h : q.WF (x :: b)) (hq : Frame q q') (hl : q'.Linked b)
    (hn : q'.nextAt x.handle = none) (hp : L.hasPrev = true → q'.prevAt x.handle = none) :
    ∃ q₂, q'.insert x.handle = some q₂ ∧ q₂.WF (scan Priority.compareNew x b) := by
  have hle := h.length_le
  have hd : q'.getData x.handle = some x.data := by rw [hq.data, h.data x (by simp)]
  obtain ⟨q₂, hi, hl₂, hf⟩ := insert_spec hl (h.not_mem (a := [])) hd hn hp
    (by rw [hq.used]; simp at hle; omega)
  have hst := settled_scan Priority.compare Priority.compareNew x b
  exact ⟨q₂, hi, h.frame (hq.trans hf) hl₂ (hst.perm.map Entry.handle)⟩

theorem move_behind (h : q.WF (a ++ p :: x :: b)) (hq : Frame q q')
    (hl : q'.Linked (a ++ p :: b)) (hn : q'.nextAt x.handle = none)
    (hp : L.hasPrev = true → q'.prevAt x.handle = none) :
    ∃ q₂, q'.insert x.handle = some q₂ ∧ q₂.WF (scan Priority.compareNew x (a ++ p :: b)) := by
  have hle := h.length_le
  have hd : q'.getData x.handle = some x.data := by rw [hq.data, h.data x (by simp)]
  obtain ⟨q₂, hi, hl₂, hf⟩ := insert_spec hl h.not_mem_behind hd hn hp
    (by rw [hq.used]; simp at hle ⊢; omega)
  have hst := settled_scan Priority.compare Priority.compareNew x (a ++ p :: b)
  refine ⟨q₂, hi, h.frame (hq.trans hf) hl₂ ?_⟩
  have hm : (x :: ((a ++ [p]) ++ b)).Perm ((a ++ [p]) ++ x :: b) := List.perm_middle.symm
  have hm' := hm.map Entry.handle
  simp only [List.append_assoc, List.singleton_append] at hm'
  exact (hst.perm.map Entry.handle).trans hm'

/-- The dual-link queue moves an entry exactly when a neighbour does not accept it. -/
theorem settleDual_eq (hL : L.hasPrev = true) (h : q.WF (a ++ x :: b)) : ∃ q',
    q.settleDual x.handle x.data = some q' ∧
      q'.WF (resettle Priority.compare Priority.compareNew x a b) := by
  have hv : q.Valid x.handle := h.valid (by simp)
  have hp : q.prevAt x.handle = last some none (handles a) := h.prev_eq hL
  have hn : q.nextAt x.handle = first some (handles b) none := h.next_eq
  obtain ⟨r, hr, hra⟩ := notAbove_spec h.toChained
  obtain ⟨s, hs, hsb⟩ := notBelow_spec h.toChained
  have hacc : (r && s) = true ↔ Accepted Priority.compare x a b := by
    rw [Bool.and_eq_true, hra, hsb, Accepted]
  rw [← hp] at hr
  rw [← hn] at hs
  by_cases hok : (r && s) = true
  · refine ⟨q, ?_, by rwa [resettle, if_pos (hacc.mp hok)]⟩
    simp [settleDual, getPrev_eq hv, getNext_eq hv, hr, hs, Bool.and_eq_true _ _ ▸ hok]
  · have hlb := linkBack_detach h.toChained (v := q.prevAt x.handle)
    have hv₁ : ∀ v, (q.detach x.handle v).Valid x.handle := fun _ => valid_detach.mpr hv
    rw [resettle, if_neg fun ha => hok (hacc.mpr ha)]
    rcases List.eq_nil_or_concat' a with rfl | ⟨a, p, rfl⟩
    · obtain ⟨q₁, hq₁, hf, hl, hn₁, hp₁⟩ := detached_head h
      obtain ⟨q₂, hi, hw⟩ := move_head h hf hl hn₁ hp₁
      have hh : (q.detach x.handle none).head = some x.handle := head_detach.trans h.head_eq
      have hp' : q.prevAt x.handle = none := hp
      refine ⟨q₂, ?_, hw⟩
      rw [← hi, hq₁]
      simp only [settleDual, getPrev_eq hv, getNext_eq hv, Option.bind_eq_bind,
        Option.bind_some, hr, hs, hok, takeNext_eq hv, hlb]
      simp [hp', setPrev_eq (hv₁ _), replaceHead, hh]
    · have hp' : q.prevAt x.handle = some p.handle := by simpa using hp
      rw [← List.append_cons] at h ⊢
      obtain ⟨q₁, hq₁, hf, hl, hn₁, hp₁⟩ := detached_behind h
      obtain ⟨q₂, hi, hw⟩ := move_behind h hf hl hn₁ hp₁
      have hpv : ((q.detach x.handle (some p.handle)).putPrev x.handle none).Valid p.handle :=
        valid_putPrev.mpr (valid_detach.mpr (h.valid (by simp)))
      have hpe : p.handle ≠ x.handle := fun he => h.not_mem_behind (by simp [he])
      have hpn : ((q.detach x.handle (some p.handle)).putPrev x.handle none).nextAt p.handle =
          some x.handle := by
        rw [nextAt_putPrev, nextAt_detach hv, Function.update_of_ne hpe, h.next_eq]
        rfl
      refine ⟨q₂, ?_, hw⟩
      rw [← hi, hq₁]
      simp only [settleDual, getPrev_eq hv, getNext_eq hv, Option.bind_eq_bind,
        Option.bind_some, hr, hs, hok, takeNext_eq hv, hlb]
      simp [hp', setPrev_eq (hv₁ _), replaceNext, getNext_eq hpv, hpn]

theorem settleDual_spec (hL : L.hasPrev = true) (h : q.WF (a ++ x :: b)) : ∃ q' l',
    q.settleDual x.handle x.data = some q' ∧ q'.WF l' ∧
      Settled Priority.compare Priority.compareNew x (a ++ b) l' := by
  obtain ⟨q', hq', hw⟩ := settleDual_eq hL h
  exact ⟨q', _, hq', hw, settled_resettle⟩

/-- Where the single-link queue leaves a changed entry; a head moves on a tie as well. -/
def resettled (x : Entry D) : List (Entry D) → List (Entry D) → List (Entry D)
  | [], f :: b =>
    if (Priority.compare x f).isLE then scan Priority.compareNew x (f :: b) else x :: f :: b
  | a, b => resettle Priority.compare Priority.compareNew x a b

theorem settled_resettled : Settled Priority.compare Priority.compareNew x (a ++ b)
    (resettled x a b) := by
  unfold resettled
  split
  · next f b =>
    split
    · exact settled_scan _ _ _ _
    · next hle =>
      have hgt : Priority.compare x f = .gt := by simpa [Ordering.isLE_iff_ne_gt] using hle
      exact settled_stay (a := []) (by simp) (by simp [hgt])
  · exact settled_resettle

theorem settleSingle_eq (hL : ¬ L.hasPrev = true) (h : q.WF (a ++ x :: b)) : ∃ q',
    q.settleSingle x.handle x.data = some q' ∧ q'.WF (resettled x a b) := by
  have hv : q.Valid x.handle := h.valid (by simp)
  have hput : ∀ (q : BoxQueue L A D) v, q.putPrev x.handle v = q := fun q v => by
    simp [putPrev, hL]
  rcases List.eq_nil_or_concat' a with rfl | ⟨a, p, rfl⟩
  · have hh : q.head = some x.handle := h.head_eq
    obtain ⟨q₁, hq₁, hf, hl, hn₁, hp₁⟩ := detached_head h
    obtain ⟨q₂, hi, hw⟩ := move_head h hf hl hn₁ hp₁
    rw [hput, detach_single hL] at hq₁
    have hn : q.nextAt x.handle = first some (handles b) none := h.next_eq
    cases b with
    | nil =>
      have hn' : q.nextAt x.handle = none := hn
      refine ⟨q, ?_, by simpa [resettled, resettle, scan] using h⟩
      simp [settleSingle, hh, getNext_eq hv, hn']
    | cons f b =>
      have hn' : q.nextAt x.handle = some f.handle := hn
      have hfd : q.getData f.handle = some f.data := h.data f (by simp)
      have hcmp : Priority.compare x f = Priority.compare x.data f.data := rfl
      rw [resettled, hcmp]
      by_cases hle : (Priority.compare x.data f.data).isLE = true
      · refine ⟨q₂, ?_, by rwa [if_pos hle]⟩
        rw [← hi, hq₁]
        have hh' : (q.putNext x.handle none).head = some x.handle := hh
        simp only [settleSingle, hh, if_true, getNext_eq hv, hn', Option.bind_eq_bind,
          Option.bind_some, hfd, Option.pure_def, hle, takeNext_eq hv, replaceHead, hh']
      · have hgt : Priority.compare x.data f.data = .gt := by
          simpa [Ordering.isLE_iff_ne_gt] using hle
        refine ⟨q, ?_, by rwa [if_neg hle]⟩
        simp [settleSingle, hh, getNext_eq hv, hn', hfd, hgt]
  · rw [← List.append_cons] at h
    obtain ⟨c, hc, hfind⟩ := h.findPrev
    have hcx : c ≠ x.handle := by
      rintro rfl
      have hcn := h.head_eq.symm.trans hc
      apply h.not_mem_behind
      cases a with
      | nil => simp [show p.handle = x.handle by simpa using hcn]
      | cons f a => simp [show f.handle = x.handle by simpa using hcn]
    obtain ⟨q₁, hq₁, hf, hl, hn₁, hp₁⟩ := detached_behind h
    obtain ⟨q₂, hi, hw⟩ := move_behind h hf hl hn₁ hp₁
    rw [hput, detach_single hL] at hq₁
    have hn : q.nextAt x.handle = first some (handles b) none := h.next_eq_behind
    have hl := h.toChained
    rw [List.append_cons] at hl
    obtain ⟨r, hr, hra⟩ := notAbove_spec hl
    obtain ⟨s, hs, hsb⟩ := notBelow_spec hl
    have hacc : (r && s) = true ↔ Accepted Priority.compare x (a ++ [p]) b := by
      rw [Bool.and_eq_true, hra, hsb, Accepted]
    have hr' : q.notAbove x.data (some p.handle) = some r := by simpa using hr
    rw [← hn] at hs
    have hres : resettled x (a ++ [p]) b =
        resettle Priority.compare Priority.compareNew x (a ++ [p]) b := by
      cases a <;> simp [resettled]
    rw [hres]
    by_cases hok : (r && s) = true
    · refine ⟨q, ?_, ?_⟩
      · simp only [settleSingle, hc, if_neg hcx, hfind, Option.bind_eq_bind, Option.bind_some,
          getNext_eq hv, hr', hs, hok, if_true]
        rfl
      · rw [resettle, if_pos (hacc.mp hok)]
        rwa [List.append_cons] at h
    · have hpv : (q.putNext x.handle none).Valid p.handle :=
        valid_putNext.mpr (h.valid (by simp))
      have hpe : p.handle ≠ x.handle := fun he => h.not_mem_behind (by simp [he])
      have hpn : (q.putNext x.handle none).nextAt p.handle = some x.handle := by
        rw [nextAt_putNext hv, Function.update_of_ne hpe, h.next_eq]
        rfl
      refine ⟨q₂, ?_, ?_⟩
      · rw [← hi, hq₁]
        simp only [settleSingle, hc, if_neg hcx, hfind, Option.bind_eq_bind, Option.bind_some,
          getNext_eq hv, hr', hs, hok, takeNext_eq hv]
        simp [replaceNext, getNext_eq hpv, hpn]
      · rw [resettle, if_neg fun ha => hok (hacc.mpr ha)]
        simpa using hw

theorem settleSingle_spec (hL : ¬ L.hasPrev = true) (h : q.WF (a ++ x :: b)) : ∃ q' l',
    q.settleSingle x.handle x.data = some q' ∧ q'.WF l' ∧
      Settled Priority.compare Priority.compareNew x (a ++ b) l' := by
  obtain ⟨q', hq', hw⟩ := settleSingle_eq hL h
  exact ⟨q', _, hq', hw, settled_resettled⟩

variable {f : D → D × Bool}

theorem updateNode_stay (h : q.WF (a ++ e :: b)) (hf : (f e.data).2 = false) :
    ∃ q', q.updateNode e.handle f = some q' ∧ q'.WF (a ++ ⟨e.handle, (f e.data).1⟩ :: b) := by
  refine ⟨_, ?_, h.putData (f e.data).1⟩
  simp [updateNode, h.data e (by simp), hf]

theorem updateNode_eq (h : q.WF (a ++ e :: b)) (hf : (f e.data).2 = true) :
    q.updateNode e.handle f = if L.hasPrev then
        (q.putData e.handle (f e.data).1).settleDual e.handle (f e.data).1
      else (q.putData e.handle (f e.data).1).settleSingle e.handle (f e.data).1 := by
  simp [updateNode, h.data e (by simp), hf]

theorem updateNode_settle (h : q.WF (a ++ e :: b)) (hf : (f e.data).2 = true) :
    ∃ q' l', q.updateNode e.handle f = some q' ∧ q'.WF l' ∧
      Settled Priority.compare Priority.compareNew ⟨e.handle, (f e.data).1⟩ (a ++ b) l' := by
  have hw := h.putData (f e.data).1
  rw [updateNode_eq h hf]
  by_cases hL : L.hasPrev = true
  · rw [if_pos hL]
    exact settleDual_spec (x := ⟨e.handle, (f e.data).1⟩) hL hw
  · rw [if_neg hL]
    exact settleSingle_spec (x := ⟨e.handle, (f e.data).1⟩) hL hw

end Update

section Iter

theorem iterLoop_spec : ∀ {b : List (Entry D)} {fuel : ℕ}, b.length ≤ fuel →
    (∀ e ∈ b, q.Valid e.handle) → Follows some q.nextAt (handles b) none →
    q.iterLoop fuel (first some (handles b) none) = some (handles b)
  | [], fuel, _, _, _ => by cases fuel <;> rfl
  | e :: b, fuel + 1, hle, hv, hf => by
    have hn : q.nextAt e.handle = first some (handles b) none := hf.1
    have hr := iterLoop_spec (Nat.le_of_succ_le_succ hle) (fun f hf => hv f (by simp [hf])) hf.2
    simp [iterLoop, getNext_eq (hv e (by simp)), hn, hr]

theorem WF.iterAt_none (h : q.WF l) : q.iterAt none = some (l.map Entry.handle) := by
  have hr := iterLoop_spec h.length_le (fun e he => h.valid he) h.chain.follows
  rwa [← h.head_eq] at hr

theorem WF.iterAt_some (h : q.WF (a ++ e :: b)) :
    q.iterAt (some e.handle) = some ((e :: b).map Entry.handle) := by
  have hf := h.chain.follows
  have hle := h.length_le
  rw [handles_append, follows_append] at hf
  rw [List.length_append] at hle
  exact iterLoop_spec (b := e :: b) (by omega)
    (fun f hfm => h.valid (List.mem_append_right a hfm)) hf.2

theorem first_eq_head? : first some (handles l) none = l.head?.map Entry.handle := by
  cases l <;> rfl

theorem WF.firstItem (h : q.WF l) : q.firstItem = some (l.head?.map Entry.handle) := by
  have hh := h.head_eq
  cases l with
  | nil => simp [BoxQueue.firstItem, show q.head = none from hh]
  | cons e b =>
    have hv : q.Valid e.handle := h.valid (by simp)
    simp [BoxQueue.firstItem, show q.head = some e.handle from hh, getNext_eq hv]

end Iter

instance [Priority D] : LawfulQueue (BoxQueue L A D) D where
  Rep := WF
  rep_default := .default
  nodup h := h.nodup
  enqueue_spec d h := enqueue_spec h d
  dequeue_spec h := dequeue_spec h
  getByHandle_spec h he := h.data _ he
  iterAt_none h := h.iterAt_none
  iterAt_some h := h.iterAt_some
  isEmpty_spec {q l} h := by
    change some q.head.isNone = _
    rw [h.head_eq]
    cases l <;> rfl
  updateNode_stay _ h hf := updateNode_stay h hf
  updateNode_settle _ h hf := updateNode_settle h hf
  head_spec h := h.firstItem
  headHandle_spec h := congrArg some (h.head_eq.trans first_eq_head?)
  getNextHandle_spec {q a b e} h := by
    have hv : q.Valid e.handle := h.valid (by simp)
    change q.getNext e.handle = _
    rw [getNext_eq hv, h.next_eq, first_eq_head?]
  store_spec {q a b e} f h := by
    refine ⟨_, ?_, h.putData (f e.data)⟩
    simp [PriorityQueue.store, h.data e (by simp)]

end PriorityLock.BoxQueue
