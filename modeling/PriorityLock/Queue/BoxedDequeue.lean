import PriorityLock.Queue.BoxedInsert

/-! # Removing a box

The boxes that exist are exactly the queued ones, so a dequeue frees the box
that it unlinks and no other.
-/

namespace PriorityLock.BoxQueue

open Links Placement

variable {L : Link} {A : Allocator} {D : Type} {q q' : BoxQueue L A D} {l a b : List (Entry D)}
  {e p x : Entry D} {i o : Handle} {d : D}

section Unlink

/-- The state once a node's link is taken and the next node's link back is set. -/
def detach (q : BoxQueue L A D) (ptr : Handle) (prev : Option Handle) : BoxQueue L A D :=
  (q.putNext ptr none).relinkBack (q.nextAt ptr) prev

theorem valid_detach {v : Option Handle} : (q.detach o v).Valid i ↔ q.Valid i :=
  valid_relinkBack.trans valid_putNext

theorem nextAt_detach {v : Option Handle} (ho : q.Valid o) :
    (q.detach o v).nextAt = Function.update q.nextAt o none := by
  unfold detach
  rw [nextAt_relinkBack, nextAt_putNext ho]

theorem getData_detach {v : Option Handle} : (q.detach o v).getData = q.getData :=
  getData_relinkBack.trans getData_putNext

theorem head_detach {v : Option Handle} : (q.detach o v).head = q.head := head_relinkBack

theorem frame_detach {v : Option Handle} : Frame q (q.detach o v) :=
  Frame.putNext.trans .relinkBack

theorem prevAt_detach {v : Option Handle} (hL : L.hasPrev = true) (h : q.Linked (a ++ x :: b)) :
    (q.detach x.handle v).prevAt = relink q.prevAt (handles b).head? v := by
  unfold detach
  rw [h.next_eq, prevAt_relinkBack hL fun f hf => valid_putNext.mpr (h.valid (by simp [hf])),
    prevAt_putNext]

theorem detach_single {v : Option Handle} (hL : ¬ L.hasPrev = true) :
    q.detach o v = q.putNext o none := by
  unfold detach relinkBack
  split
  · simp [putPrev, hL]
  · rfl

theorem linkBack_detach (h : q.Linked (a ++ x :: b)) {v : Option Handle} :
    (q.putNext x.handle none).linkBack (q.nextAt x.handle) v = some (q.detach x.handle v) := by
  unfold detach
  rw [h.next_eq]
  exact linkBack_eq fun f hf => valid_putNext.mpr (h.valid (by simp [hf]))

theorem linked_detach_head (h : q.Linked (x :: b)) (hh : q'.head = q.nextAt x.handle)
    (hn : ∀ i ∈ handles b, q'.nextAt i = (q.detach x.handle none).nextAt i)
    (hp : L.hasPrev = true → ∀ i ∈ handles b,
      q'.prevAt i = (q.detach x.handle none).prevAt i)
    (hg : ∀ i ∈ handles b, q'.getData i = q.getData i) : q'.Linked b := by
  have hxv : q.Valid x.handle := h.valid (by simp)
  have hne : ∀ i ∈ handles b, i ≠ x.handle := fun i hi he => h.not_mem (a := []) (he ▸ hi)
  refine h.remove_head (hh.trans (h.next_eq (a := []))) ?_ ?_ hg
  · intro i hi
    rw [hn i hi, nextAt_detach hxv, Function.update_of_ne (hne i hi)]
  · intro hL i hi
    rw [hp hL i hi, prevAt_detach (a := []) hL h]

theorem linked_detach_behind (h : q.Linked (a ++ p :: x :: b)) (hh : q'.head = q.head)
    (hn : ∀ i ∈ handles (a ++ p :: b), q'.nextAt i =
      Function.update (q.detach x.handle (some p.handle)).nextAt p.handle (q.nextAt x.handle) i)
    (hp : L.hasPrev = true → ∀ i ∈ handles (a ++ p :: b),
      q'.prevAt i = (q.detach x.handle (some p.handle)).prevAt i)
    (hg : ∀ i ∈ handles (a ++ p :: b), q'.getData i = q.getData i) :
    q'.Linked (a ++ p :: b) := by
  have hxv : q.Valid x.handle := h.valid (by simp)
  refine h.remove_behind hh ?_ ?_ hg
  · intro i hi
    have hne : i ≠ x.handle := fun he => h.not_mem_behind (he ▸ hi)
    rw [hn i hi, nextAt_detach hxv, h.next_eq_behind]
    by_cases hip : i = p.handle
    · rw [hip, Function.update_self, Function.update_self]
    · rw [Function.update_of_ne hip, Function.update_of_ne hip, Function.update_of_ne hne]
  · intro hL i hi
    rw [List.append_cons] at h
    rw [hp hL i hi, prevAt_detach hL h]

/-- The walk of a single-link queue finds the node before a queued one. -/
theorem findPrev_spec : ∀ {m : List (Entry D)} {c fuel : ℕ}, m.length < fuel →
    (∀ f ∈ m ++ [p], q.Valid f.handle) → Follows some q.nextAt (handles (m ++ p :: x :: b)) none →
    some c = first some (handles (m ++ [p])) none → x.handle ∉ handles (m ++ [p]) →
    q.findPrev x.handle fuel c = some (some p.handle)
  | [], c, fuel + 1, _, hv, hf, hc, _ => by
    obtain rfl : c = p.handle := Option.some_inj.mp hc
    have hn : q.nextAt p.handle = some x.handle := hf.1
    simp [findPrev, getNext_eq (hv p (by simp)), hn]
  | f :: m, c, fuel + 1, hlt, hv, hf, hc, hx => by
    obtain rfl : c = f.handle := Option.some_inj.mp hc
    obtain ⟨g, hg, hgn⟩ : ∃ g ∈ m ++ [p], first some (handles (m ++ [p])) none = some g.handle := by
      cases m with
      | nil => exact ⟨p, by simp, rfl⟩
      | cons g m => exact ⟨g, by simp, rfl⟩
    have hn : q.nextAt f.handle = some g.handle := by
      have hfn : q.nextAt f.handle = first some (handles (m ++ p :: x :: b)) none := hf.1
      rw [hfn, ← hgn]
      cases m <;> rfl
    have hgx : g.handle ≠ x.handle := fun he => hx (by
      rw [List.cons_append, handles_cons, ← he]
      exact List.mem_cons_of_mem _ (mem_handles hg))
    have hr := findPrev_spec (Nat.lt_of_succ_lt_succ hlt) (fun f hf => hv f (by simp_all)) hf.2
      hgn.symm fun hm => hx (List.mem_cons_of_mem _ hm)
    simp [findPrev, getNext_eq (hv f (by simp)), hn, hgx, hr]

theorem WF.findPrev (h : q.WF (a ++ p :: x :: b)) : ∃ c, q.head = some c ∧
    q.findPrev x.handle (q.used.length + 1) c = some (some p.handle) := by
  have hh := h.head_eq
  have hle := h.length_le
  have hx := h.not_mem_behind
  obtain ⟨c, hc⟩ : ∃ c, first some (handles (a ++ [p])) none = some c := by
    cases a with
    | nil => exact ⟨_, rfl⟩
    | cons f a => exact ⟨_, rfl⟩
  refine ⟨c, ?_, findPrev_spec (m := a) ?_ ?_ h.chain.follows hc.symm ?_⟩
  · rw [hh, ← hc]
    cases a <;> rfl
  · simp at hle
    omega
  · intro f hf
    apply h.valid
    simp only [List.mem_append, List.mem_cons] at hf ⊢
    tauto
  · intro hm
    apply hx
    simp only [handles_append, handles_cons, handles_nil, List.mem_append, List.mem_cons] at hm ⊢
    tauto

end Unlink

section Dequeue

theorem WF.free {l' : List (Entry D)} (h : q.WF l) (hp : (handles l).Perm (o :: handles l'))
    (hl : q'.Linked l') (hu : q'.used = q.used.filter (· ≠ o))
    (hv : ∀ i, q'.Valid i ↔ i ≠ o ∧ q.Valid i) : q'.WF l' := by
  have hn := hp.nodup_iff.mp h.nodup
  have hm : ∀ i, i ∈ handles l' ↔ i ≠ o ∧ i ∈ handles l := by
    intro i
    rw [hp.mem_iff, List.mem_cons]
    constructor
    · intro hi
      have hio : i ≠ o := fun he => (List.nodup_cons.mp hn).1 (he ▸ hi)
      exact ⟨hio, Or.inr hi⟩
    · rintro ⟨hio, he | hi⟩
      · exact absurd he hio
      · exact hi
  refine ⟨hl, ?_, ?_⟩
  · intro i
    rw [hu, hm, ← h.used]
    simp [and_comm]
  · intro i
    rw [hv, hm, h.live]

/-- Both node types leave the same state when the head is dequeued. -/
theorem dequeue_head (h : q.WF (e :: b)) : ∃ q', q.dequeue e.handle =
    some ((none, b.head?.map Entry.handle), q') ∧ q'.WF b := by
  have hv : q.Valid e.handle := h.valid (by simp)
  have hh : q.head = some e.handle := h.head_eq
  have hn : q.nextAt e.handle = b.head?.map Entry.handle := by
    rw [h.next_eq (a := [])]
    cases b <;> rfl
  let q₁ := q.detach e.handle none
  have hv₁ : q₁.Valid e.handle := valid_detach.mpr hv
  have hn₁ : q₁.nextAt e.handle = none := by
    rw [nextAt_detach hv, Function.update_self]
  have hu : e.handle ∈ q.used := (h.used _).mpr (by simp)
  have hu₁ : q₁.used = q.used := frame_detach.used
  have hst : q₁.storeHead (q.nextAt e.handle) =
      some { q₁.free e.handle with head := q.nextAt e.handle } := by
    have hd := dropBox_some hv₁ hn₁ (hu₁ ▸ hu)
    simp only [storeHead, show q₁.head = some e.handle from head_detach.trans hh, hd]
    rfl
  have hne : ∀ i ∈ handles b, i ≠ e.handle := fun i hi he => h.not_mem (a := []) (he ▸ hi)
  refine ⟨{ q₁.free e.handle with head := q.nextAt e.handle }, ?_, ?_⟩
  · rw [← hn]
    by_cases hL : L.hasPrev = true
    · have hp : q.prevAt e.handle = none := h.prev_eq (a := []) hL
      have hlb := linkBack_detach (a := []) h.toChained (v := none)
      simp only [dequeue, if_pos hL, takeNext_eq hv, Option.bind_eq_bind, Option.bind_some,
        getPrev_eq (valid_putNext.mpr hv), prevAt_putNext, hp, hlb]
      change (q₁.storeHead _).bind _ = _
      rw [hst]
      rfl
    · have hq₁ : q.putNext e.handle none = q₁ := (detach_single hL).symm
      simp only [dequeue, if_neg hL, if_pos hh, takeNext_eq hv, Option.bind_eq_bind,
        Option.bind_some, hq₁, hst]
      rfl
  · refine h.free (.refl _) ?_ (congrArg _ hu₁) fun i => ?_
    · apply linked_detach_head h.toChained rfl
      · exact fun i hi => nextAt_free (hne i hi)
      · exact fun _ i hi => prevAt_free (hne i hi)
      · exact fun i hi => (getData_free (hne i hi)).trans (congrFun getData_detach i)
    · rw [valid_mk, valid_free, valid_detach]

theorem dequeue_behind (h : q.WF (a ++ p :: e :: b)) : ∃ q', q.dequeue e.handle =
    some ((some p.data, b.head?.map Entry.handle), q') ∧ q'.WF (a ++ p :: b) := by
  have hv : q.Valid e.handle := h.valid (by simp)
  have hpv : q.Valid p.handle := h.valid (by simp)
  have hne : ∀ i ∈ handles (a ++ p :: b), i ≠ e.handle := fun i hi he =>
    h.not_mem_behind (he ▸ hi)
  have hpe : p.handle ≠ e.handle := hne _ (by simp)
  have hn : q.nextAt e.handle = b.head?.map Entry.handle := by
    rw [h.next_eq_behind]
    cases b <;> rfl
  let n := q.nextAt e.handle
  let q₁ := q.detach e.handle (some p.handle)
  have hv₁ : q₁.Valid e.handle := valid_detach.mpr hv
  have hn₁ : q₁.nextAt = Function.update q.nextAt e.handle none := nextAt_detach hv
  have hu : e.handle ∈ q.used := (h.used _).mpr (by simp)
  have hu₁ : q₁.used = q.used := frame_detach.used
  have hpv₁ : q₁.Valid p.handle := valid_detach.mpr hpv
  have hpv₂ : (q₁.free e.handle).Valid p.handle := valid_free.mpr ⟨hpe, hpv₁⟩
  have hnp : q₁.nextAt p.handle = some e.handle := by
    rw [hn₁, Function.update_of_ne hpe, h.next_eq]
    rfl
  let q₂ := (q₁.free e.handle).putNext p.handle n
  have hst : q₁.storeNext p.handle n = some q₂ := by
    have hd := dropBox_some hv₁ (by rw [hn₁, Function.update_self]) (hu₁ ▸ hu)
    simp only [storeNext, getNext_eq hpv₁, hnp, Option.bind_eq_bind, Option.bind_some, hd,
      getNext_eq hpv₂]
    rfl
  have hpd : q₂.getData p.handle = some p.data := by
    simp only [q₂, getData_putNext]
    rw [getData_free hpe]
    exact (congrFun getData_detach _).trans (h.data p (by simp))
  refine ⟨q₂, ?_, ?_⟩
  · rw [← hn]
    by_cases hL : L.hasPrev = true
    · have hp : q.prevAt e.handle = some p.handle := h.prev_eq_behind hL
      have hl := h.toChained
      rw [List.append_cons] at hl
      have hlb := linkBack_detach hl (v := some p.handle)
      simp only [dequeue, if_pos hL, takeNext_eq hv, Option.bind_eq_bind, Option.bind_some,
        getPrev_eq (valid_putNext.mpr hv), prevAt_putNext, hp, hlb]
      change (q₁.storeNext p.handle n).bind _ = _
      rw [hst, Option.bind_some, hpd]
      rfl
    · obtain ⟨c, hc, hfind⟩ := h.findPrev
      have hce : ¬ some c = some e.handle := by
        rw [← hc, h.head_eq]
        cases a with
        | nil => simpa using hpe
        | cons f a => simpa using hne f.handle (by simp)
      have hq₁ : q.putNext e.handle none = q₁ := (detach_single hL).symm
      have hn₂ : q₂.getNext p.handle = some n := by
        rw [getNext_eq (valid_putNext.mpr hpv₂), nextAt_putNext hpv₂, Function.update_self]
      simp only [dequeue, if_neg hL, hc, if_neg hce, hfind, takeNext_eq hv,
        Option.bind_eq_bind, Option.bind_some, hq₁]
      change (q₁.storeNext p.handle n).bind _ = _
      rw [hst, Option.bind_some, hpd, Option.bind_some, hn₂]
      rfl
  · have hperm : (handles (a ++ p :: e :: b)).Perm (e.handle :: handles (a ++ p :: b)) := by
      have hm : ((a ++ [p]) ++ e :: b).Perm (e :: ((a ++ [p]) ++ b)) := List.perm_middle
      simpa [handles] using hm.map Entry.handle
    refine h.free hperm ?_ (congrArg _ hu₁) fun i => ?_
    · refine linked_detach_behind h.toChained head_detach ?_ ?_ ?_
      · intro i hi
        simp only [q₂]
        rw [nextAt_putNext hpv₂]
        by_cases hip : i = p.handle
        · rw [hip, Function.update_self, Function.update_self]
        · rw [Function.update_of_ne hip, Function.update_of_ne hip, nextAt_free (hne i hi)]
      · intro _ i hi
        simp only [q₂, prevAt_putNext]
        exact prevAt_free (hne i hi)
      · intro i hi
        simp only [q₂, getData_putNext]
        exact (getData_free (hne i hi)).trans (congrFun getData_detach i)
    · rw [valid_putNext, valid_free, valid_detach]

theorem dequeue_spec (h : q.WF (a ++ e :: b)) : ∃ q', q.dequeue e.handle =
    some ((a.getLast?.map Entry.data, b.head?.map Entry.handle), q') ∧ q'.WF (a ++ b) := by
  rcases List.eq_nil_or_concat' a with rfl | ⟨a, p, rfl⟩
  · exact dequeue_head h
  · rw [← List.append_cons] at h ⊢
    simpa using dequeue_behind h

end Dequeue

end PriorityLock.BoxQueue
