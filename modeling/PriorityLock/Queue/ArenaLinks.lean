import Mathlib.Data.List.Nodup
import Mathlib.Data.List.Perm.Subperm
import PriorityLock.Queue.ArenaStore
import PriorityLock.Queue.Chained

/-! # Inserting into and unlinking from an arena chain

Each path of the source that places a node or takes one out is shown to give
the chain of the list with the entry inserted or removed; the positions are
those of `scan`, of `scan` from behind a known node, or directly behind a tie.
-/

namespace PriorityLock.ArenaQueue

open Links Placement

variable {L : Link} {N : NodeLayout} {D : Type} {q q' : ArenaQueue L N D}
  {l a b : List (Entry D)} {o w : ℕ} {d : D}

/-- The arena's links and data represent the entries `l`. -/
abbrev Linked (q : ArenaQueue L N D) (l : List (Entry D)) : Prop :=
  Chained id sentinel (L.hasPrev = true) q.head q.nextAt q.prevAt q.getData l

def backLink (q : ArenaQueue L N D) (offset val : ℕ) : ArenaQueue L N D :=
  if offset = sentinel then q else q.putPrev offset val

@[simp] theorem nextAt_backLink : (q.backLink o w).nextAt = q.nextAt := by
  unfold backLink; split <;> simp

@[simp] theorem getData_backLink : (q.backLink o w).getData = q.getData := by
  unfold backLink; split <;> simp

@[simp] theorem head_backLink : (q.backLink o w).head = q.head := by
  unfold backLink; split <;> simp

@[simp] theorem valid_backLink {o' : ℕ} : (q.backLink o w).Valid o' ↔ q.Valid o' := by
  unfold backLink; split <;> simp

theorem Frame.backLink {S : List ℕ} : Frame q (q.backLink o w) S := by
  unfold ArenaQueue.backLink
  split
  · exact .refl q S
  · exact .putPrev

theorem prevAt_backLink (hL : L.hasPrev = true) (hb : ∀ e ∈ b, q.Valid e.handle) :
    (q.backLink (first id (handles b) sentinel) w).prevAt =
      relink q.prevAt (handles b).head? w := by
  cases b with
  | nil => rfl
  | cons e b =>
    have hv : q.Valid e.handle := hb e (by simp)
    simp only [backLink, handles_cons, first_cons, id, hv.ne_sentinel, if_false]
    exact prevAt_putPrev hL hv

namespace Linked

variable {e p : Entry D}

theorem valid (h : q.Linked l) {e : Entry D} (he : e ∈ l) : q.Valid e.handle :=
  valid_of_getData (h.data e he)

theorem length_le (h : q.Linked l) : l.length ≤ q.nodes.length := by
  have hv : ∀ o ∈ handles l, o % N.nodeSize = 0 ∧ o / N.nodeSize < q.nodes.length := by
    intro o ho
    obtain ⟨e, he, rfl⟩ := List.mem_map.mp ho
    have hn := h.valid he
    unfold Valid node at hn
    split at hn
    · next hm => exact ⟨hm, by simpa using hn⟩
    · simp at hn
  have hnd : ((handles l).map (· / N.nodeSize)).Nodup := by
    refine List.Nodup.map_on ?_ h.nodup
    intro x hx y hy hxy
    rw [← Nat.div_add_mod x N.nodeSize, ← Nat.div_add_mod y N.nodeSize, (hv x hx).1,
      (hv y hy).1, hxy]
  have hsub : (handles l).map (· / N.nodeSize) ⊆ List.range q.nodes.length := by
    intro i hi
    obtain ⟨o, ho, rfl⟩ := List.mem_map.mp hi
    exact List.mem_range.mpr (hv o ho).2
  simpa [handles] using (hnd.subperm hsub).length_le

end Linked

section Insert

variable [Priority D]

theorem insertLoop_spec : ∀ {b : List (Entry D)} {p fuel : ℕ}, b.length < fuel → q.Valid p →
    q.nextAt p = first id (handles b) sentinel →
    Follows id q.nextAt (handles b) sentinel →
    (∀ e ∈ b, q.getData e.handle = some e.data) →
    ∃ m t, b = m ++ t ∧ scan Priority.compareNew ⟨w, d⟩ b = m ++ ⟨w, d⟩ :: t ∧
      q.insertLoop d w fuel p =
        some (last id p (handles m), q.backLink (first id (handles t) sentinel) w)
  | [], p, fuel + 1, _, hp, hn, _, _ => by
    refine ⟨[], [], rfl, rfl, ?_⟩
    have hn' : q.nextAt p = sentinel := hn
    simp [insertLoop, getNext_eq hp, hn', backLink]
  | e :: b, p, fuel + 1, hlt, hp, hn, hf, hd => by
    have he : q.getData e.handle = some e.data := hd e (by simp)
    have hv : q.Valid e.handle := valid_of_getData he
    have hn' : q.nextAt p = e.handle := hn
    have hcn : Priority.compareNew (⟨w, d⟩ : Entry D) e = Priority.compareNew d e.data := rfl
    by_cases hc : (Priority.compareNew d e.data).isGE
    · refine ⟨[], e :: b, rfl, by simp [scan, hcn, hc], ?_⟩
      simp [insertLoop, getNext_eq hp, hn', hv.ne_sentinel, he, hc, setPrev_eq hv, backLink]
    · obtain ⟨m, t, rfl, hs, hl⟩ := insertLoop_spec (Nat.lt_of_succ_lt_succ hlt) hv hf.1
        hf.2 fun f hfm => hd f (by simp [hfm])
      refine ⟨e :: m, t, rfl, by simp [scan, hcn, hc, hs], ?_⟩
      simp [insertLoop, getNext_eq hp, hn', hv.ne_sentinel, he, hc, hl]

theorem insertAfter_spec {p : Entry D} (h : q.Linked (a ++ p :: b))
    (hlen : q.nodes.length ≤ q.size) (ho : o ∉ handles (a ++ p :: b))
    (hd : q.getData o = some d) : ∃ q', q.insertAfter d o p.handle = some q' ∧
      q'.Linked (a ++ p :: scan Priority.compareNew ⟨o, d⟩ b) ∧
      Frame q q' (o :: handles (a ++ p :: b)) := by
  have hov : q.Valid o := valid_of_getData hd
  have hle : b.length < q.size + 1 := by
    have := h.length_le
    simp at this
    omega
  have hfol : Follows id q.nextAt (handles b) sentinel := by
    have hf := h.chain.follows
    simp only [handles_append, handles_cons, follows_append, follows_cons] at hf
    exact hf.2.2
  obtain ⟨m, t, rfl, hs, hl⟩ := insertLoop_spec (w := o) (d := d) hle (h.valid (by simp))
    h.next_eq hfol fun e he => h.data e (by simp [he])
  -- the node the new one goes behind
  obtain ⟨a', p', hsplit, hp'⟩ : ∃ a' p', a ++ p :: m = a' ++ [p'] ∧
      last id p.handle (handles m) = p'.handle := by
    rcases List.eq_nil_or_concat' m with rfl | ⟨m, e, rfl⟩
    · exact ⟨a, p, rfl, rfl⟩
    · exact ⟨a ++ p :: m, e, by simp, by simp⟩
  have hlist : ∀ s, a ++ p :: (m ++ s) = a' ++ p' :: s := fun s => by
    calc a ++ p :: (m ++ s) = (a ++ p :: m) ++ s := by simp
      _ = a' ++ p' :: s := by rw [hsplit]; simp
  rw [hlist] at h ho ⊢
  have hpv : q.Valid p'.handle := h.valid (by simp)
  have hnp : q.nextAt p'.handle = first id (handles t) sentinel := h.next_eq
  rw [hs, hlist]
  let q₁ := q.backLink (first id (handles t) sentinel) o
  let q₂ := (q₁.putNext o (first id (handles t) sentinel)).putPrev o p'.handle
  have hov₁ : q₁.Valid o := by simpa [q₁] using hov
  have hpv₂ : q₂.Valid p'.handle := by simpa [q₂, q₁] using hpv
  have hg₂ : q₂.getData = q.getData := by simp [q₂, q₁]
  refine ⟨q₂.putNext p'.handle o, ?_, h.insert_behind ho ?_ ?_ ?_ ?_ ?_, ?_⟩
  · simp only [insertAfter, hl, hp', Option.bind_eq_bind, Option.bind_some]
    rw [getNext_eq (by simpa using hpv), nextAt_backLink, hnp, Option.bind_some,
      setNext_eq hov₁, Option.bind_some, setPrev_eq (valid_putNext.mpr hov₁), Option.bind_some,
      setNext_eq hpv₂]
  · rw [getData_putNext, hg₂]
    exact hd
  · simp [q₂, q₁]
  · rw [nextAt_putNext hpv₂, nextAt_putPrev, nextAt_putNext hov₁, nextAt_backLink]
    rfl
  · intro hL
    rw [prevAt_putNext, prevAt_putPrev hL (valid_putNext.mpr hov₁), prevAt_putNext,
      prevAt_backLink hL fun e he => h.valid (by simp [he])]
    rfl
  · simp [hg₂]
  · have hpm : p'.handle ∈ o :: handles (a' ++ p' :: t) := by simp
    exact ((Frame.backLink.trans (.putNext hov₁ (by simp))).trans .putPrev).trans
      (.putNext hpv₂ hpm)

/-- `insert` without a hint places the entry where a scan from the head does. -/
theorem insert_none_spec (h : q.Linked l) (hlen : q.nodes.length ≤ q.size)
    (ho : o ∉ handles l) (hd : q.getData o = some d) : ∃ q', q.insert o none = some q' ∧
      q'.Linked (scan Priority.compareNew ⟨o, d⟩ l) ∧ Frame q q' (o :: handles l) := by
  have hov : q.Valid o := valid_of_getData hd
  cases l with
  | nil =>
    have hh : q.head = sentinel := h.head_eq
    refine ⟨((({ q with head := o } : ArenaQueue L N D).putNext o sentinel).putPrev o sentinel),
      ?_, ?_, ?_⟩
    · simp [insert, hd, hh, setNext_eq (q := ({ q with head := o } : ArenaQueue L N D)) hov,
        setPrev_eq, hov]
    · refine h.insert_front ho (by simpa using hd) (by simp) ?_ ?_ (by simp)
      · rw [nextAt_putPrev, nextAt_putNext (by simpa using hov)]
        rfl
      · intro hL
        rw [prevAt_putPrev hL (by simpa using hov), prevAt_putNext]
        rfl
    · exact (Frame.head.trans (.putNext (by simpa using hov) (by simp))).trans .putPrev
  | cons e b =>
    have he : q.getData e.handle = some e.data := h.data e (by simp)
    have hv : q.Valid e.handle := h.valid (by simp)
    have hh : q.head = e.handle := h.head_eq
    have hcn : Priority.compareNew (⟨o, d⟩ : Entry D) e = Priority.compareNew d e.data := rfl
    by_cases hc : (Priority.compareNew d e.data).isGE
    · have hoe : e.handle ≠ o := fun hoe => ho (by simp [hoe])
      refine ⟨(({ q.putNext o e.handle with head := o } : ArenaQueue L N D).putPrev o
        sentinel).putPrev e.handle o, ?_, ?_, ?_⟩
      · simp [insert, hd, hh, hv.ne_sentinel, he, hc, setNext_eq hov, setPrev_eq, hov, hv]
      · rw [show scan Priority.compareNew ⟨o, d⟩ (e :: b) = ⟨o, d⟩ :: e :: b by
          simp [scan, hcn, hc]]
        refine h.insert_front ho (by simpa using hd) (by simp) ?_ ?_ (by simp)
        · rw [nextAt_putPrev, nextAt_putPrev, nextAt_mk, nextAt_putNext hov]
          rfl
        · intro hL
          rw [prevAt_putPrev hL (by simpa using hv), prevAt_putPrev hL (by simpa using hov),
            prevAt_mk, prevAt_putNext]
          exact (Function.update_comm hoe _ _ _).symm
      · exact (((Frame.putNext hov (by simp)).trans .head).trans .putPrev).trans .putPrev
    · obtain ⟨q', hi, hl, hf⟩ := insertAfter_spec (a := []) h hlen ho hd
      refine ⟨q', ?_, by simpa [scan, hcn, hc] using hl, hf⟩
      simpa [insert, hd, hh, hv.ne_sentinel, he, hc] using hi

/-- `insert` with a hint places the entry where a scan from behind the hint does. -/
theorem insert_some_spec {p : Entry D} (h : q.Linked (a ++ p :: b))
    (hlen : q.nodes.length ≤ q.size) (ho : o ∉ handles (a ++ p :: b))
    (hd : q.getData o = some d) : ∃ q', q.insert o (some p.handle) = some q' ∧
      q'.Linked (a ++ p :: scan Priority.compareNew ⟨o, d⟩ b) ∧
      Frame q q' (o :: handles (a ++ p :: b)) := by
  simpa [insert, hd] using insertAfter_spec h hlen ho hd

end Insert

section Reposition

variable [Priority D] {x p e : Entry D}

theorem reposition_behind_spec (h : q.Linked (a ++ p :: x :: b))
    (hlen : q.nodes.length ≤ q.size) : ∃ q',
    q.reposition x.handle (some p.handle) (b.head?.map Entry.handle) = some q' ∧
      q'.Linked (scan Priority.compareNew x (a ++ p :: b)) ∧
      Frame q q' (handles (a ++ p :: x :: b)) := by
  have hpv : q.Valid p.handle := h.valid (by simp)
  have hxv : q.Valid x.handle := h.valid (by simp)
  have hnx : q.nextAt x.handle = first id (handles b) sentinel := h.next_eq_behind
  have hxa : x.handle ∉ handles (a ++ p :: b) := h.not_mem_behind
  let q₁ := q.putNext p.handle (first id (handles b) sentinel)
  let q₂ := q₁.backLink (first id (handles b) sentinel) p.handle
  have hrel : q₂.Linked (a ++ p :: b) := by
    refine h.remove_behind (by simp [q₂, q₁]) ?_ ?_ (by simp [q₂, q₁])
    · intro i _
      simp only [q₂, q₁, nextAt_backLink, nextAt_putNext hpv]
    · intro hL i _
      simp only [q₂, q₁]
      rw [prevAt_backLink hL fun e he => by simpa using h.valid (by simp [he]), prevAt_putNext]
      rfl
  have hfr : Frame q q₂ (handles (a ++ p :: x :: b)) :=
    (Frame.putNext hpv (by simp)).trans .backLink
  have hdx : q₂.getData x.handle = some x.data := by
    rw [hfr.data]
    exact h.data x (by simp)
  obtain ⟨q', hi, hl, hf⟩ := insert_none_spec hrel (by rw [hfr.length, hfr.size]; exact hlen)
    hxa hdx
  refine ⟨q', ?_, hl, hfr.trans ⟨hf.length, hf.size, hf.used, hf.good, hf.valid, hf.data, ?_⟩⟩
  · rw [← hi]
    simp only [reposition, getNext_eq hxv, hnx, setNext_eq hpv, Option.bind_eq_bind,
      Option.bind_some, Option.pure_def]
    cases b with
    | nil => simp [q₂, q₁, backLink]
    | cons e b =>
      have hev : q.Valid e.handle := h.valid (by simp)
      have hs : q₁.setPrev e.handle p.handle = some q₂ := by
        rw [setPrev_eq (by simpa [q₁] using hev)]
        simp [q₂, backLink, hev.ne_sentinel]
      by_cases hL : L.hasPrev = true
      · have hpx : q₁.getPrev x.handle = some p.handle := by
          rw [getPrev_eq (by simpa [q₁] using hxv), prevAt_putNext, h.prev_eq_behind hL, id]
        change (if L.hasPrev then (q₁.getPrev x.handle).bind _ else _) = _
        rw [if_pos hL, hpx, Option.bind_some, hs, Option.bind_some]
      · have hq₂ : q₂ = q₁ := by
          simp [q₂, backLink, putPrev, hL]
        simp only [hq₂, hL]
        rfl
  · intro o ho
    refine hf.next o fun hm => ho ?_
    simp only [handles_append, handles_cons, List.mem_append, List.mem_cons] at hm ⊢
    tauto

theorem reposition_head_spec (h : q.Linked (x :: e :: b)) (hlen : q.nodes.length ≤ q.size) :
    ∃ q', q.reposition x.handle none (some e.handle) = some q' ∧
      q'.Linked (e :: scan Priority.compareNew x b) ∧ Frame q q' (handles (x :: e :: b)) := by
  have hxv : q.Valid x.handle := h.valid (by simp)
  have hev : q.Valid e.handle := h.valid (by simp)
  have hnx : q.nextAt x.handle = e.handle := Chained.next_eq (a := []) h
  have hxa : x.handle ∉ handles (e :: b) := Chained.not_mem (a := []) h
  let q₁ : ArenaQueue L N D := { q with head := e.handle }
  let q₂ := q₁.putPrev e.handle sentinel
  have hrel : q₂.Linked (e :: b) := by
    refine h.remove_head (by simp [q₂, q₁]) (by simp [q₂, q₁]) ?_ (by simp [q₂, q₁])
    intro hL i _
    simp only [q₂, q₁]
    rw [prevAt_putPrev hL (by simpa using hev), prevAt_mk]
    rfl
  have hfr : Frame q q₂ (handles (x :: e :: b)) := Frame.head.trans .putPrev
  have hdx : q₂.getData x.handle = some x.data := by
    rw [hfr.data]
    exact h.data x (by simp)
  obtain ⟨q', hi, hl, hf⟩ := insert_some_spec (a := []) hrel
    (by rw [hfr.length, hfr.size]; exact hlen) hxa hdx
  refine ⟨q', ?_, hl, hfr.trans hf⟩
  rw [← hi]
  have hs : q₁.setPrev e.handle sentinel = some q₂ := setPrev_eq (by simpa [q₁] using hev)
  simp only [reposition, getNext_eq hxv, hnx, Option.bind_eq_bind, Option.bind_some]
  change Option.bind (q₁.setPrev e.handle sentinel) _ = _
  rw [hs]
  simp [q₂, q₁]

end Reposition

end PriorityLock.ArenaQueue
