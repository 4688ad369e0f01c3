import Mathlib.Data.List.Basic
import Mathlib.Data.List.Perm.Basic
import Mathlib.Data.List.Pairwise

/-! # Placing an element in a list kept by comparison

A list is descending when no element is below a later one. A new element is
placed between two neighbours that its own comparison accepts, and a changed
element settles between neighbours that either comparison accepts. Both keep
the list descending as soon as the two comparisons agree off ties.
-/

namespace PriorityLock.Placement

variable {α : Type*} {cmp cn : α → α → Ordering} {x : α} {l l' a b : List α}

/-- No element is below a later one. -/
def Descending (cmp : α → α → Ordering) (l : List α) : Prop :=
  l.Pairwise fun a b => (cmp a b).isGE

/-- Insert in front of the first element that the new one is not below, else last. -/
def scan (cn : α → α → Ordering) (x : α) : List α → List α
  | [] => [x]
  | e :: l => if (cn x e).isGE then x :: e :: l else e :: scan cn x l

/-- The new element stands behind one it is not above and in front of one it is
not below, unless it was put directly behind an equal one. -/
def Placed (cn : α → α → Ordering) (x : α) (l l' : List α) : Prop :=
  ∃ a b, l = a ++ b ∧ l' = a ++ x :: b ∧ (∀ e ∈ a.getLast?, cn x e ≠ .gt) ∧
    ∀ e ∈ b.head?, cn x e = .lt → ∃ t ∈ a.getLast?, cn x t = .eq

/-- A changed element stands between neighbours that one of its two comparisons accepts. -/
def Settled (cmp cn : α → α → Ordering) (x : α) (l l' : List α) : Prop :=
  ∃ a b, l = a ++ b ∧ l' = a ++ x :: b ∧
    (∀ e ∈ a.getLast?, cn x e = .gt → cmp x e ≠ .gt) ∧
    ∀ e ∈ b.head?, cn x e = .lt → cmp x e ≠ .lt

/-- Both neighbours accept a changed element by the plain comparison. -/
def Accepted (cmp : α → α → Ordering) (x : α) (a b : List α) : Prop :=
  (∀ e ∈ a.getLast?, (cmp x e).isLE) ∧ ∀ e ∈ b.head?, (cmp x e).isGE

instance (cmp : α → α → Ordering) (x : α) (a b : List α) : Decidable (Accepted cmp x a b) :=
  inferInstanceAs (Decidable (_ ∧ _))

/-- A changed element stays where its neighbours accept it, else a scan from the head
places it. -/
def resettle (cmp cn : α → α → Ordering) (x : α) (a b : List α) : List α :=
  if Accepted cmp x a b then a ++ x :: b else scan cn x (a ++ b)

/-- The comparison of a new element is the plain one off ties. -/
def Agree (cmp cn : α → α → Ordering) (x : α) (l : List α) : Prop :=
  ∀ e ∈ l, cmp x e ≠ .eq → cn x e = cmp x e

theorem Agree.isGE (h : Agree cmp cn x l) {e : α} (he : e ∈ l) (hn : cn x e ≠ .lt) :
    (cmp x e).isGE := by
  rw [Ordering.isGE_iff_ne_lt]
  intro hc
  exact hn ((h e he (by simp [hc])).trans hc)

theorem Agree.isLE (h : Agree cmp cn x l) {e : α} (he : e ∈ l) (hn : cn x e ≠ .gt) :
    (cmp x e).isLE := by
  rw [Ordering.isLE_iff_ne_gt]
  intro hc
  exact hn ((h e he (by simp [hc])).trans hc)

theorem Agree.eq_of_eq (h : Agree cmp cn x l) {e : α} (he : e ∈ l) (hn : cn x e = .eq) :
    cmp x e = .eq := by
  by_contra hc
  exact hc ((h e he hc).symm.trans hn)

theorem Descending.sublist (h : Descending cmp l) (hs : l'.Sublist l) : Descending cmp l' :=
  List.Pairwise.sublist hs h

theorem Descending.left (h : Descending cmp (a ++ b)) : Descending cmp a :=
  h.sublist (List.sublist_append_left a b)

theorem Descending.right (h : Descending cmp (a ++ b)) : Descending cmp b :=
  h.sublist (List.sublist_append_right a b)

theorem Descending.erase {b : List α} (h : Descending cmp (a ++ x :: b)) :
    Descending cmp (a ++ b) :=
  h.sublist ((List.sublist_cons_self x b).append_left a)

/-- Only the two neighbours have to be compared. -/
theorem Descending.insert [Std.TransCmp cmp] (h : Descending cmp (a ++ b))
    (ha : ∀ e ∈ a.getLast?, (cmp e x).isGE) (hb : ∀ e ∈ b.head?, (cmp x e).isGE) :
    Descending cmp (a ++ x :: b) := by
  obtain ⟨hpa, hpb, hab⟩ := List.pairwise_append.mp h
  have hxb : ∀ f ∈ b, (cmp x f).isGE := by
    cases b with
    | nil => simp
    | cons e b =>
      have hxe : (cmp x e).isGE := hb e rfl
      intro f hf
      rcases List.mem_cons.mp hf with rfl | hf
      · exact hxe
      · exact Std.TransCmp.isGE_trans hxe (List.rel_of_pairwise_cons hpb hf)
  have hax : ∀ f ∈ a, (cmp f x).isGE := by
    rcases List.eq_nil_or_concat' a with rfl | ⟨a, e, rfl⟩
    · simp
    · have hex : (cmp e x).isGE := ha e (by simp)
      intro f hf
      rcases List.mem_append.mp hf with hf | hf
      · have hfe : (cmp f e).isGE := (List.pairwise_append.mp hpa).2.2 f hf e (by simp)
        exact Std.TransCmp.isGE_trans hfe hex
      · rw [List.mem_singleton.mp hf]
        exact hex
  refine List.pairwise_append.mpr ⟨hpa, List.pairwise_cons.mpr ⟨hxb, hpb⟩, ?_⟩
  intro f hf g hg
  rcases List.mem_cons.mp hg with rfl | hg
  · exact hax f hf
  · exact hab f hf g hg

theorem Descending.replace [Std.TransCmp cmp] {y : α} (h : Descending cmp (a ++ x :: b))
    (hxy : cmp y x = .eq) : Descending cmp (a ++ y :: b) := by
  obtain ⟨ha, hb, hab⟩ := List.pairwise_append.mp h
  obtain ⟨hxb, hb⟩ := List.pairwise_cons.mp hb
  refine List.pairwise_append.mpr ⟨ha, List.pairwise_cons.mpr ⟨?_, hb⟩, ?_⟩
  · intro f hf
    rw [Std.TransCmp.congr_left hxy]
    exact hxb f hf
  · intro f hf g hg
    rcases List.mem_cons.mp hg with rfl | hg
    · rw [Std.TransCmp.congr_right hxy]
      exact hab f hf x (by simp)
    · exact hab f hf g (by simp [hg])

theorem Descending.head_isGE [Std.TransCmp cmp] {e : α} (h : Descending cmp (e :: l)) :
    ∀ f ∈ e :: l, (cmp e f).isGE := by
  intro f hf
  rcases List.mem_cons.mp hf with rfl | hf
  · simp [Std.ReflCmp.compare_self]
  · exact List.rel_of_pairwise_cons h hf

theorem Placed.perm (h : Placed cn x l l') : l'.Perm (x :: l) := by
  obtain ⟨a, b, rfl, rfl, _⟩ := h
  exact List.perm_middle

theorem Settled.perm (h : Settled cmp cn x l l') : l'.Perm (x :: l) := by
  obtain ⟨a, b, rfl, rfl, _⟩ := h
  exact List.perm_middle

theorem Placed.descending [Std.TransCmp cmp] (h : Placed cn x l l')
    (hg : Agree cmp cn x l) (hd : Descending cmp l) : Descending cmp l' := by
  obtain ⟨a, b, rfl, rfl, ha, hb⟩ := h
  apply hd.insert
  · intro e he
    have hm : e ∈ a ++ b := List.mem_append_left _ (List.mem_of_getLast? he)
    exact Std.OrientedCmp.isGE_iff_isLE.mpr (hg.isLE hm (ha e he))
  · intro e he
    have hm : e ∈ a ++ b := List.mem_append_right _ (List.mem_of_head? he)
    by_cases hc : cn x e = .lt
    · -- directly behind an equal element: what follows that one follows the new one
      obtain ⟨t, ht, heq⟩ := hb e he hc
      have hta : t ∈ a := List.mem_of_getLast? ht
      have hxt : cmp x t = .eq := hg.eq_of_eq (List.mem_append_left _ hta) heq
      have hte : (cmp t e).isGE :=
        (List.pairwise_append.mp hd).2.2 t hta e (List.mem_of_head? he)
      rw [Std.TransCmp.congr_left hxt]
      exact hte
    · exact hg.isGE hm hc

theorem Settled.descending [Std.TransCmp cmp] (h : Settled cmp cn x l l')
    (hg : Agree cmp cn x l) (hd : Descending cmp l) : Descending cmp l' := by
  obtain ⟨a, b, rfl, rfl, ha, hb⟩ := h
  apply hd.insert
  · intro e he
    have hm : e ∈ a ++ b := List.mem_append_left _ (List.mem_of_getLast? he)
    rw [Std.OrientedCmp.isGE_iff_isLE, Ordering.isLE_iff_ne_gt]
    intro hc
    exact ha e he ((hg e hm (by simp [hc])).trans hc) hc
  · intro e he
    have hm : e ∈ a ++ b := List.mem_append_right _ (List.mem_of_head? he)
    rw [Ordering.isGE_iff_ne_lt]
    intro hc
    exact hb e he ((hg e hm (by simp [hc])).trans hc) hc

theorem scan_split (cn : α → α → Ordering) (x : α) (l : List α) :
    ∃ a b, l = a ++ b ∧ scan cn x l = a ++ x :: b ∧ (∀ e ∈ a, cn x e = .lt) ∧
      ∀ e ∈ b.head?, (cn x e).isGE := by
  induction l with
  | nil => exact ⟨[], [], by simp [scan]⟩
  | cons f l ih =>
    by_cases hf : (cn x f).isGE
    · exact ⟨[], f :: l, by simp [scan, hf]⟩
    · obtain ⟨a, b, rfl, hs, ha, hb⟩ := ih
      refine ⟨f :: a, b, rfl, by simp [scan, hf, hs], ?_, hb⟩
      intro e he
      rcases List.mem_cons.mp he with rfl | he
      · simpa using hf
      · exact ha e he

/-- Scanning from behind an element that is not below the new one places it. -/
theorem placed_scan_after (h : ∀ e ∈ a.getLast?, cn x e = .lt) :
    Placed cn x (a ++ b) (a ++ scan cn x b) := by
  obtain ⟨c, d, rfl, hs, hc, hd⟩ := scan_split cn x b
  refine ⟨a ++ c, d, by simp, by simp [hs], ?_, ?_⟩
  · intro e he
    have hlt : cn x e = .lt := by
      rcases List.eq_nil_or_concat' c with rfl | ⟨c, t, rfl⟩
      · exact h e (by simpa using he)
      · have het : t = e := by simpa using he
        exact hc e (by simp [het])
    simp [hlt]
  · intro e he hlt
    have := hd e he
    simp [hlt] at this

theorem placed_scan (cn : α → α → Ordering) (x : α) (l : List α) :
    Placed cn x l (scan cn x l) :=
  placed_scan_after (a := []) (by simp)

theorem placed_tie {e : α} (h : cn x e = .eq) :
    Placed cn x (a ++ e :: b) (a ++ e :: x :: b) :=
  ⟨a ++ [e], b, by simp, by simp, by simp [h], by simp [h]⟩

/-- Scanning from behind an element that a changed one may stand behind settles it. -/
theorem settled_scan_after (h : ∀ e ∈ a.getLast?, cn x e = .gt → cmp x e ≠ .gt) :
    Settled cmp cn x (a ++ b) (a ++ scan cn x b) := by
  obtain ⟨c, d, rfl, hs, hc, hd⟩ := scan_split cn x b
  refine ⟨a ++ c, d, by simp, by simp [hs], ?_, ?_⟩
  · intro e he hgt
    rcases List.eq_nil_or_concat' c with rfl | ⟨c, t, rfl⟩
    · exact h e (by simpa using he) hgt
    · have het : t = e := by simpa using he
      simp [hc e (by simp [het])] at hgt
  · intro e he hlt
    have := hd e he
    simp [hlt] at this

theorem settled_scan (cmp cn : α → α → Ordering) (x : α) (l : List α) :
    Settled cmp cn x l (scan cn x l) :=
  settled_scan_after (a := []) (by simp)

theorem settled_stay (ha : ∀ e ∈ a.getLast?, cmp x e ≠ .gt) (hb : ∀ e ∈ b.head?, cmp x e ≠ .lt) :
    Settled cmp cn x (a ++ b) (a ++ x :: b) :=
  ⟨a, b, rfl, rfl, fun e he _ => ha e he, fun e he _ => hb e he⟩

theorem Accepted.settled (h : Accepted cmp x a b) : Settled cmp cn x (a ++ b) (a ++ x :: b) := by
  apply settled_stay
  · exact fun e he => Ordering.isLE_iff_ne_gt.mp (h.1 e he)
  · exact fun e he => Ordering.isGE_iff_ne_lt.mp (h.2 e he)

theorem settled_resettle : Settled cmp cn x (a ++ b) (resettle cmp cn x a b) := by
  unfold resettle
  split
  · next h => exact h.settled
  · exact settled_scan cmp cn x (a ++ b)

theorem map_scan {β : Type*} {f : β → α} {y : β} (m : List β) :
    (scan (fun a b => cn (f a) (f b)) y m).map f = scan cn (f y) (m.map f) := by
  induction m with
  | nil => rfl
  | cons e m ih =>
    by_cases h : (cn (f y) (f e)).isGE
    · simp [scan, h]
    · simp [scan, h, ih]

theorem accepted_map {β : Type*} {f : β → α} {y : β} (m m' : List β) :
    Accepted cmp (f y) (m.map f) (m'.map f) ↔ Accepted (fun a b => cmp (f a) (f b)) y m m' := by
  simp [Accepted]

theorem map_resettle {β : Type*} {f : β → α} {y : β} (m m' : List β) :
    (resettle (fun a b => cmp (f a) (f b)) (fun a b => cn (f a) (f b)) y m m').map f =
      resettle cmp cn (f y) (m.map f) (m'.map f) := by
  simp only [resettle, accepted_map]
  split
  · simp
  · rw [map_scan, List.map_append]

theorem not_accepted_head {e : α} : ¬Accepted cmp x [] (e :: b) ↔ cmp x e = .lt := by
  simp [Accepted, Ordering.isGE_iff_ne_lt]

/-- An element above everything in the second block is placed within the first. -/
theorem Placed.within_front (h : Placed cn x (a ++ b) l') (hb : ∀ e ∈ b, cn x e = .gt) :
    ∃ a', l' = a' ++ b ∧ Placed cn x a a' := by
  obtain ⟨c, d, hs, rfl, hc, hd⟩ := h
  rcases List.append_eq_append_iff.mp hs with ⟨t, rfl, rfl⟩ | ⟨t, rfl, rfl⟩
  · rcases List.eq_nil_or_concat' t with rfl | ⟨t, e, rfl⟩
    · exact ⟨a ++ [x], by simp, a, [], by simp, rfl, by simpa using hc, by simp⟩
    · exact absurd (hb e (by simp)) (hc e (by simp))
  · refine ⟨c ++ x :: t, by simp, c, t, rfl, rfl, hc, ?_⟩
    intro e he
    exact hd e (by cases t <;> simp_all)

theorem Placed.within_back (h : Placed cn x (a ++ b) l') (ha : ∀ e ∈ a, cn x e = .lt) :
    ∃ b', l' = a ++ b' ∧ Placed cn x b b' := by
  obtain ⟨c, d, hs, rfl, hc, hd⟩ := h
  rcases List.append_eq_append_iff.mp hs with ⟨t, rfl, rfl⟩ | ⟨t, rfl, rfl⟩
  · refine ⟨t ++ x :: d, by simp, t, d, rfl, rfl, ?_, ?_⟩
    · intro e he
      exact hc e (by simpa [List.getLast?_append] using Or.inl he)
    · intro e he hlt
      obtain ⟨s, hs, heq⟩ := hd e he hlt
      rcases List.eq_nil_or_concat' t with rfl | ⟨t, f, rfl⟩
      · have := ha s (List.mem_of_getLast? (by simpa using hs))
        simp [heq] at this
      · exact ⟨s, by simpa using hs, heq⟩
  · cases t with
    | nil => exact ⟨x :: b, by simp, [], b, by simp, rfl, by simp, by
        intro e he hlt
        obtain ⟨s, hs, heq⟩ := hd e (by simpa using he) hlt
        have := ha s (by simpa using List.mem_of_getLast? hs)
        simp [heq] at this⟩
    | cons e t =>
      have hlt : cn x e = .lt := ha e (by simp)
      obtain ⟨s, hs, heq⟩ := hd e (by simp) hlt
      have := ha s (List.mem_append_left _ (List.mem_of_getLast? hs))
      simp [heq] at this

/-- An element whose comparison puts ties below older ones is placed behind all of them. -/
theorem Placed.behind_ties [Std.TransCmp cmp] (h : Placed cn x l l') (hd : Descending cmp l)
    (hn : ∀ e ∈ l, cn x e = (cmp x e).then .lt) :
    ∃ a b, l = a ++ b ∧ l' = a ++ x :: b ∧ ∀ f ∈ b, cmp x f = .gt := by
  obtain ⟨a, b, rfl, rfl, -, hb⟩ := h
  refine ⟨a, b, rfl, rfl, ?_⟩
  cases b with
  | nil => simp
  | cons g b =>
    have hg := hn g (by simp)
    have hxg : cmp x g = .gt := by
      cases hc : cmp x g with
      | gt => rfl
      | lt | eq =>
        -- only an equal neighbour may let the new element stand before a greater one
        rw [hc] at hg
        obtain ⟨t, ht, heq⟩ := hb g rfl hg
        have hnt := hn t (List.mem_append_left _ (List.mem_of_getLast? ht))
        rw [heq] at hnt
        cases hct : cmp x t <;> simp [hct] at hnt
    intro f hf
    exact Std.TransCmp.gt_of_gt_of_isGE hxg (hd.right.head_isGE f hf)

theorem Placed.before_ties [Std.TransCmp cmp] (h : Placed cn x l l') (hd : Descending cmp l)
    (hn : ∀ e ∈ l, cn x e = (cmp x e).then .gt) :
    ∃ a b, l = a ++ b ∧ l' = a ++ x :: b ∧ ∀ e ∈ a, cmp x e = .lt := by
  obtain ⟨a, b, rfl, rfl, ha, -⟩ := h
  refine ⟨a, b, rfl, rfl, ?_⟩
  rcases List.eq_nil_or_concat' a with rfl | ⟨a, t, rfl⟩
  · simp
  · have ht := hn t (by simp)
    have hxt : cmp x t = .lt := by
      cases hc : cmp x t with
      | lt => rfl
      | eq | gt =>
        rw [hc] at ht
        exact absurd ht (ha t (by simp))
    intro e he
    rcases List.mem_append.mp he with he | he
    · have het : (cmp e t).isGE :=
        (List.pairwise_append.mp hd.left).2.2 e he t (by simp)
      exact Std.TransCmp.lt_of_lt_of_isLE hxt (Std.OrientedCmp.isGE_iff_isLE.mp het)
    · rw [List.mem_singleton.mp he]
      exact hxt

/-- Placing an image places the element in front of and behind the same ones. -/
theorem Placed.of_map {β : Type*} {f : β → α} {y : β} {m : List β}
    (h : Placed cn (f y) (m.map f) l') :
    ∃ m', l' = m'.map f ∧ Placed (fun a b => cn (f a) (f b)) y m m' := by
  obtain ⟨a, b, hs, rfl, ha, hb⟩ := h
  obtain ⟨c, d, rfl, rfl, rfl⟩ := List.map_eq_append_iff.mp hs
  refine ⟨c ++ y :: d, by simp, c, d, rfl, rfl, ?_, ?_⟩
  · intro e he
    exact ha (f e) (by simpa using ⟨e, he, rfl⟩)
  · intro e he hlt
    obtain ⟨t, ht, heq⟩ := hb (f e) (by simpa using ⟨e, he, rfl⟩) hlt
    obtain ⟨u, hu, rfl⟩ : ∃ u, c.getLast? = some u ∧ f u = t := by simpa using ht
    exact ⟨u, hu, heq⟩

theorem ties_insert {tie : α → α → Prop} (h : (a ++ b).Pairwise fun e f => cmp e f = .eq → tie e f)
    (ha : ∀ e ∈ a, cmp e x = .eq → tie e x) (hb : ∀ f ∈ b, cmp x f = .eq → tie x f) :
    (a ++ x :: b).Pairwise fun e f => cmp e f = .eq → tie e f := by
  obtain ⟨hpa, hpb, hab⟩ := List.pairwise_append.mp h
  refine List.pairwise_append.mpr ⟨hpa, List.pairwise_cons.mpr ⟨hb, hpb⟩, ?_⟩
  intro e he f hf
  rcases List.mem_cons.mp hf with rfl | hf
  · exact ha e he
  · exact hab e he f hf

theorem Placed.ties_last [Std.TransCmp cmp] {tie : α → α → Prop} (h : Placed cn x l l')
    (hd : Descending cmp l) (hn : ∀ e ∈ l, cn x e = (cmp x e).then .lt)
    (ht : l.Pairwise fun e f => cmp e f = .eq → tie e f) (hx : ∀ e ∈ l, tie e x) :
    l'.Pairwise fun e f => cmp e f = .eq → tie e f := by
  obtain ⟨a, b, rfl, rfl, hb⟩ := h.behind_ties hd hn
  apply ties_insert ht
  · intro e he _
    exact hx e (List.mem_append_left b he)
  · intro f hf heq
    simp [hb f hf] at heq

theorem Placed.ties_first [Std.TransCmp cmp] {tie : α → α → Prop} (h : Placed cn x l l')
    (hd : Descending cmp l) (hn : ∀ e ∈ l, cn x e = (cmp x e).then .gt)
    (ht : l.Pairwise fun e f => cmp e f = .eq → tie e f) (hx : ∀ f ∈ l, tie x f) :
    l'.Pairwise fun e f => cmp e f = .eq → tie e f := by
  obtain ⟨a, b, rfl, rfl, ha⟩ := h.before_ties hd hn
  apply ties_insert ht
  · intro e he heq
    rw [Std.OrientedCmp.eq_comm] at heq
    simp [ha e he] at heq
  · intro f hf _
    exact hx f (List.mem_append_right a hf)

theorem Settled.within_front (h : Settled cmp cn x (a ++ b) l') (hb : ∀ e ∈ b, cn x e = .gt)
    (hb' : ∀ e ∈ b, cmp x e = .gt) : ∃ a', l' = a' ++ b ∧ Settled cmp cn x a a' := by
  obtain ⟨c, d, hs, rfl, hc, hd⟩ := h
  rcases List.append_eq_append_iff.mp hs with ⟨t, rfl, rfl⟩ | ⟨t, rfl, rfl⟩
  · rcases List.eq_nil_or_concat' t with rfl | ⟨t, e, rfl⟩
    · exact ⟨a ++ [x], by simp, a, [], by simp, rfl, by simpa using hc, by simp⟩
    · exact absurd (hb' e (by simp)) (hc e (by simp) (hb e (by simp)))
  · refine ⟨c ++ x :: t, by simp, c, t, rfl, rfl, hc, ?_⟩
    intro e he
    exact hd e (by cases t <;> simp_all)

end PriorityLock.Placement
