import Mathlib.Data.List.Basic
import Mathlib.Logic.Function.Basic

/-! # Linked lists in a store

A store of links represents a list when each cell's forward link refers to the
following cell and, for doubly linked cells, each backward link to the one
before. The lemmas split both facts at a cell and let a write to a cell outside
the list go unnoticed.
-/

namespace PriorityLock.Links

variable {ι κ : Type*} (ref : ι → κ)

def first : List ι → κ → κ
  | [], q => q
  | i :: _, _ => ref i

def last : κ → List ι → κ
  | q, [] => q
  | _, i :: l => last (ref i) l

/-- Each cell's forward link refers to the next cell, the last one's is `q`. -/
def Follows (next : ι → κ) : List ι → κ → Prop
  | [], _ => True
  | i :: l, q => next i = first ref l q ∧ Follows next l q

/-- Each cell's backward link refers to the cell before it, the first one's is `q`. -/
def Precedes (prev : ι → κ) : κ → List ι → Prop
  | _, [] => True
  | q, i :: l => prev i = q ∧ Precedes prev (ref i) l

variable {ref} {next next' prev prev' : ι → κ} {q : κ} {i : ι} {l a b : List ι}

@[simp] theorem first_nil : first ref [] q = q := rfl
@[simp] theorem first_cons : first ref (i :: l) q = ref i := rfl
@[simp] theorem last_nil : last ref q [] = q := rfl
@[simp] theorem last_cons : last ref q (i :: l) = last ref (ref i) l := rfl
@[simp] theorem follows_nil : Follows ref next [] q := trivial
@[simp] theorem precedes_nil : Precedes ref prev q [] := trivial

@[simp] theorem follows_cons :
    Follows ref next (i :: l) q ↔ next i = first ref l q ∧ Follows ref next l q := Iff.rfl

@[simp] theorem precedes_cons :
    Precedes ref prev q (i :: l) ↔ prev i = q ∧ Precedes ref prev (ref i) l := Iff.rfl

@[simp] theorem first_append : first ref (a ++ b) q = first ref a (first ref b q) := by
  cases a <;> rfl

@[simp] theorem last_append : last ref q (a ++ b) = last ref (last ref q a) b := by
  induction a generalizing q with
  | nil => rfl
  | cons i a ih => exact ih

@[simp] theorem follows_append :
    Follows ref next (a ++ b) q ↔ Follows ref next a (first ref b q) ∧ Follows ref next b q := by
  induction a with
  | nil => simp
  | cons i a ih => simp [ih, and_assoc]

@[simp] theorem precedes_append :
    Precedes ref prev q (a ++ b) ↔ Precedes ref prev q a ∧ Precedes ref prev (last ref q a) b := by
  induction a generalizing q with
  | nil => simp
  | cons i a ih => simp [ih, and_assoc]

theorem Follows.congr (h : Follows ref next l q) (hn : ∀ i ∈ l, next' i = next i) :
    Follows ref next' l q := by
  induction l with
  | nil => trivial
  | cons i l ih =>
    exact ⟨(hn i (by simp)).trans h.1, ih h.2 fun j hj => hn j (by simp [hj])⟩

theorem Precedes.congr (h : Precedes ref prev q l) (hn : ∀ i ∈ l, prev' i = prev i) :
    Precedes ref prev' q l := by
  induction l generalizing q with
  | nil => trivial
  | cons i l ih =>
    exact ⟨(hn i (by simp)).trans h.1, ih h.2 fun j hj => hn j (by simp [hj])⟩

theorem first_mem (ref : ι → κ) (q : κ) (h : l ≠ []) : ∃ i ∈ l, first ref l q = ref i := by
  cases l with
  | nil => exact absurd rfl h
  | cons i l => exact ⟨i, by simp, rfl⟩

theorem Follows.next_mem (h : Follows ref next l q) (hi : i ∈ l) :
    next i = q ∨ ∃ j ∈ l, next i = ref j := by
  induction l with
  | nil => simp at hi
  | cons j l ih =>
    rcases List.mem_cons.mp hi with rfl | hi
    · rcases eq_or_ne l [] with rfl | hl
      · exact Or.inl h.1
      · obtain ⟨k, hk, he⟩ := first_mem ref q hl
        exact Or.inr ⟨k, by simp [hk], h.1.trans he⟩
    · rcases ih h.2 hi with he | ⟨k, hk, he⟩
      · exact Or.inl he
      · exact Or.inr ⟨k, by simp [hk], he⟩

theorem Follows.next_ne (hr : Function.Injective ref) (h : Follows ref next l q)
    (hq : ref i ≠ q) (hi : i ∉ l.tail) {j : ι} (hj : j ∈ l) : next j ≠ ref i := by
  induction l with
  | nil => simp at hj
  | cons k l ih =>
    intro hc
    rcases List.mem_cons.mp hj with rfl | hj
    · cases l with
      | nil => exact hq (hc.symm.trans h.1)
      | cons m l => exact hi (by simp [hr (hc.symm.trans h.1)])
    · exact ih h.2 (fun hm => hi (List.mem_of_mem_tail hm)) hj hc

theorem Follows.eq_of_next_eq (hr : Function.Injective ref) (hd : (a ++ i :: b).Nodup)
    (h : Follows ref next (a ++ i :: b) q) (hq : ref i ≠ q) {j : ι}
    (hj : j ∈ a ++ i :: b) (he : next j = ref i) : a.getLast? = some j := by
  induction a with
  | nil => exact absurd he (h.next_ne hr hq (List.nodup_cons.mp hd).1 hj)
  | cons k a ih =>
    obtain ⟨hk, hf⟩ := h
    rcases List.mem_cons.mp hj with rfl | hjm
    · cases a with
      | nil => rfl
      | cons m a =>
        have hmi : m = i := hr (hk.symm.trans he)
        simp [hmi] at hd
    · have hl := ih (List.nodup_cons.mp hd).2 hf hjm
      cases a with
      | nil => simp at hl
      | cons m a => simpa using hl

/-- From `head` the forward links pass exactly through the cells of `l`, and the backward
links, where cells have them, lead back. -/
structure Chain (ref : ι → κ) (nil : κ) (dual : Prop) (head : κ) (next prev : ι → κ)
    (l : List ι) : Prop where
  nodup : l.Nodup
  head_eq : head = first ref l nil
  follows : Follows ref next l nil
  precedes : dual → Precedes ref prev nil l

namespace Chain

variable {nil head : κ} {dual : Prop} {x : ι}

theorem congr (h : Chain ref nil dual head next prev l) (hn : ∀ i ∈ l, next' i = next i)
    (hp : dual → ∀ i ∈ l, prev' i = prev i) : Chain ref nil dual head next' prev' l where
  nodup := h.nodup
  head_eq := h.head_eq
  follows := h.follows.congr hn
  precedes hd := (h.precedes hd).congr (hp hd)

theorem empty : Chain ref nil dual nil next prev [] where
  nodup := .nil
  head_eq := rfl
  follows := trivial
  precedes _ := trivial

theorem next_eq (h : Chain ref nil dual head next prev (a ++ x :: b)) :
    next x = first ref b nil :=
  ((follows_append.mp h.follows).2).1

theorem prev_eq (h : Chain ref nil dual head next prev (a ++ x :: b)) (hd : dual) :
    prev x = last ref nil a :=
  ((precedes_append.mp (h.precedes hd)).2).1

end Chain

variable [DecidableEq ι] {v nil head : κ} {dual : Prop}

@[simp] theorem follows_update (h : i ∉ l) :
    Follows ref (Function.update next i v) l q ↔ Follows ref next l q := by
  have hn : ∀ j ∈ l, Function.update next i v j = next j := fun j hj =>
    Function.update_of_ne (by rintro rfl; exact h hj) v next
  exact ⟨fun hf => hf.congr fun j hj => (hn j hj).symm, fun hf => hf.congr hn⟩

@[simp] theorem precedes_update (h : i ∉ l) :
    Precedes ref (Function.update prev i v) q l ↔ Precedes ref prev q l := by
  have hn : ∀ j ∈ l, Function.update prev i v j = prev j := fun j hj =>
    Function.update_of_ne (by rintro rfl; exact h hj) v prev
  exact ⟨fun hf => hf.congr fun j hj => (hn j hj).symm, fun hf => hf.congr hn⟩

def relink (prev : ι → κ) : Option ι → κ → ι → κ
  | none, _ => prev
  | some i, v => Function.update prev i v

theorem relink_of_not_mem {j : ι} (h : j ∉ l) : relink prev l.head? v j = prev j := by
  cases l with
  | nil => rfl
  | cons i l =>
    have hj : j ≠ i := fun he => h (by simp [he])
    exact Function.update_of_ne hj v prev

theorem precedes_relink_of_disjoint (h : ∀ i ∈ a, i ∉ l) :
    Precedes ref (relink prev l.head? v) q a ↔ Precedes ref prev q a := by
  have hn : ∀ i ∈ a, relink prev l.head? v i = prev i := fun i hi => relink_of_not_mem (h i hi)
  exact ⟨fun hf => hf.congr fun i hi => (hn i hi).symm, fun hf => hf.congr hn⟩

/-- Redirecting the first backward link moves the place a list starts behind. -/
theorem Precedes.relink (h : Precedes ref prev q l) (hd : l.Nodup) :
    Precedes ref (relink prev l.head? v) v l := by
  cases l with
  | nil => trivial
  | cons i l =>
    change Precedes ref (Function.update prev i v) v (i :: l)
    exact ⟨Function.update_self i v prev, (precedes_update (List.nodup_cons.mp hd).1).mpr h.2⟩

namespace Chain

variable {p x : ι}

/-- Link a new cell in behind a cell of the chain. -/
theorem insert_behind (h : Chain ref nil dual head next prev (a ++ p :: b))
    (hx : x ∉ a ++ p :: b) :
    Chain ref nil dual head
      (Function.update (Function.update next x (first ref b nil)) p (ref x))
      (Function.update (relink prev b.head? (ref x)) x (ref p)) (a ++ p :: x :: b) := by
  obtain ⟨hd, hh, hf, hp⟩ := h
  simp only [List.mem_append, List.mem_cons, not_or] at hx
  obtain ⟨hxa, hxp, hxb⟩ := hx
  obtain ⟨hda, hdb, hab⟩ := List.nodup_append.mp hd
  obtain ⟨hpb, hdb⟩ := List.nodup_cons.mp hdb
  have hpa : p ∉ a := fun hm => hab p hm p (by simp) rfl
  have hba : ∀ i ∈ a, i ∉ b := fun i hi hm => hab i hi i (by simp [hm]) rfl
  refine ⟨?_, by simpa using hh, ?_, fun hdual => ?_⟩
  · rw [List.nodup_append]
    refine ⟨hda, by simp [hpb, hdb, hxb, Ne.symm hxp], ?_⟩
    intro i hi j hj he
    subst he
    rcases List.mem_cons.mp hj with rfl | hj
    · exact hpa hi
    · rcases List.mem_cons.mp hj with rfl | hj
      · exact hxa hi
      · exact hba i hi hj
  · simp only [follows_append, follows_cons, first_cons] at hf ⊢
    simp [hf, hpa, hpb, hxa, hxb, hxp]
  · have hpd := hp hdual
    simp only [precedes_append, precedes_cons] at hpd ⊢
    refine ⟨?_, ?_, Function.update_self _ _ _, ?_⟩
    · rw [precedes_update hxa, precedes_relink_of_disjoint hba]
      exact hpd.1
    · rw [Function.update_of_ne (Ne.symm hxp), relink_of_not_mem hpb]
      exact hpd.2.1
    · rw [precedes_update hxb]
      exact hpd.2.2.relink hdb

theorem insert_front (h : Chain ref nil dual head next prev l) (hx : x ∉ l) :
    Chain ref nil dual (ref x) (Function.update next x (first ref l nil))
      (Function.update (relink prev l.head? (ref x)) x nil) (x :: l) where
  nodup := List.nodup_cons.mpr ⟨hx, h.nodup⟩
  head_eq := rfl
  follows := ⟨Function.update_self _ _ _, (follows_update hx).mpr h.follows⟩
  precedes hd := ⟨Function.update_self _ _ _,
    (precedes_update hx).mpr ((h.precedes hd).relink h.nodup)⟩

theorem remove_head (h : Chain ref nil dual head next prev (x :: b)) :
    Chain ref nil dual (first ref b nil) next (relink prev b.head? nil) b where
  nodup := (List.nodup_cons.mp h.nodup).2
  head_eq := rfl
  follows := h.follows.2
  precedes hd := (h.precedes hd).2.relink (List.nodup_cons.mp h.nodup).2

/-- Unlink the cell behind a cell of the chain. -/
theorem remove_behind (h : Chain ref nil dual head next prev (a ++ p :: x :: b)) :
    Chain ref nil dual head (Function.update next p (first ref b nil))
      (relink prev b.head? (ref p)) (a ++ p :: b) := by
  obtain ⟨hd, hh, hf, hp⟩ := h
  have hd' : (a ++ p :: b).Nodup :=
    hd.sublist (((List.sublist_cons_self x b).cons_cons p).append_left a)
  obtain ⟨-, hdb, hab⟩ := List.nodup_append.mp hd'
  obtain ⟨hpb, hdb⟩ := List.nodup_cons.mp hdb
  have hpa : p ∉ a := fun hm => hab p hm p (by simp) rfl
  have hba : ∀ i ∈ a, i ∉ b := fun i hi hm => hab i hi i (by simp [hm]) rfl
  refine ⟨hd', by simpa using hh, ?_, fun hdual => ?_⟩
  · simp only [follows_append, follows_cons, first_cons] at hf ⊢
    simp [hf, hpa, hpb]
  · have hpd := hp hdual
    simp only [precedes_append, precedes_cons] at hpd ⊢
    refine ⟨?_, ?_, hpd.2.2.2.relink hdb⟩
    · rw [precedes_relink_of_disjoint hba]
      exact hpd.1
    · rw [relink_of_not_mem hpb]
      exact hpd.2.1

end Chain

end PriorityLock.Links
