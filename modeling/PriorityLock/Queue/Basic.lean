import Mathlib.Data.List.Nodup
import PriorityLock.Lists.Placement
import PriorityLock.Priority

/-! # The priority queue interface

`PriorityQueue` is the trait as the mutex and the semaphore use it. A result
`none` of an operation is undefined behaviour, a panic or a loop that does not
end. A queue is lawful when it represents a list of entries on which each
operation acts as specified, whatever the two comparisons answer.
-/

namespace PriorityLock

open Placement

/-- The two node types of each queue. -/
inductive Link | single | dual
  deriving DecidableEq, Repr

def Link.hasPrev : Link → Bool
  | .single => false
  | .dual => true

/-- What a handle, a shared handle or a reference to an entry designates: the byte
offset of an arena slot or the address of a box. -/
abbrev Handle := ℕ

/-- A queued entry with the handle that `enqueue` returned for it. -/
structure Entry (D : Type) where
  handle : Handle
  data : D
  deriving DecidableEq, Repr

instance {D : Type} [Priority D] : Priority (Entry D) where
  compare a b := Priority.compare a.data b.data
  compareNew a b := Priority.compareNew a.data b.data

instance {D : Type} [Priority D] [LawfulPriority D] : LawfulPriority (Entry D) where
  trans := transCmp_comap (Priority.compare (P := D)) Entry.data
  agree a b h := LawfulPriority.agree a.data b.data h

theorem LawfulPriority.agree_entry {D : Type} [Priority D] [LawfulPriority D] (x : Entry D)
    (l : List (Entry D)) : Agree Priority.compare Priority.compareNew x l :=
  fun e _ h => LawfulPriority.agree x e h

def handles {D : Type} (l : List (Entry D)) : List Handle := l.map Entry.handle

def lookup {D : Type} (l : List (Entry D)) (h : Handle) : Option (Entry D) :=
  l.find? (·.handle = h)

/-- The entries with other handles. -/
def without {D : Type} (l : List (Entry D)) (h : Handle) : List (Entry D) :=
  l.filter (·.handle ≠ h)

def relabel {D : Type} (l : List (Entry D)) (h : Handle) (d : D) : List (Entry D) :=
  l.map fun e => if e.handle = h then ⟨h, d⟩ else e

section Handles

variable {D : Type} {e : Entry D} {a b l : List (Entry D)} {h : Handle}

@[simp] theorem handles_nil : handles ([] : List (Entry D)) = [] := rfl
@[simp] theorem handles_cons : handles (e :: l) = e.handle :: handles l := rfl
@[simp] theorem handles_append : handles (a ++ b) = handles a ++ handles b := List.map_append

theorem mem_handles (h : e ∈ l) : e.handle ∈ handles l := List.mem_map_of_mem h

/-- An entry with another handle than the one in the middle is one of the others. -/
theorem mem_of_ne_middle {f : Entry D} (hf : f ∈ a ++ e :: b) (hne : e.handle ≠ f.handle) :
    f ∈ a ++ b := by
  rcases List.mem_append.mp hf with hf | hf
  · exact List.mem_append_left b hf
  rcases List.mem_cons.mp hf with rfl | hf
  · exact absurd rfl hne
  · exact List.mem_append_right a hf

theorem mem_of_lookup (hl : lookup l h = some e) : e ∈ l ∧ e.handle = h :=
  ⟨List.mem_of_find?_eq_some hl, by simpa using List.find?_some hl⟩

theorem not_mem_of_lookup (hl : lookup l h = none) : h ∉ handles l := by
  intro hm
  obtain ⟨e, he, rfl⟩ := List.mem_map.mp hm
  have hne := List.find?_eq_none.mp hl e he
  simp at hne

theorem lookup_of_not_mem (hh : h ∉ handles l) : lookup l h = none := by
  cases hl : lookup l h with
  | none => rfl
  | some e =>
    obtain ⟨he, rfl⟩ := mem_of_lookup hl
    exact absurd (mem_handles he) hh

theorem lookup_of_mem (hn : (handles l).Nodup) (he : e ∈ l) : lookup l e.handle = some e := by
  cases hl : lookup l e.handle with
  | none => exact absurd (mem_handles he) (not_mem_of_lookup hl)
  | some f =>
    obtain ⟨hf, hh⟩ := mem_of_lookup hl
    exact congrArg some (List.inj_on_of_nodup_map hn hf he hh)

theorem handles_without : handles (without l h) = (handles l).filter (· ≠ h) := by
  induction l with
  | nil => rfl
  | cons e l ih =>
    by_cases he : e.handle = h
    · simpa [without, he] using ih
    · simpa [without, he] using ih

theorem mem_without : e ∈ without l h ↔ e ∈ l ∧ e.handle ≠ h := by
  simp [without]

@[simp] theorem handles_relabel (d : D) : handles (relabel l h d) = handles l := by
  induction l with
  | nil => rfl
  | cons e l ih =>
    rw [handles_cons, ← ih]
    by_cases he : e.handle = h
    · simp [relabel, he]
    · simp [relabel, he]

theorem mem_relabel {d : D} (he : e ∈ relabel l h d) : e = ⟨h, d⟩ ∨ e ∈ l := by
  obtain ⟨f, hf, rfl⟩ := List.mem_map.mp he
  by_cases hh : f.handle = h
  · exact Or.inl (if_pos hh)
  · rw [if_neg hh]
    exact Or.inr hf

theorem without_append : without (a ++ b) h = without a h ++ without b h := List.filter_append a b

theorem without_of_not_mem (hh : h ∉ handles l) : without l h = l :=
  List.filter_eq_self.mpr fun _ he => decide_eq_true fun heq => hh (heq ▸ mem_handles he)

theorem without_middle (hn : (handles (a ++ e :: b)).Nodup) :
    without (a ++ e :: b) e.handle = a ++ b := by
  rw [handles_append, handles_cons] at hn
  obtain ⟨he, -⟩ := List.nodup_cons.mp (List.nodup_middle.mp hn)
  rw [← handles_append] at he
  have hcons : without (e :: b) e.handle = without b e.handle := List.filter_cons_of_neg (by simp)
  rw [without_append, hcons, ← without_append, without_of_not_mem he]

theorem lookup_append (hl : lookup a h = some e) : lookup (a ++ b) h = some e := by
  unfold lookup at hl ⊢
  rw [List.find?_append, hl, Option.some_or]

theorem lookup_without {x : Handle} (hne : h ≠ x) : lookup (without l x) h = lookup l h := by
  rw [lookup, without, List.find?_filter]
  congr 1
  funext e
  by_cases he : e.handle = h <;> simp [he, hne]

theorem lookup_relabel {x : Handle} {d : D} (hne : h ≠ x) :
    lookup (relabel l x d) h = lookup l h := by
  induction l with
  | nil => rfl
  | cons e l ih =>
    unfold lookup relabel at ih ⊢
    rw [List.map_cons, List.find?_cons, List.find?_cons, ih]
    by_cases he : e.handle = x
    · simp [he, hne.symm]
    · simp [he]

theorem lookup_relabel_self {d : D} (hh : h ∈ handles l) :
    lookup (relabel l h d) h = some ⟨h, d⟩ := by
  induction l with
  | nil => cases hh
  | cons e l ih =>
    unfold lookup relabel at ih ⊢
    rw [List.map_cons, List.find?_cons]
    by_cases he : e.handle = h
    · simp [he]
    · rcases List.mem_cons.mp hh with heq | hl
      · exact absurd heq.symm he
      · simpa [he] using ih hl

theorem relabel_self {d : D} (hn : (handles l).Nodup) (hl : lookup l h = some ⟨h, d⟩) :
    relabel l h d = l := by
  refine (List.map_congr_left fun e he => ?_).trans (List.map_id l)
  by_cases hh : e.handle = h
  · obtain rfl : e = ⟨h, d⟩ := Option.some.inj ((lookup_of_mem hn he).symm.trans (hh ▸ hl))
    exact if_pos rfl
  · exact if_neg hh

theorem lookup_concat {d : D} (hh : h ∉ handles l) : lookup (l ++ [⟨h, d⟩]) h = some ⟨h, d⟩ := by
  have hl : l.find? (·.handle = h) = none :=
    List.find?_eq_none.mpr fun e he heq => hh (of_decide_eq_true heq ▸ mem_handles he)
  simp [lookup, List.find?_append, hl]

theorem without_concat {d : D} (hh : h ∉ handles l) : without (l ++ [⟨h, d⟩]) h = l := by
  rw [without_append, without_of_not_mem hh]
  simp [without]

end Handles

/-- At most one entry came or went. -/
inductive Changed {D : Type} (l : List (Entry D)) : List (Entry D) → Prop
  | same : Changed l l
  | arrive (h : Handle) (d : D) : Changed l (l ++ [⟨h, d⟩])
  | depart (h : Handle) : Changed l (without l h)

theorem Changed.lookup_eq {D : Type} {l l' : List (Entry D)} (hc : Changed l l') {h : Handle}
    (h₁ : h ∈ handles l) (h₂ : h ∈ handles l') : lookup l' h = lookup l h := by
  cases hc with
  | same => rfl
  | arrive x d =>
    cases hl : lookup l h with
    | none => exact absurd h₁ (not_mem_of_lookup hl)
    | some e => exact lookup_append hl
  | depart x =>
    obtain ⟨e, hm, rfl⟩ := List.mem_map.mp h₂
    exact lookup_without (mem_without.mp hm).2

section Arrivals

variable {D : Type} {e f : Entry D} {A : List Handle}

/-- One entry arrived before another. -/
def Before (A : List Handle) (e f : Entry D) : Prop := [e.handle, f.handle].Sublist A

theorem Before.concat (h : Before A e f) (x : Handle) : Before (A ++ [x]) e f :=
  h.trans (List.sublist_append_left A [x])

theorem Before.filter (h : Before A e f) {x : Handle} (he : e.handle ≠ x) (hf : f.handle ≠ x) :
    Before (A.filter (· ≠ x)) e f := by
  have hs := List.Sublist.filter (· ≠ x) h
  rwa [List.filter_eq_self.mpr (by simp [he, hf])] at hs

/-- Who is there has arrived before who comes. -/
theorem before_last (he : e.handle ∈ A) : Before (A ++ [f.handle]) e f :=
  (List.singleton_sublist.mpr he).append (List.Sublist.refl [f.handle])

theorem Before.asymm (hn : A.Nodup) (h : Before A e f) : ¬Before A f e := by
  intro h'
  unfold Before at h h'
  induction A with
  | nil => simp at h
  | cons x A ih =>
    obtain ⟨hx, hn⟩ := List.nodup_cons.mp hn
    rcases List.sublist_cons_iff.mp h with ha | ⟨l, hl, ha⟩
    · rcases List.sublist_cons_iff.mp h' with hb | ⟨l, hl, -⟩
      · exact ih hn ha hb
      · have hf : f.handle ∈ A := ha.subset (by simp)
        exact hx ((List.cons.inj hl).1 ▸ hf)
    · obtain ⟨hex, rfl⟩ := List.cons.inj hl
      rcases List.sublist_cons_iff.mp h' with hb | ⟨l, hl, -⟩
      · have he : e.handle ∈ A := hb.subset (by simp)
        exact hx (hex ▸ he)
      · have hf : f.handle ∈ A := ha.subset (by simp)
        exact hx ((List.cons.inj hl).1 ▸ hf)

end Arrivals

/-- The trait `PriorityQueue`. An item that an iterator yields is a reference and is
given by its handle; `store` writes through such a reference. -/
class PriorityQueue (Q : Type) (D : outParam Type) where
  default : Q
  enqueue : Q → D → Option (Handle × Q)
  dequeue : Q → Handle → Option ((Option D × Option Handle) × Q)
  getByHandle : Q → Handle → Option D
  iterAt : Q → Option Handle → Option (List Handle)
  isEmpty : Q → Option Bool
  updateNode : Q → Handle → (D → D × Bool) → Option Q
  head : Q → Option (Option Handle)
  headHandle : Q → Option (Option Handle)
  getNextHandle : Q → Handle → Option (Option Handle)
  store : Q → Handle → (D → D) → Option Q

class ConstDefault (Q : Type) where
  DEFAULT : Q

namespace PriorityQueue

variable {Q D : Type} [PriorityQueue Q D]

/-- `iter`: the whole queue from its head. -/
def iter (q : Q) : Option (List Handle) := iterAt q none

/-- The entries that `iter` yields, in its order. -/
def entries (q : Q) : Option (List (Entry D)) :=
  (iter q).bind fun hs => hs.mapM fun h => (getByHandle q h).map (Entry.mk h)

end PriorityQueue

open PriorityQueue in
/-- `Rep q l`: the queue holds exactly the entries `l`, in this order. -/
class LawfulQueue (Q : Type) (D : outParam Type) [Priority D] [PriorityQueue Q D] where
  Rep : Q → List (Entry D) → Prop
  rep_default : Rep (default : Q) []
  nodup : ∀ {q : Q} {l}, Rep q l → (l.map Entry.handle).Nodup
  enqueue_spec : ∀ {q : Q} {l} (d : D), Rep q l → ∃ h q' l', enqueue q d = some (h, q') ∧
    Rep q' l' ∧ h ∉ l.map Entry.handle ∧ Placed Priority.compareNew ⟨h, d⟩ l l'
  dequeue_spec : ∀ {q : Q} {a b} {e : Entry D}, Rep q (a ++ e :: b) → ∃ q',
    dequeue q e.handle =
      some ((a.getLast?.map Entry.data, b.head?.map Entry.handle), q') ∧ Rep q' (a ++ b)
  getByHandle_spec : ∀ {q : Q} {l} {e : Entry D}, Rep q l → e ∈ l →
    getByHandle q e.handle = some e.data
  iterAt_none : ∀ {q : Q} {l}, Rep q l → iterAt q none = some (l.map Entry.handle)
  iterAt_some : ∀ {q : Q} {a b} {e : Entry D}, Rep q (a ++ e :: b) →
    iterAt q (some e.handle) = some ((e :: b).map Entry.handle)
  isEmpty_spec : ∀ {q : Q} {l}, Rep q l → isEmpty q = some l.isEmpty
  updateNode_stay : ∀ {q : Q} {a b} {e : Entry D} (f : D → D × Bool), Rep q (a ++ e :: b) →
    (f e.data).2 = false → ∃ q', updateNode q e.handle f = some q' ∧
      Rep q' (a ++ ⟨e.handle, (f e.data).1⟩ :: b)
  updateNode_settle : ∀ {q : Q} {a b} {e : Entry D} (f : D → D × Bool), Rep q (a ++ e :: b) →
    (f e.data).2 = true → ∃ q' l', updateNode q e.handle f = some q' ∧ Rep q' l' ∧
      Settled Priority.compare Priority.compareNew ⟨e.handle, (f e.data).1⟩ (a ++ b) l'
  head_spec : ∀ {q : Q} {l}, Rep q l → head q = some (l.head?.map Entry.handle)
  headHandle_spec : ∀ {q : Q} {l}, Rep q l → headHandle q = some (l.head?.map Entry.handle)
  getNextHandle_spec : ∀ {q : Q} {a b} {e : Entry D}, Rep q (a ++ e :: b) →
    getNextHandle q e.handle = some (b.head?.map Entry.handle)
  store_spec : ∀ {q : Q} {a b} {e : Entry D} (f : D → D), Rep q (a ++ e :: b) →
    ∃ q', store q e.handle f = some q' ∧ Rep q' (a ++ ⟨e.handle, f e.data⟩ :: b)

namespace LawfulQueue

open PriorityQueue

variable {Q D : Type} [Priority D] [PriorityQueue Q D] [LawfulQueue Q D] {q : Q}
  {l : List (Entry D)}

theorem mapM_getByHandle (hq : Rep q l) {l' : List (Entry D)} (hl : ∀ e ∈ l', e ∈ l) :
    (l'.map Entry.handle).mapM (fun h => (getByHandle q h).map (Entry.mk h)) = some l' := by
  induction l' with
  | nil => rfl
  | cons e l' ih =>
    have he : getByHandle q e.handle = some e.data := getByHandle_spec hq (hl e (by simp))
    have hr := ih fun f hf => hl f (by simp [hf])
    simp [List.mapM_cons, he, hr]

theorem entries_eq (hq : Rep q l) : entries q = some l := by
  simp only [entries, iter, iterAt_none hq, Option.bind_some]
  exact mapM_getByHandle hq fun _ he => he

end LawfulQueue

end PriorityLock
