import PriorityLock.Queue.Plain

/-! # Queues that differ in their handles

Two queues are twins when one has the entries of the other under other handles.
What they answer differs in the handles too, and exact twins stay twins.
-/

namespace PriorityLock

open Placement PriorityQueue

variable {D : Type} {f g : Handle → Handle} {e : Entry D} {a b l : List (Entry D)} {h x : Handle}

def Entry.rename (f : Handle → Handle) (e : Entry D) : Entry D := ⟨f e.handle, e.data⟩

section Rename

@[simp] theorem rename_handle : (e.rename f).handle = f e.handle := rfl
@[simp] theorem rename_data : (e.rename f).data = e.data := rfl

@[simp] theorem handles_rename : handles (l.map (Entry.rename f)) = (handles l).map f := by
  rw [handles, handles, List.map_map, List.map_map]
  rfl

theorem rename_congr (h : ∀ x ∈ handles l, g x = f x) :
    l.map (Entry.rename g) = l.map (Entry.rename f) := by
  apply List.map_congr_left
  intro e he
  rw [Entry.rename, Entry.rename, h _ (mem_handles he)]

theorem rename_update (h' : Handle) (hh : h ∉ handles l) :
    l.map (Entry.rename (Function.update f h h')) = l.map (Entry.rename f) := by
  apply rename_congr
  intro x hx
  apply Function.update_of_ne
  rintro rfl
  exact hh hx

@[simp] theorem head?_rename :
    (l.map (Entry.rename f)).head?.map Entry.handle = (l.head?.map Entry.handle).map f := by
  cases l <;> rfl

@[simp] theorem getLast?_rename :
    (l.map (Entry.rename f)).getLast?.map Entry.data = l.getLast?.map Entry.data := by
  rw [List.getLast?_map, Option.map_map]
  rfl

abbrev Apart (f : Handle → Handle) (l : List (Entry D)) : Prop := Set.InjOn f {x | x ∈ handles l}

theorem Apart.handle_eq (hf : Apart f l) (hh : h ∈ handles l) (he : e ∈ l) :
    f e.handle = f h ↔ e.handle = h :=
  ⟨fun heq => hf (mem_handles he) hh heq, congrArg f⟩

theorem Apart.lookup (hf : Apart f l) (hh : h ∈ handles l) :
    lookup (l.map (Entry.rename f)) (f h) = (lookup l h).map (Entry.rename f) := by
  rw [PriorityLock.lookup, PriorityLock.lookup, List.find?_map]
  congr 1
  apply List.find?_congr
  intro e he
  simp [hf.handle_eq hh he]

theorem Apart.without (hf : Apart f l) (hh : h ∈ handles l) :
    without (l.map (Entry.rename f)) (f h) = (without l h).map (Entry.rename f) := by
  rw [PriorityLock.without, PriorityLock.without, List.filter_map]
  congr 1
  apply List.filter_congr
  intro e he
  simp [hf.handle_eq hh he]

theorem Apart.relabel {d : D} (hf : Apart f l) (hh : h ∈ handles l) :
    relabel (l.map (Entry.rename f)) (f h) d = (relabel l h d).map (Entry.rename f) := by
  rw [PriorityLock.relabel, PriorityLock.relabel, List.map_map, List.map_map]
  apply List.map_congr_left
  intro e he
  by_cases heq : e.handle = h
  · simp [heq, Entry.rename]
  · simp [hf.handle_eq hh he, heq]

theorem idxOf_map {hs : List Handle} (hf : Set.InjOn f {x | x ∈ hs}) (hh : h ∈ hs) :
    (hs.map f).idxOf (f h) = hs.idxOf h := by
  induction hs with
  | nil => rfl
  | cons y hs ih =>
    by_cases heq : y = h
    · simp [heq]
    · have hm : h ∈ hs := (List.mem_cons.mp hh).resolve_left (Ne.symm heq)
      have hne : f y ≠ f h := fun hc => heq (hf List.mem_cons_self hh hc)
      have hf' : Set.InjOn f {x | x ∈ hs} := fun x hx z hz =>
        hf (List.mem_cons_of_mem y hx) (List.mem_cons_of_mem y hz)
      rw [List.map_cons, List.idxOf_cons_ne _ hne, List.idxOf_cons_ne _ heq, ih hf' hm]

end Rename

variable {Q Q' : Type} [Priority D] [PriorityQueue Q D] [PriorityQueue Q' D] [LawfulQueue Q D]
  [LawfulQueue Q' D] {q : Q} {q' : Q'}

/-- The entries of one queue, under other handles those of the other one. -/
structure Twins (f : Handle → Handle) (l : List (Entry D)) (q : Q) (q' : Q') : Prop where
  left : LawfulQueue.Rep q l
  right : LawfulQueue.Rep q' (l.map (Entry.rename f))

theorem Twins.apart (h : Twins f l q q') : Apart f l := by
  have hn := LawfulQueue.nodup h.right
  rw [List.map_map] at hn
  intro x hx y hy hxy
  obtain ⟨d, hd, rfl⟩ := List.mem_map.mp hx
  obtain ⟨e, he, rfl⟩ := List.mem_map.mp hy
  exact congrArg Entry.handle (List.inj_on_of_nodup_map hn hd he hxy)

theorem Twins.start : Twins f [] (default : Q) (default : Q') :=
  ⟨LawfulQueue.rep_default, LawfulQueue.rep_default⟩

theorem Twins.middle (h : Twins f (a ++ e :: b) q q') :
    LawfulQueue.Rep q' (a.map (Entry.rename f) ++ e.rename f :: b.map (Entry.rename f)) := by
  have hr := h.right
  rwa [List.map_append, List.map_cons] at hr

theorem Twins.getByHandle (h : Twins f (a ++ e :: b) q q') :
    getByHandle q e.handle = some e.data ∧ getByHandle q' (f e.handle) = some e.data := by
  constructor
  · exact LawfulQueue.getByHandle_spec h.left (by simp)
  · exact LawfulQueue.getByHandle_spec (e := e.rename f) h.middle (by simp)

theorem Twins.dequeue (h : Twins f (a ++ e :: b) q q') : ∃ q₁ q₁',
    dequeue q e.handle =
        some ((a.getLast?.map Entry.data, b.head?.map Entry.handle), q₁) ∧
      dequeue q' (f e.handle) =
        some ((a.getLast?.map Entry.data, (b.head?.map Entry.handle).map f), q₁') ∧
      Twins f (a ++ b) q₁ q₁' := by
  obtain ⟨q₁, hq, hr⟩ := LawfulQueue.dequeue_spec h.left
  obtain ⟨q₁', hq', hr'⟩ := LawfulQueue.dequeue_spec h.middle
  rw [rename_handle, head?_rename, getLast?_rename] at hq'
  exact ⟨q₁, q₁', hq, hq', hr, by simpa using hr'⟩

omit [PriorityQueue Q D] [PriorityQueue Q' D] [LawfulQueue Q D] [LawfulQueue Q' D] in
theorem descending_rename (hd : Descending Priority.compare l) :
    Descending Priority.compare (l.map (Entry.rename f)) :=
  List.pairwise_map.mpr hd

/-- A new entry of each queue has a handle of its own and the same place. -/
theorem placed_rename [Decisive D] {l₁ l₁' : List (Entry D)} {d : D} {h' : Handle}
    (hp : Placed Priority.compareNew ⟨h, d⟩ l l₁)
    (hp' : Placed Priority.compareNew ⟨h', d⟩ (l.map (Entry.rename f)) l₁')
    (hd : Descending Priority.compare l) (hh : h ∉ handles l) :
    l₁.map (Entry.rename (Function.update f h h')) = l₁' := by
  have hx : Entry.rename (Function.update f h h') ⟨h, d⟩ = ⟨h', d⟩ := by
    rw [Entry.rename, Function.update_self]
  rw [hp.eq_scan hd, hp'.eq_scan (descending_rename hd), ← rename_update (f := f) h' hh, ← hx]
  exact @map_scan _ Priority.compareNew _ (Entry.rename _) ⟨h, d⟩ l

theorem resettle_rename {x : Entry D} :
    (resettle Priority.compare Priority.compareNew x a b).map (Entry.rename f) =
      resettle Priority.compare Priority.compareNew (x.rename f) (a.map (Entry.rename f))
        (b.map (Entry.rename f)) :=
  @map_resettle _ Priority.compare Priority.compareNew _ (Entry.rename f) x a b

/-- Twins stay twins when an entry of both is changed and resettled. -/
theorem Twins.resettle [ExactQueue Q D] [ExactQueue Q' D] (h : Twins f (a ++ e :: b) q q')
    (k : D → D × Bool) (hk : (k e.data).2 = true)
    (hne : ∀ y ∈ b.head?, Priority.compare ⟨e.handle, (k e.data).1⟩ y ≠ .eq) : ∃ q₁ q₁',
    updateNode q e.handle k = some q₁ ∧ updateNode q' (f e.handle) k = some q₁' ∧
      Twins f (Placement.resettle Priority.compare Priority.compareNew ⟨e.handle, (k e.data).1⟩ a b)
        q₁ q₁' := by
  obtain ⟨q₁, hq, hr⟩ := ExactQueue.updateNode_resettle k h.left hk hne
  have hne' : ∀ y ∈ (b.map (Entry.rename f)).head?,
      Priority.compare ⟨(e.rename f).handle, (k (e.rename f).data).1⟩ y ≠ .eq := by
    intro y hy
    rw [List.head?_map] at hy
    obtain ⟨z, hz, rfl⟩ := Option.mem_map.mp hy
    exact hne z hz
  obtain ⟨q₁', hq', hr'⟩ := ExactQueue.updateNode_resettle k h.middle hk hne'
  refine ⟨q₁, q₁', hq, hq', hr, ?_⟩
  rw [resettle_rename]
  exact hr'

end PriorityLock
