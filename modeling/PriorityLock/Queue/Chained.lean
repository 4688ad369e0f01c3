import Mathlib.Data.List.Nodup
import PriorityLock.Lists.Links
import PriorityLock.Queue.Basic

/-! # Chains of entries

Both queues store a list of entries as a chain of links with the data of each
entry at its handle. The writes that link an entry in or out are described by
the link functions before and after them, in whatever order the code makes them.
-/

namespace PriorityLock

open Links

variable {κ D : Type} {ref : Handle → κ} {nil head head' : κ} {dual : Prop}
  {next next' prev prev' : Handle → κ} {data data' : Handle → Option D} {a b l : List (Entry D)}
  {e p x : Entry D} {o : Handle} {d : D}

/-- From the head, the links pass through the entries `l` and their data lies there. -/
structure Chained (ref : Handle → κ) (nil : κ) (dual : Prop) (head : κ)
    (next prev : Handle → κ) (data : Handle → Option D) (l : List (Entry D)) : Prop where
  chain : Chain ref nil dual head next prev (handles l)
  data : ∀ e ∈ l, data e.handle = some e.data

namespace Chained

theorem nodup (h : Chained ref nil dual head next prev data l) : (handles l).Nodup :=
  h.chain.nodup

theorem head_eq (h : Chained ref nil dual head next prev data l) :
    head = first ref (handles l) nil := h.chain.head_eq

theorem next_eq (h : Chained ref nil dual head next prev data (a ++ e :: b)) :
    next e.handle = first ref (handles b) nil := by
  have hc := h.chain
  simp only [handles_append, handles_cons] at hc
  exact hc.next_eq

theorem prev_eq (h : Chained ref nil dual head next prev data (a ++ e :: b)) (hd : dual) :
    prev e.handle = last ref nil (handles a) := by
  have hc := h.chain
  simp only [handles_append, handles_cons] at hc
  exact hc.prev_eq hd

theorem not_mem (h : Chained ref nil dual head next prev data (a ++ e :: b)) :
    e.handle ∉ handles (a ++ b) := by
  have hn := h.nodup
  simp only [handles_append, handles_cons] at hn ⊢
  exact (List.nodup_cons.mp (List.nodup_middle.mp hn)).1

/-- The same facts for an entry whose predecessor is known. -/
theorem next_eq_behind (h : Chained ref nil dual head next prev data (a ++ p :: e :: b)) :
    next e.handle = first ref (handles b) nil := by
  rw [List.append_cons] at h
  exact h.next_eq

theorem prev_eq_behind (h : Chained ref nil dual head next prev data (a ++ p :: e :: b))
    (hd : dual) : prev e.handle = ref p.handle := by
  rw [List.append_cons] at h
  simpa using h.prev_eq hd

theorem not_mem_behind (h : Chained ref nil dual head next prev data (a ++ p :: e :: b)) :
    e.handle ∉ handles (a ++ p :: b) := by
  rw [List.append_cons] at h
  simpa using h.not_mem

theorem insert_behind (h : Chained ref nil dual head next prev data (a ++ p :: b))
    (ho : o ∉ handles (a ++ p :: b)) (hd : data' o = some d) (hh : head' = head)
    (hn : next' = Function.update (Function.update next o (first ref (handles b) nil))
      p.handle (ref o))
    (hp : dual → prev' = Function.update (relink prev (handles b).head? (ref o)) o (ref p.handle))
    (hg : ∀ i ∈ handles (a ++ p :: b), data' i = data i) :
    Chained ref nil dual head' next' prev' data' (a ++ p :: ⟨o, d⟩ :: b) where
  chain := by
    have hc := h.chain
    simp only [handles_append, handles_cons] at hc ho ⊢
    rw [hh, hn]
    apply (hc.insert_behind ho).congr (fun _ _ => rfl)
    intro hdual i _
    rw [hp hdual]
  data := by
    intro e he
    rw [List.mem_append, List.mem_cons, List.mem_cons] at he
    have hm : e = ⟨o, d⟩ ∨ e ∈ a ++ p :: b := by
      rw [List.mem_append, List.mem_cons]
      tauto
    rcases hm with rfl | hm
    · exact hd
    · exact (hg _ (mem_handles hm)).trans (h.data e hm)

theorem insert_front (h : Chained ref nil dual head next prev data l) (ho : o ∉ handles l)
    (hd : data' o = some d) (hh : head' = ref o)
    (hn : next' = Function.update next o (first ref (handles l) nil))
    (hp : dual → prev' = Function.update (relink prev (handles l).head? (ref o)) o nil)
    (hg : ∀ i ∈ handles l, data' i = data i) :
    Chained ref nil dual head' next' prev' data' (⟨o, d⟩ :: l) where
  chain := by
    rw [hh, hn]
    apply (h.chain.insert_front ho).congr (fun _ _ => rfl)
    intro hdual i _
    rw [hp hdual]
  data := by
    intro e he
    rcases List.mem_cons.mp he with rfl | he
    · exact hd
    · exact (hg _ (mem_handles he)).trans (h.data e he)

theorem remove_head (h : Chained ref nil dual head next prev data (x :: b))
    (hh : head' = first ref (handles b) nil) (hn : ∀ i ∈ handles b, next' i = next i)
    (hp : dual → ∀ i ∈ handles b, prev' i = relink prev (handles b).head? nil i)
    (hg : ∀ i ∈ handles b, data' i = data i) :
    Chained ref nil dual head' next' prev' data' b where
  chain := by
    rw [hh]
    exact h.chain.remove_head.congr hn hp
  data e he := (hg _ (mem_handles he)).trans (h.data e (by simp [he]))

theorem remove_behind (h : Chained ref nil dual head next prev data (a ++ p :: x :: b))
    (hh : head' = head)
    (hn : ∀ i ∈ handles (a ++ p :: b),
      next' i = Function.update next p.handle (first ref (handles b) nil) i)
    (hp : dual → ∀ i ∈ handles (a ++ p :: b),
      prev' i = relink prev (handles b).head? (ref p.handle) i)
    (hg : ∀ i ∈ handles (a ++ p :: b), data' i = data i) :
    Chained ref nil dual head' next' prev' data' (a ++ p :: b) where
  chain := by
    have hc := h.chain
    simp only [handles_append, handles_cons] at hc hn hp ⊢
    rw [hh]
    exact hc.remove_behind.congr hn hp
  data e he := by
    refine (hg _ (mem_handles he)).trans (h.data e ?_)
    simp only [List.mem_append, List.mem_cons] at he ⊢
    tauto

theorem set_data (h : Chained ref nil dual head next prev data (a ++ e :: b))
    (hd : data' = Function.update data e.handle (some d)) :
    Chained ref nil dual head next prev data' (a ++ ⟨e.handle, d⟩ :: b) where
  chain := by
    have hc := h.chain
    simpa only [handles_append, handles_cons] using hc
  data f hf := by
    have hm : f = ⟨e.handle, d⟩ ∨ f ∈ a ++ b := by
      simp only [List.mem_append, List.mem_cons] at hf ⊢
      tauto
    rw [hd]
    rcases hm with rfl | hm
    · exact Function.update_self _ _ _
    · have hne : f.handle ≠ e.handle := fun he => h.not_mem (he ▸ mem_handles hm)
      rw [Function.update_of_ne hne]
      apply h.data f
      simp only [List.mem_append, List.mem_cons] at hm ⊢
      tauto

end Chained

end PriorityLock
