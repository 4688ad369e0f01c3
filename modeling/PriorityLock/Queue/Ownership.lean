import PriorityLock.Queue.Correctness

/-! # Who owns a box

The head owns the first box and each box the next one, and nothing else owns a
box. The links back of a dual-link queue refer to the owner. Every run keeps
this, so a dequeue frees one box only and no update finds an empty link.
-/

namespace PriorityLock.BoxQueue

open Links Placement Transition

variable {L : Link} {A : Allocator} {D : Type} {q : BoxQueue L A D} {l a b : List (Entry D)}
  {e : Entry D} {o : Option Handle} {i : Handle}

/-- The head, given as `none`, or the link of a box owns the box `i`. -/
def Owns (q : BoxQueue L A D) : Option Handle → Handle → Prop
  | none, i => q.head = some i
  | some j, i => q.getNext j = some (some i)

/-- What the links of a box queue with the entries `l` are. -/
structure Intact (q : BoxQueue L A D) (l : List (Entry D)) : Prop where
  walk : q.iterAt none = some (handles l)
  nodup : (handles l).Nodup
  live : ∀ i, q.Valid i ↔ i ∈ handles l
  used : ∀ i, i ∈ q.used ↔ i ∈ handles l
  data : ∀ e ∈ l, q.getData e.handle = some e.data
  owned : ∀ i ∈ handles l, ∃! o, q.Owns o i
  owns : ∀ o i, q.Owns o i → i ∈ handles l
  prev : L.hasPrev = true → ∀ i ∈ handles l, q.Owns (q.prevAt i) i

theorem owns_some {j : Handle} : q.Owns (some j) i ↔ q.Valid j ∧ q.nextAt j = some i := by
  cases hn : q.heap j <;> simp [Owns, Valid, getNext, nextAt, hn]

theorem WF.owns_iff (h : q.WF (a ++ e :: b)) :
    q.Owns o e.handle ↔ o = a.getLast?.map Entry.handle := by
  have hs : handles (a ++ e :: b) = handles a ++ e.handle :: handles b := by simp
  have hnd := hs ▸ h.nodup
  have hgl : a.getLast?.map Entry.handle = (handles a).getLast? := by simp [handles]
  rw [hgl]
  cases o with
  | none =>
    have hh : q.head = first some (handles (a ++ e :: b)) none := h.head_eq
    rw [Owns, hh]
    cases a with
    | nil => simp
    | cons f a =>
      have hfe : f.handle ≠ e.handle := by
        intro he
        simp [he] at hnd
      simp [hfe, List.getLast?_cons]
  | some j =>
    rw [owns_some]
    constructor
    · rintro ⟨hv, hn⟩
      have hj : j ∈ handles a ++ e.handle :: handles b := hs ▸ (h.live j).mp hv
      exact (Follows.eq_of_next_eq (Option.some_injective _) hnd (hs ▸ h.chain.follows)
        (by simp) hj hn).symm
    · intro hj
      obtain ⟨p, hp, rfl⟩ : ∃ p, a.getLast? = some p ∧ p.handle = j := by
        simpa [handles, eq_comm] using hj
      obtain ⟨a, rfl⟩ := List.getLast?_eq_some_iff.mp hp
      rw [List.append_assoc, List.singleton_append] at h
      exact ⟨h.valid (by simp), h.next_eq⟩

theorem WF.owned_mem (h : q.WF l) (ho : q.Owns o i) : i ∈ handles l := by
  cases o with
  | none =>
    have hh : some i = first some (handles l) none := ho.symm.trans h.head_eq
    cases l with
    | nil => simp at hh
    | cons e l => simp [show i = e.handle by simpa using hh]
  | some j =>
    obtain ⟨hv, hn⟩ := owns_some.mp ho
    rcases h.chain.follows.next_mem ((h.live j).mp hv) with he | ⟨k, hk, he⟩
    · simp [he] at hn
    · rwa [Option.some_inj.mp (hn.symm.trans he)]

theorem WF.intact (h : q.WF l) : Intact q l where
  walk := h.iterAt_none
  nodup := h.nodup
  live := h.live
  used := h.used
  data := h.data
  owned := by
    intro i hi
    obtain ⟨e, he, rfl⟩ := List.mem_map.mp hi
    obtain ⟨a, b, rfl⟩ := List.append_of_mem he
    exact ⟨_, h.owns_iff.mpr rfl, fun o ho => h.owns_iff.mp ho⟩
  owns := fun _ _ => h.owned_mem
  prev := by
    intro hL i hi
    obtain ⟨e, he, rfl⟩ := List.mem_map.mp hi
    obtain ⟨a, b, rfl⟩ := List.append_of_mem he
    rw [h.owns_iff, h.prev_eq hL]
    rcases List.eq_nil_or_concat' a with rfl | ⟨a, p, rfl⟩ <;> simp

/-- After every run each box is queued and has one owner. A dequeue of a live handle removes its
entry only and returns the data before it and the handle behind it, which are both missing only
for a single entry, and an update of one is defined. -/
theorem box_representation (L : Link) (A : Allocator) {D : Type} [Priority D]
    (ops : List (QueueOp D)) : ∃ (c : Client (BoxQueue L A D) D) (l : List (Entry D)),
    run (after Client.call) (Client.start default) ops = some c ∧ l.Perm c.live ∧
      Intact c.queue l ∧
      (∀ a e b, l = a ++ e :: b → ∃ r q', c.queue.dequeue e.handle = some (r, q') ∧
        r = (a.getLast?.map Entry.data, b.head?.map Entry.handle) ∧
        (r = (none, none) ↔ l = [e]) ∧ Intact q' (a ++ b)) ∧
      ∀ a e b, l = a ++ e :: b → ∀ f : D → D × Bool, ∃ q' l',
        c.queue.updateNode e.handle f = some q' ∧ Intact q' l' ∧
        l'.Perm (⟨e.handle, (f e.data).1⟩ :: (a ++ b)) := by
  obtain ⟨c, l, hr, hc⟩ := run_holds (Q := BoxQueue L A D) ops
  have hw : c.queue.WF l := hc.rep
  refine ⟨c, l, hr, hc.perm, hw.intact, ?_, ?_⟩
  · rintro a e b rfl
    obtain ⟨q', hq, hw'⟩ := dequeue_spec hw
    refine ⟨_, q', hq, rfl, ?_, hw'.intact⟩
    rcases List.eq_nil_or_concat' a with rfl | ⟨a, p, rfl⟩
    · cases b <;> simp
    · cases a <;> simp
  · rintro a e b rfl f
    cases hf : (f e.data).2 with
    | false =>
      obtain ⟨q', hq, hw'⟩ := updateNode_stay hw hf
      exact ⟨q', _, hq, hw'.intact, List.perm_middle⟩
    | true =>
      obtain ⟨q', l', hq, hw', hs⟩ := updateNode_settle hw hf
      exact ⟨q', l', hq, hw'.intact, hs.perm⟩

end PriorityLock.BoxQueue
