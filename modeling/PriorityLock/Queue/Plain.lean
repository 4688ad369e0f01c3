import PriorityLock.Lock.Basic
import PriorityLock.Queue.Updates

/-! # A plain list as a queue

What the queues are for: a list of entries, where a new one is placed by a scan
from the head and a changed one is resettled. Handles are arrival numbers. Where
new entries never tie the builtin queues are as exact as this one.
-/

namespace PriorityLock

open Placement PriorityQueue

variable {D : Type}

/-- The entries, and the handle of the next one. -/
structure PlainQueue (D : Type) where
  items : List (Entry D)
  next : Handle

def cut (h : Handle) : List (Entry D) → Option (List (Entry D) × Entry D × List (Entry D))
  | [] => none
  | e :: l => if e.handle = h then some ([], e, l)
      else (cut h l).map fun (a, x, b) => (e :: a, x, b)

theorem cut_middle {a b : List (Entry D)} {e : Entry D} (hn : (handles (a ++ e :: b)).Nodup) :
    cut e.handle (a ++ e :: b) = some (a, e, b) := by
  induction a with
  | nil => simp [cut]
  | cons f a ih =>
    obtain ⟨hf, hn⟩ := List.nodup_cons.mp hn
    have hne : f.handle ≠ e.handle := by
      intro heq
      apply hf
      rw [heq]
      exact mem_handles (by simp)
    simp [cut, hne, ih hn]

namespace PlainQueue

section Operations

variable [Priority D] (q : PlainQueue D)

def enqueue (d : D) : Handle × PlainQueue D :=
  (q.next, ⟨scan Priority.compareNew ⟨q.next, d⟩ q.items, q.next + 1⟩)

def dequeue (h : Handle) : Option ((Option D × Option Handle) × PlainQueue D) :=
  (cut h q.items).map fun (a, _, b) =>
    ((a.getLast?.map Entry.data, b.head?.map Entry.handle), { q with items := a ++ b })

def updateNode (h : Handle) (f : D → D × Bool) : Option (PlainQueue D) :=
  (cut h q.items).map fun (a, e, b) =>
    { q with items := if (f e.data).2
        then resettle Priority.compare Priority.compareNew ⟨h, (f e.data).1⟩ a b
        else a ++ ⟨h, (f e.data).1⟩ :: b }

def store (h : Handle) (f : D → D) : Option (PlainQueue D) :=
  (cut h q.items).map fun (a, e, b) => { q with items := a ++ ⟨h, f e.data⟩ :: b }

instance : PriorityQueue (PlainQueue D) D where
  default := ⟨[], 0⟩
  enqueue q d := some (q.enqueue d)
  dequeue := dequeue
  getByHandle q h := (lookup q.items h).map Entry.data
  iterAt q
    | none => some (handles q.items)
    | some h => (cut h q.items).map fun (_, e, b) => handles (e :: b)
  isEmpty q := some q.items.isEmpty
  updateNode := updateNode
  head q := some (q.items.head?.map Entry.handle)
  headHandle q := some (q.items.head?.map Entry.handle)
  getNextHandle q h := (cut h q.items).map fun (_, _, b) => b.head?.map Entry.handle
  store := store

end Operations

/-- The queue is the list, and its handles are of earlier arrivals. -/
structure WF (q : PlainQueue D) (l : List (Entry D)) : Prop where
  items : q.items = l
  nodup : (handles l).Nodup
  lt : ∀ h ∈ handles l, h < q.next

variable {q : PlainQueue D} {l l' a b : List (Entry D)} {e : Entry D} {d : D}

theorem WF.cut (h : q.WF (a ++ e :: b)) : cut e.handle q.items = some (a, e, b) := by
  rw [h.items]
  exact cut_middle h.nodup

theorem WF.perm (h : q.WF l) (hp : (handles l').Perm (handles l)) :
    WF ⟨l', q.next⟩ l' where
  items := rfl
  nodup := hp.nodup_iff.mpr h.nodup
  lt x hx := h.lt x (hp.mem_iff.mp hx)

theorem WF.remove (h : q.WF (a ++ e :: b)) : WF ⟨a ++ b, q.next⟩ (a ++ b) where
  items := rfl
  nodup := h.nodup.sublist (((List.sublist_cons_self e b).append_left a).map Entry.handle)
  lt x hx := h.lt x ((((List.sublist_cons_self e b).append_left a).map Entry.handle).subset hx)

theorem WF.put (h : q.WF (a ++ e :: b)) :
    WF ⟨a ++ ⟨e.handle, d⟩ :: b, q.next⟩ (a ++ ⟨e.handle, d⟩ :: b) :=
  h.perm (by simp)

theorem WF.next_not_mem (h : q.WF l) : q.next ∉ handles l :=
  fun hm => absurd (h.lt _ hm) (Nat.lt_irrefl _)

variable [Priority D]

theorem WF.enqueue (h : q.WF l) (d : D) :
    (q.enqueue d).2.WF (scan Priority.compareNew ⟨q.next, d⟩ l) := by
  have hp := (placed_scan Priority.compareNew ⟨q.next, d⟩ l).perm.map Entry.handle
  refine ⟨?_, ?_, ?_⟩
  · rw [PlainQueue.enqueue, h.items]
  · exact hp.nodup_iff.mpr (List.nodup_cons.mpr ⟨h.next_not_mem, h.nodup⟩)
  · intro x hx
    rcases List.mem_cons.mp (hp.mem_iff.mp hx) with rfl | hx
    · exact Nat.lt_succ_self _
    · exact Nat.lt_succ_of_lt (h.lt x hx)

theorem WF.settle (h : q.WF (a ++ e :: b)) {l' : List (Entry D)}
    (hl : l' = resettle Priority.compare Priority.compareNew ⟨e.handle, d⟩ a b) :
    WF ⟨l', q.next⟩ l' := by
  have hp : l'.Perm (⟨e.handle, d⟩ :: (a ++ b)) := hl ▸ settled_resettle.perm
  apply h.perm
  rw [handles_append, handles_cons]
  exact ((hp.map Entry.handle).trans (by rw [List.map_cons, List.map_append]; rfl)).trans
    List.perm_middle.symm

variable {f : D → D × Bool}

theorem WF.updateNode_stay (h : q.WF (a ++ e :: b)) (hf : (f e.data).2 = false) :
    q.updateNode e.handle f = some ⟨a ++ ⟨e.handle, (f e.data).1⟩ :: b, q.next⟩ := by
  simp [updateNode, h.cut, hf]

theorem WF.updateNode_settle (h : q.WF (a ++ e :: b)) (hf : (f e.data).2 = true) :
    q.updateNode e.handle f = some
      ⟨resettle Priority.compare Priority.compareNew ⟨e.handle, (f e.data).1⟩ a b, q.next⟩ := by
  simp [updateNode, h.cut, hf]

instance : LawfulQueue (PlainQueue D) D where
  Rep := WF
  rep_default := ⟨rfl, .nil, by simp⟩
  nodup h := h.nodup
  enqueue_spec d h := ⟨_, _, _, rfl, h.enqueue d, h.next_not_mem, placed_scan _ _ _⟩
  dequeue_spec {q a b e} h := by
    refine ⟨⟨a ++ b, q.next⟩, ?_, h.remove⟩
    simp [PriorityQueue.dequeue, dequeue, h.cut]
  getByHandle_spec {q l e} h he := by
    have hl := lookup_of_mem h.nodup he
    rw [← h.items] at hl
    simp [PriorityQueue.getByHandle, hl]
  iterAt_none h := congrArg (some ∘ handles) h.items
  iterAt_some h := by
    simp only [PriorityQueue.iterAt, h.cut]
    rfl
  isEmpty_spec h := congrArg (some ∘ List.isEmpty) h.items
  updateNode_stay f h hf := ⟨_, h.updateNode_stay hf, h.put⟩
  updateNode_settle f h hf := ⟨_, _, h.updateNode_settle hf, h.settle rfl, settled_resettle⟩
  head_spec h := by simp only [PriorityQueue.head, h.items]
  headHandle_spec h := by simp only [PriorityQueue.headHandle, h.items]
  getNextHandle_spec h := by
    simp only [PriorityQueue.getNextHandle, h.cut]
    rfl
  store_spec f h := by
    refine ⟨_, ?_, h.put⟩
    simp only [PriorityQueue.store, store, h.cut]
    rfl

end PlainQueue

/-- An update that asks for a move resettles the entry, unless a tied head is where a scan would
put it behind its ties. -/
class ExactQueue (Q : Type) (D : outParam Type) [Priority D] [PriorityQueue Q D]
    [LawfulQueue Q D] : Prop where
  updateNode_resettle : ∀ {q : Q} {a b : List (Entry D)} {e : Entry D} (f : D → D × Bool),
    LawfulQueue.Rep q (a ++ e :: b) → (f e.data).2 = true →
    (∀ g ∈ b.head?, Priority.compare ⟨e.handle, (f e.data).1⟩ g ≠ .eq) → ∃ q',
      PriorityQueue.updateNode q e.handle f = some q' ∧ LawfulQueue.Rep q'
        (resettle Priority.compare Priority.compareNew ⟨e.handle, (f e.data).1⟩ a b)

instance [Priority D] : ExactQueue (PlainQueue D) D where
  updateNode_resettle {q a b e} _ h hf _ := by
    have hw : PlainQueue.WF q (a ++ e :: b) := h
    exact ⟨_, hw.updateNode_settle hf, hw.settle rfl⟩

instance [Priority D] [LawfulPriority D] (k : QueueKind) : ExactQueue (k.Queue D) D where
  updateNode_resettle {q a b e} f h hf hne := by
    obtain ⟨q', l', hq', hr, hl⟩ := k.updateNode_eq h hf
    have hk : ¬k.Requeues ⟨e.handle, (f e.data).1⟩ a b := by
      unfold QueueKind.Requeues
      split
      · rintro ⟨-, g, hg, heq, -⟩
        exact hne g hg heq
      · exact id
    rw [hl.mpr hk] at hr
    exact ⟨q', hq', hr⟩

/-- Among entries in order there is one place for a new entry that never ties. -/
theorem Placement.Placed.eq_scan [Priority D] [Decisive D] {x : Entry D} {l l' : List (Entry D)}
    (h : Placed Priority.compareNew x l l') (hd : Descending Priority.compare l) :
    l' = scan Priority.compareNew x l := by
  have hgt : l.Pairwise fun e f =>
      Priority.compareNew x e = .gt → Priority.compareNew x f = .gt :=
    hd.imp fun {e f} hge hc => Decisive.gt_trans x.data e.data f.data hc hge
  have hs : l'.map id = scan Priority.compareNew (id x) (l.map id) :=
    h.map_eq_scan (fun _ _ => rfl) (fun e _ => Decisive.ne_eq x.data e.data) hgt
  simpa using hs

end PriorityLock
