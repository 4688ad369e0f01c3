import Mathlib.Data.List.Dedup
import PriorityLock.Queue.Correctness
import PriorityLock.Transition.Peak

/-! # The memory of the queues

An arena keeps the block of its peak load until it is dropped; a box queue has
one box for each entry. Dropping a queue drops what it still holds: with debug
assertions a loaded arena panics instead. What a call drops is what its memory
held before and holds no more, so a queue drops each datum that it was given once.
-/

namespace PriorityLock

open Placement Transition

/-- What `drop` does, with the memory that it leaves. -/
inductive Dropping (Q D : Type)
  | panics
  | drops (data : List D) (rest : Q)

/-- The memory of a queue, and its drop glue, with or without debug assertions. -/
class DropQueue (Q : Type) (D : outParam Type) where
  drop : Bool → Q → Option (Dropping Q D)
  /-- The queue still has memory that it allocated. -/
  HasMemory : Q → Prop
  /-- The addresses of the nodes, each of them once. -/
  addresses : Q → List Handle
  /-- The initialised datum at an address. -/
  stored : Q → Handle → Option D

/-- The data that were stored before and are no more. -/
def DropQueue.lost {Q D : Type} [DropQueue Q D] (q q' : Q) : List D :=
  (addresses q).filterMap fun i => match stored q' i with
    | none => stored q i
    | some _ => none

/-- The memory of a queue holds the data of its entries, at their handles, and no others. -/
class LawfulMemory (Q : Type) (D : outParam Type) [Priority D] [PriorityQueue Q D]
    [LawfulQueue Q D] [DropQueue Q D] : Prop where
  nodup : ∀ {q : Q} {l : List (Entry D)}, LawfulQueue.Rep q l → (DropQueue.addresses q).Nodup
  address : ∀ {q : Q} {l : List (Entry D)}, LawfulQueue.Rep q l →
    ∀ h ∈ handles l, h ∈ DropQueue.addresses q
  stored_eq : ∀ {q : Q} {l : List (Entry D)}, LawfulQueue.Rep q l →
    ∀ h, DropQueue.stored q h = (lookup l h).map Entry.data

def Dropping.Drops {Q D : Type} [DropQueue Q D] (panics : Prop) (l : List (Entry D)) :
    Dropping Q D → Prop
  | .panics => panics
  | .drops data rest => ¬panics ∧ data.Perm (l.map Entry.data) ∧ ¬DropQueue.HasMemory rest

namespace ArenaQueue

variable {L : Link} {N : NodeLayout} {D : Type} {q : ArenaQueue L N D} {l : List (Entry D)}

def slice (q : ArenaQueue L N D) : Option (List (ArenaNode D)) :=
  if q.size ≤ q.nodes.length then some (q.nodes.take q.size) else none

/-- Free the block, which must have the layout that it was allocated with. -/
def dealloc (q : ArenaQueue L N D) : Option (ArenaQueue L N D) :=
  if q.size = 0 then some q
  else if q.size = q.nodes.length then some { q with nodes := [] } else none

/-- The loop of `drop`: `assume_init_drop` on every slot that is not marked free. -/
def dropNodes (N : NodeLayout) : List (ArenaNode D) → Option (List D)
  | [] => some []
  | node :: nodes =>
    if node.next ≠ N.unallocated then do
      let data ← node.data
      let rest ← dropNodes N nodes
      pure (data :: rest)
    else dropNodes N nodes

def drop (debugAssertions : Bool) (q : ArenaQueue L N D) :
    Option (Dropping (ArenaQueue L N D) D) :=
  if q.used ≠ 0 ∧ debugAssertions = true then some .panics
  else do
    let data ← if q.used ≠ 0 then q.slice.bind (dropNodes N) else pure []
    let q ← q.dealloc
    pure (.drops data q)

def offsets (q : ArenaQueue L N D) : List ℕ := (List.range q.nodes.length).map (· * N.nodeSize)

instance : DropQueue (ArenaQueue L N D) D where
  drop := drop
  HasMemory q := q.nodes ≠ []
  addresses := offsets
  stored := getData

theorem nodup_offsets : q.offsets.Nodup := List.nodup_range.map fun _ _ => mul_nodeSize_inj.mp

theorem Valid.mem_offsets {o : ℕ} (h : q.Valid o) : o ∈ q.offsets := by
  obtain ⟨i, hi, rfl⟩ := h.exists_slot
  exact List.mem_map_of_mem (List.mem_range.mpr hi)

def held (N : NodeLayout) (node : ArenaNode D) : Option D :=
  if node.next ≠ N.unallocated then node.data else none

theorem dropNodes_eq {nodes : List (ArenaNode D)}
    (h : ∀ n ∈ nodes, n.next ≠ N.unallocated → ∃ d, n.data = some d) :
    dropNodes N nodes = some (nodes.filterMap (held N)) := by
  induction nodes with
  | nil => rfl
  | cons n nodes ih =>
    have ih := ih fun m hm => h m (by simp [hm])
    by_cases hn : n.next = N.unallocated
    · simp [dropNodes, held, hn, ih]
    · obtain ⟨d, hd⟩ := h n (by simp) hn
      simp [dropNodes, held, hn, hd, ih]

theorem map_node_offsets : q.offsets.map q.node = q.nodes.map some := by
  apply List.ext_getElem
  · simp [offsets]
  · intro i h h'
    have hi : i < q.nodes.length := by simpa using h'
    simp [offsets, node_mul, hi]

theorem WF.offsets_perm (h : q.WF l) :
    (q.offsets.filter fun o => q.nextAt o ≠ N.unallocated).Perm (handles l) := by
  rw [List.perm_ext_iff_of_nodup ?_ h.nodup]
  · intro o
    rw [List.mem_filter, h.mem_iff, decide_eq_true_eq]
    apply and_congr_left
    intro _
    constructor
    · intro ho
      obtain ⟨i, hi, rfl⟩ := List.mem_map.mp ho
      exact valid_mul.mpr (List.mem_range.mp hi)
    · intro ho
      exact ho.mem_offsets
  · exact nodup_offsets.filter _

theorem WF.held_perm (h : q.WF l) : (q.nodes.filterMap (held N)).Perm (l.map Entry.data) := by
  have hslots : q.nodes.filterMap (held N) =
      (q.offsets.filter fun o => q.nextAt o ≠ N.unallocated).filterMap q.getData := by
    calc q.nodes.filterMap (held N)
        = (q.nodes.map some).filterMap (Option.bind · (held N)) := by
          rw [List.filterMap_map]
          rfl
      _ = q.offsets.filterMap fun o => (q.node o).bind (held N) := by
          rw [← map_node_offsets, List.filterMap_map]
          rfl
      _ = _ := by
          rw [List.filterMap_filter]
          apply List.filterMap_congr
          intro o ho
          cases hn : q.node o <;> simp [held, nextAt, getData, hn]
  have hdata : (handles l).filterMap q.getData = l.map Entry.data := by
    rw [handles, List.filterMap_map, ← List.filterMap_eq_map]
    apply List.filterMap_congr
    intro e he
    exact h.data e he
  rw [hslots, ← hdata]
  exact h.offsets_perm.filterMap q.getData

theorem WF.slot_data (h : q.WF l) {n : ArenaNode D} (hn : n ∈ q.nodes)
    (hu : n.next ≠ N.unallocated) : ∃ d, n.data = some d := by
  obtain ⟨i, hi, rfl⟩ := List.mem_iff_getElem.mp hn
  have hnode : q.node (i * N.nodeSize) = some q.nodes[i] := by simp [node_mul, hi]
  have hm : i * N.nodeSize ∈ handles l :=
    (h.mem_iff _).mpr ⟨valid_mul.mpr hi, by simpa [nextAt, hnode] using hu⟩
  obtain ⟨e, he, heq⟩ := List.mem_map.mp hm
  have hd : q.getData e.handle = some e.data := h.data e he
  rw [heq, getData, hnode] at hd
  exact ⟨_, hd⟩

theorem WF.getData_eq (h : q.WF l) (o : ℕ) : q.getData o = (lookup l o).map Entry.data := by
  by_cases ho : o ∈ handles l
  · obtain ⟨e, he, rfl⟩ := List.mem_map.mp ho
    rw [lookup_of_mem h.nodup he]
    exact h.data e he
  · rw [lookup_of_not_mem ho]
    exact h.vacant o ho

theorem drop_spec (h : q.WF l) (debug : Bool) : ∃ d, DropQueue.drop debug q = some d ∧
    d.Drops (debug = true ∧ l ≠ []) l := by
  have hused : q.used = 0 ↔ l = [] := by
    rw [h.used, handles, List.length_map, List.length_eq_zero_iff]
  obtain ⟨rest, hrest, hm⟩ : ∃ rest, q.dealloc = some rest ∧ ¬DropQueue.HasMemory rest := by
    by_cases hs : q.size = 0
    · exact ⟨q, if_pos hs, fun hm => hm (List.eq_nil_of_length_eq_zero (h.length.trans hs))⟩
    · exact ⟨{ q with nodes := [] }, by simp [hs, dealloc, h.length], fun hm => hm rfl⟩
  have hnodes : q.slice.bind (dropNodes N) = some (q.nodes.filterMap (held N)) := by
    rw [slice, if_pos h.length.ge, Option.bind_some, ← h.length, List.take_length]
    exact dropNodes_eq fun n hn => h.slot_data hn
  change ∃ d, drop debug q = some d ∧ _
  by_cases hl : l = []
  · exact ⟨.drops [] rest, by simp [drop, hused.mpr hl, hrest], by simp [hl], by simp [hl], hm⟩
  · have hu : q.used ≠ 0 := fun hu => hl (hused.mp hu)
    cases debug with
    | true => exact ⟨.panics, by simp [drop, hu], rfl, hl⟩
    | false =>
      exact ⟨.drops _ rest, by simp [drop, hu, hnodes, hrest], by simp, h.held_perm, hm⟩

end ArenaQueue

namespace BoxQueue

open Links

variable {L : Link} {A : Allocator} {D : Type} {q : BoxQueue L A D} {l b : List (Entry D)}

/-- There is no `Drop` of its own: the head is dropped. -/
def drop (q : BoxQueue L A D) : Option (Dropping (BoxQueue L A D) D) :=
  (q.dropChain q.used.length q.head).map fun (data, q) => .drops data q

instance : DropQueue (BoxQueue L A D) D where
  drop _ := drop
  HasMemory q := ∃ i, q.Valid i
  addresses q := q.used.dedup
  stored := getData

theorem WF.getData_eq (h : q.WF l) (i : Handle) : q.getData i = (lookup l i).map Entry.data := by
  by_cases hi : i ∈ handles l
  · obtain ⟨e, he, rfl⟩ := List.mem_map.mp hi
    rw [lookup_of_mem h.nodup he]
    exact h.data e he
  · have hnone : q.heap i = none :=
      Option.not_isSome_iff_eq_none.mp fun hv => hi ((h.live i).mp hv)
    rw [lookup_of_not_mem hi, getData, hnone]
    rfl

theorem dropChain_spec {fuel : ℕ} (hle : b.length ≤ fuel) (hn : (handles b).Nodup)
    (hd : ∀ e ∈ b, q.getData e.handle = some e.data)
    (hf : Follows some q.nextAt (handles b) none) : ∃ q',
    q.dropChain fuel (first some (handles b) none) = some (b.map Entry.data, q') ∧
      ∀ i, q'.Valid i ↔ q.Valid i ∧ i ∉ handles b := by
  induction b generalizing q fuel with
  | nil => exact ⟨q, by cases fuel <;> rfl, by simp⟩
  | cons e b ih =>
    obtain ⟨fuel, rfl⟩ : ∃ n, fuel = n + 1 := ⟨fuel - 1, by simp at hle; omega⟩
    obtain ⟨he, hn⟩ := List.nodup_cons.mp hn
    have hne : ∀ i ∈ handles b, i ≠ e.handle := by
      rintro i hi rfl
      exact he hi
    obtain ⟨q', hq, hv⟩ := ih (q := q.free e.handle) (Nat.le_of_succ_le_succ hle) hn
      (fun f hf => (getData_free (hne _ (mem_handles hf))).trans (hd f (by simp [hf])))
      (hf.2.congr fun i hi => nextAt_free (hne i hi))
    obtain ⟨node, hnode⟩ : ∃ node, q.heap e.handle = some node :=
      Option.isSome_iff_exists.mp (valid_of_getData (hd e (by simp)))
    have hdata : node.data = e.data := by simpa [getData, hnode] using hd e (by simp)
    have hnext : node.next = first some (handles b) none := by
      have hn : q.nextAt e.handle = first some (handles b) none := hf.1
      simpa [nextAt, hnode] using hn
    refine ⟨q', ?_, fun i => ?_⟩
    · simp [dropChain, hnode, hnext, hq, hdata]
    · rw [hv, valid_free, handles_cons, List.mem_cons]
      tauto

theorem drop_spec (h : q.WF l) (debug : Bool) : ∃ rest,
    DropQueue.drop debug q = some (.drops (l.map Entry.data) rest) ∧
      ¬DropQueue.HasMemory rest := by
  obtain ⟨rest, hq, hv⟩ := dropChain_spec h.length_le h.nodup h.data h.chain.follows
  rw [← h.head_eq] at hq
  refine ⟨rest, ?_, ?_⟩
  · change q.drop = _
    rw [drop, hq]
    rfl
  · rintro ⟨i, hi⟩
    obtain ⟨hi, hm⟩ := (hv i).mp hi
    exact hm ((h.live i).mp hi)

end BoxQueue

namespace QueueKind

variable {D : Type}

instance : (k : QueueKind) → DropQueue (k.Queue D) D
  | .arena L N => inferInstanceAs (DropQueue (ArenaQueue L N D) D)
  | .boxed L A => inferInstanceAs (DropQueue (BoxQueue L A D) D)

instance [Priority D] (k : QueueKind) : LawfulMemory (k.Queue D) D where
  nodup {q l} _ := by
    cases k with
    | arena L N => exact ArenaQueue.nodup_offsets (q := q)
    | boxed L A => exact List.nodup_dedup _
  address {q l} h i hi := by
    obtain ⟨e, he, rfl⟩ := List.mem_map.mp hi
    cases k with
    | arena L N =>
      have hw : ArenaQueue.WF q l := h
      exact (hw.valid he).mem_offsets
    | boxed L A =>
      have hw : BoxQueue.WF q l := h
      exact List.mem_dedup.mpr ((hw.used _).mpr hi)
  stored_eq {q l} h i := by
    cases k with
    | arena L N => exact ArenaQueue.WF.getData_eq (q := q) h i
    | boxed L A => exact BoxQueue.WF.getData_eq (q := q) h i

theorem drop_spec [Priority D] (k : QueueKind) {q : k.Queue D} {l : List (Entry D)}
    (h : LawfulQueue.Rep q l) (debug : Bool) : ∃ d, DropQueue.drop debug q = some d ∧
      d.Drops (¬k.IsBoxed ∧ debug = true ∧ l ≠ []) l := by
  cases k with
  | arena L N =>
    obtain ⟨d, hd, hl⟩ := ArenaQueue.drop_spec (q := q) h debug
    refine ⟨d, hd, ?_⟩
    have hp : (¬(arena L N).IsBoxed ∧ debug = true ∧ l ≠ []) = (debug = true ∧ l ≠ []) := by
      simp [IsBoxed]
    rw [hp]
    exact hl
  | boxed L A =>
    obtain ⟨rest, hd, hm⟩ := BoxQueue.drop_spec (q := q) h debug
    exact ⟨_, hd, by simp [IsBoxed], .rfl, hm⟩

end QueueKind

section Ledger

variable {Q D τ : Type} [Priority D] [PriorityQueue Q D] [LawfulQueue Q D] {c c' : Client Q D}
  {l l' : List (Entry D)} {op : QueueOp D} {tok : D → τ}

def QueueOp.given : QueueOp D → List D
  | .enqueue d => [d]
  | _ => []

/-- The datum of the entry that an operation takes out of the queue. -/
def QueueOp.removed (live : List (Entry D)) : QueueOp D → List D
  | .dequeue h => ((lookup live h).map Entry.data).toList
  | _ => []

/-- Updates leave this part of the data as it is. -/
def QueueOp.Keeps (tok : D → τ) : QueueOp D → Prop
  | .updateNode _ f => ∀ d, tok (f d).1 = tok d
  | _ => True

theorem Holds.lookup_live (hc : Holds c l) {e : Entry D} (he : e ∈ l) :
    lookup c.live e.handle = some e :=
  lookup_of_mem ((hc.perm.map Entry.handle).nodup_iff.mp (LawfulQueue.nodup hc.rep))
    (hc.perm.mem_iff.mp he)

theorem Holds.removed_refused {h : Handle} (hc : Holds c l) (ht : op.target = some h)
    (hh : h ∉ handles l) : op.removed c.live = [] := by
  cases op with
  | dequeue g =>
    obtain rfl : g = h := Option.some.inj ht
    have hl : g ∉ handles c.live := fun hm => hh ((hc.perm.map Entry.handle).mem_iff.mpr hm)
    simp [QueueOp.removed, lookup_of_not_mem hl]
  | _ => rfl

theorem Holds.ledger_step (hc : Holds c l) (hop : op.Keeps tok) : ∃ c' l',
    after Client.call c op = some c' ∧ Holds c' l' ∧
      ((l.map Entry.data ++ op.given).map tok).Perm
        ((op.removed c.live ++ l'.map Entry.data).map tok) := by
  obtain ⟨r, c', l', hs, hc', hm⟩ := hc.step op
  refine ⟨c', l', hs, hc', ?_⟩
  cases hm with
  | enqueue hh hp =>
    have hperm := (hp.perm.map Entry.data).map tok
    simp only [QueueOp.removed, QueueOp.given, List.nil_append, List.map_append]
    exact List.perm_append_comm.trans hperm.symm
  | dequeue =>
    simp only [QueueOp.removed, hc.lookup_live (List.mem_append_right _ List.mem_cons_self),
      QueueOp.given, List.append_nil, List.map_append, List.map_cons, Option.map_some,
      Option.toList_some]
    exact List.perm_middle
  | @stay f a b e hf =>
    have ht : tok (f e.data).1 = tok e.data := hop e.data
    simp [QueueOp.removed, QueueOp.given, ht]
  | @settle f a b l' e hf hs =>
    have ht : tok (f e.data).1 = tok e.data := hop e.data
    have hperm := (hs.perm.map Entry.data).map tok
    simp only [QueueOp.removed, QueueOp.given, List.append_nil, List.nil_append, List.map_append,
      List.map_cons]
    refine List.perm_middle.trans (.trans ?_ hperm.symm)
    simp [ht]
  | refused ht hh =>
    have hg : op.given = [] := by cases op <;> first | rfl | simp [QueueOp.target] at ht
    rw [hc.removed_refused ht hh, hg, List.append_nil, List.nil_append]
  | _ => simp [QueueOp.removed, QueueOp.given]

section Dropped

variable [DropQueue Q D] [LawfulMemory Q D] {q q' : Q} {a b : List (Entry D)} {e : Entry D}

omit [LawfulMemory Q D] [LawfulQueue Q D] in
/-- What an operation drops: what the memory held before it and does not hold after it. -/
def Client.dropped (c : Client Q D) (op : QueueOp D) : List D :=
  match after Client.call c op with
  | none => []
  | some c' => DropQueue.lost c.queue c'.queue

/-- The memory loses the data of the entries that have gone. -/
theorem lost_perm (h : LawfulQueue.Rep q l) (h' : LawfulQueue.Rep q' l') :
    (DropQueue.lost q q').Perm ((l.filter fun e => e.handle ∉ handles l').map Entry.data) := by
  let g : Handle → Option D := fun i =>
    if i ∈ handles l' then none else (lookup l i).map Entry.data
  have hg : DropQueue.lost q q' = (DropQueue.addresses q).filterMap g := by
    apply List.filterMap_congr
    intro i _
    rw [LawfulMemory.stored_eq h, LawfulMemory.stored_eq h']
    by_cases hi : i ∈ handles l'
    · obtain ⟨e, he, rfl⟩ := List.mem_map.mp hi
      simp [g, lookup_of_mem (LawfulQueue.nodup h') he, mem_handles he]
    · simp [g, hi, lookup_of_not_mem hi]
  have hsome : ∀ i, i ∉ handles l → g i = none := by
    intro i hi
    simp [g, lookup_of_not_mem hi]
  have hp : ((DropQueue.addresses q).filter (· ∈ handles l)).Perm (handles l) := by
    have hn : (handles l).Nodup := LawfulQueue.nodup h
    rw [List.perm_ext_iff_of_nodup ((LawfulMemory.nodup h).filter _) hn]
    intro i
    rw [List.mem_filter, decide_eq_true_eq, and_iff_right_iff_imp]
    exact LawfulMemory.address h i
  calc DropQueue.lost q q'
      = ((DropQueue.addresses q).filter (· ∈ handles l)).filterMap g := by
        rw [hg, List.filterMap_filter]
        apply List.filterMap_congr
        intro i _
        by_cases hi : i ∈ handles l
        · simp [hi]
        · simp [hi, hsome i hi]
    _ |>.Perm ((handles l).filterMap g) := hp.filterMap g
    _ = (l.filter fun e => e.handle ∉ handles l').map Entry.data := by
        rw [handles, List.filterMap_map, ← List.filterMap_eq_map, List.filterMap_filter]
        apply List.filterMap_congr
        intro e he
        simp only [Function.comp_apply, g, lookup_of_mem (LawfulQueue.nodup h) he]
        by_cases hi : e.handle ∈ handles l' <;> simp [hi]

theorem lost_nil (h : LawfulQueue.Rep q l) (h' : LawfulQueue.Rep q' l')
    (hs : ∀ e ∈ l, e.handle ∈ handles l') : DropQueue.lost q q' = [] := by
  have hp := lost_perm h h'
  rw [List.filter_eq_nil_iff.mpr fun e he => by simp [hs e he]] at hp
  exact hp.eq_nil

theorem lost_singleton (h : LawfulQueue.Rep q (a ++ e :: b)) (h' : LawfulQueue.Rep q' (a ++ b)) :
    DropQueue.lost q q' = [e.data] := by
  have hn : (handles (a ++ e :: b)).Nodup := LawfulQueue.nodup h
  have he : e.handle ∉ handles (a ++ b) := by
    rw [handles_append, handles_cons, List.nodup_middle] at hn
    rw [handles_append]
    exact (List.nodup_cons.mp hn).1
  have hin : ∀ d ∈ a ++ b, ¬decide (d.handle ∉ handles (a ++ b)) = true := by
    intro d hd
    rw [decide_eq_true_eq, not_not]
    exact mem_handles hd
  have hp := lost_perm h h'
  have ha : (a.filter fun d => d.handle ∉ handles (a ++ b)) = [] :=
    List.filter_eq_nil_iff.mpr fun d hd => hin d (by simp [hd])
  have hb : (b.filter fun d => d.handle ∉ handles (a ++ b)) = [] :=
    List.filter_eq_nil_iff.mpr fun d hd => hin d (by simp [hd])
  have hcons : ((e :: b).filter fun d => d.handle ∉ handles (a ++ b)) = [e] := by
    rw [List.filter_cons, if_pos (decide_eq_true he), hb]
  rw [List.filter_append, ha, hcons] at hp
  exact List.perm_singleton.mp hp

/-- A call drops the datum of the entry that it takes out, and nothing else. -/
theorem Holds.dropped_eq (hc : Holds c l) : c.dropped op = op.removed c.live := by
  obtain ⟨r, c', l', hs, hc', hm⟩ := hc.step op
  rw [Client.dropped, hs]
  have hsame : (∀ e ∈ l, e.handle ∈ handles l') → DropQueue.lost c.queue c'.queue = [] :=
    lost_nil hc.rep hc'.rep
  cases hm with
  | enqueue hh hp =>
    exact hsame fun e he => (hp.perm.map Entry.handle).mem_iff.mpr
      (List.mem_cons_of_mem _ (mem_handles he))
  | dequeue =>
    rw [QueueOp.removed, hc.lookup_live (List.mem_append_right _ List.mem_cons_self)]
    exact lost_singleton hc.rep hc'.rep
  | stay hf => exact hsame fun e he => by simpa using mem_handles he
  | @settle f a b l' e hf hs =>
    have hperm : (handles l').Perm (handles (a ++ e :: b)) := by
      simpa [handles] using (hs.perm.trans List.perm_middle.symm).map Entry.handle
    exact hsame fun d hd => hperm.mem_iff.mpr (mem_handles hd)
  | refused ht hh =>
    rw [hc.removed_refused ht hh]
    exact hsame fun e he => mem_handles he
  | _ => exact hsame fun e he => mem_handles he

theorem run_ledger {ops : List (QueueOp D)} (hops : ∀ op ∈ ops, op.Keeps tok) : ∃ c l,
    run (after Client.call) (Client.start (PriorityQueue.default : Q)) ops = some c ∧ Holds c l ∧
      ((ops.flatMap QueueOp.given).map tok).Perm
        ((gather (after Client.call) Client.dropped
          (Client.start (PriorityQueue.default : Q)) ops ++ l.map Entry.data).map tok) := by
  induction ops using List.reverseRecOn with
  | nil => exact ⟨_, [], rfl, .start, .nil⟩
  | append_singleton ops op ih =>
    obtain ⟨c, l, hr, hc, hp⟩ := ih fun o ho => hops o (by simp [ho])
    obtain ⟨c', l', hs, hc', hstep⟩ := hc.ledger_step (hops op (by simp))
    refine ⟨c', l', (run_concat hr).trans hs, hc', ?_⟩
    rw [gather_concat hr, hc.dropped_eq]
    simp only [List.flatMap_append, List.flatMap_singleton, List.map_append,
      List.append_assoc] at hp hstep ⊢
    have hnew := hp.append_right (op.given.map tok)
    rw [List.append_assoc] at hnew
    exact hnew.trans (hstep.append_left _)

end Dropped

end Ledger

/-- After every run of a builtin queue, dropping it panics exactly for a loaded arena with debug
assertions, and frees all of its memory otherwise. A call drops the datum of the entry that it
takes out of the queue and no other, and what was put into it has then been dropped once. -/
theorem queue_dropped (k : QueueKind) (debug : Bool) {D τ : Type} [Priority D] (tok : D → τ)
    (ops : List (QueueOp D)) (hops : ∀ op ∈ ops, op.Keeps tok) : ∃ (c : Client (k.Queue D) D)
      (d : Dropping (k.Queue D) D),
    run (after Client.call) (Client.start PriorityQueue.default) ops = some c ∧
      DropQueue.drop debug c.queue = some d ∧
      EachStep (after Client.call) (Client.start (PriorityQueue.default : k.Queue D))
        (fun c op => c.dropped op = op.removed c.live) ops ∧
      (d = .panics ↔ ¬k.IsBoxed ∧ debug = true ∧ c.live ≠ []) ∧
      ∀ data rest, d = .drops data rest → ¬DropQueue.HasMemory rest ∧
        data.Perm (c.live.map Entry.data) ∧
        ((ops.flatMap QueueOp.given).map tok).Perm
          ((gather (after Client.call) Client.dropped
            (Client.start (PriorityQueue.default : k.Queue D)) ops ++ data).map tok) := by
  obtain ⟨c, l, hr, hc, hp⟩ := run_ledger (Q := k.Queue D) hops
  obtain ⟨d, hd, hdrop⟩ := k.drop_spec hc.rep debug
  have hempty : l ≠ [] ↔ c.live ≠ [] := by
    rw [← List.length_pos_iff, ← List.length_pos_iff, hc.perm.length_eq]
  refine ⟨c, d, hr, hd, ?_, ?_, ?_⟩
  · intro before op later _
    obtain ⟨c, l, hr, hc⟩ := run_holds (Q := k.Queue D) before
    exact ⟨c, hr, hc.dropped_eq⟩
  · rw [← hempty]
    cases d with
    | panics => exact iff_of_true rfl hdrop
    | drops data rest => exact iff_of_false (by simp) hdrop.1
  · rintro data rest rfl
    obtain ⟨-, hdata, hm⟩ := hdrop
    refine ⟨hm, hdata.trans (hc.perm.map _), hp.trans (List.Perm.map _ ?_)⟩
    exact hdata.symm.append_left _

/-- One entry is left when the queue is dropped, after an update that keeps its parity. -/
theorem queue_dropped_leaked : ∃ (c : Client (QueueKind.dualArena.Queue ℕ) ℕ)
      (d : Dropping (QueueKind.dualArena.Queue ℕ) ℕ),
    run (after Client.call) (Client.start PriorityQueue.default)
        [.enqueue 7, .enqueue 8, .updateNode 0 fun d => (d + 2, true), .dequeue 48] = some c ∧
      DropQueue.drop false c.queue = some d ∧ d ≠ .panics := by
  obtain ⟨c, d, hr, hd, -, hp, -⟩ := queue_dropped .dualArena false (· % 2)
    [.enqueue 7, .enqueue 8, .updateNode 0 fun d => (d + 2, true), .dequeue 48]
    (by simp [QueueOp.Keeps])
  exact ⟨c, d, hr, hd, fun h => by simpa using hp.mp h⟩

section Block

def QueueOp.reads {D : Type} : QueueOp D → Bool
  | .enqueue _ | .dequeue _ | .updateNode _ _ => false
  | _ => true

variable {L : Link} {N : NodeLayout} {D : Type} [Priority D]
  {c c' : Client (ArenaQueue L N D) D} {l : List (Entry D)} {op : QueueOp D}

omit [Priority D] in
theorem Client.read_eq {Q α : Type} [PriorityQueue Q D] {c t : Client Q D} {v : Option α}
    {f : α → QueueResult D} {r : QueueResult D} (h : c.read v f = some (r, t)) : t = c := by
  obtain ⟨a, -, ha⟩ := Option.map_eq_some_iff.mp h
  exact (Prod.mk.inj ha).2.symm

omit [Priority D] in
theorem Client.call_read {Q : Type} [PriorityQueue Q D] {c t : Client Q D} {r : QueueResult D}
    (hop : op.reads = true) (h : c.call op = some (r, t)) : t = c := by
  cases op with
  | enqueue | dequeue | updateNode => cases hop
  | getByHandle | getNextHandle =>
    simp only [Client.call] at h
    split at h
    · exact (Prod.mk.inj (Option.some.inj h)).2.symm
    · exact read_eq h
  | iterAt o =>
    cases o with
    | none => exact read_eq h
    | some o =>
      simp only [Client.call] at h
      split at h
      · exact (Prod.mk.inj (Option.some.inj h)).2.symm
      · exact read_eq h
  | isEmpty | head | headHandle => exact read_eq h

theorem ArenaQueue.updateNode_size {q q' : ArenaQueue L N D} {a b : List (Entry D)} {e : Entry D}
    {f : D → D × Bool} (h : q.WF (a ++ e :: b)) (hq : q.updateNode e.handle f = some q') :
    q'.size = q.size := by
  have hsize : (q.putData e.handle (some (f e.data).1)).size = q.size := size_modifyNode
  cases hf : (f e.data).2 with
  | false =>
    have hput : q.updateNode e.handle f = some (q.putData e.handle (some (f e.data).1)) := by
      simp [updateNode, h.data e (by simp), setData_eq (h.valid (e := e) (by simp)), hf]
    rw [hput] at hq
    exact Option.some.inj hq ▸ hsize
  | true =>
    obtain ⟨q₁, hq₁, -, hfr⟩ :=
      settle_eq (x := ⟨e.handle, (f e.data).1⟩) (h.putData (f e.data).1)
    rw [updateNode_eq h hf, hq₁] at hq
    obtain rfl := Option.some.inj hq
    exact hfr.size.trans hsize

theorem Holds.size_call (hc : Holds c l) (hs : after Client.call c op = some c') :
    c'.queue.size = if op.given = [] then c.queue.size else c.queue.grown.size := by
  have hw : c.queue.WF l := hc.rep
  obtain ⟨⟨r, t⟩, hcall, rfl⟩ := Option.map_eq_some_iff.mp hs
  cases op with
  | enqueue d =>
    obtain ⟨i, prev, tied, q', -, -, -, hq, -, hsize, -⟩ := ArenaQueue.enqueue_eq hw d
    have hq' : PriorityQueue.enqueue c.queue d = some (i * N.nodeSize, q') := hq
    simp only [Client.call, hq', Option.map_some, Option.some_inj, Prod.mk.injEq] at hcall
    rw [← hcall.2, if_neg (by simp [QueueOp.given])]
    exact hsize
  | dequeue h =>
    cases hf : lookup c.live h with
    | none =>
      obtain ⟨-, rfl⟩ : .refused = r ∧ c = t := by simpa [Client.call, hf] using hcall
      rfl
    | some e =>
      obtain ⟨a, b, rfl, rfl⟩ := hc.split hf
      simp only [Client.call, hf] at hcall
      obtain ⟨⟨v, q'⟩, hq, heq⟩ := Option.map_eq_some_iff.mp hcall
      obtain ⟨-, rfl⟩ := Prod.mk.inj heq
      exact (ArenaQueue.dequeue_counts hw hq).1
  | updateNode h f =>
    cases hf : lookup c.live h with
    | none =>
      obtain ⟨-, rfl⟩ : .refused = r ∧ c = t := by simpa [Client.call, hf] using hcall
      rfl
    | some e =>
      obtain ⟨a, b, rfl, rfl⟩ := hc.split hf
      simp only [Client.call, hf] at hcall
      obtain ⟨q', hq, heq⟩ := Option.map_eq_some_iff.mp hcall
      obtain ⟨-, rfl⟩ := Prod.mk.inj heq
      exact ArenaQueue.updateNode_size hw hq
  | getByHandle | getNextHandle | iterAt | isEmpty | head | headHandle =>
    obtain rfl := Client.call_read rfl hcall
    rfl

def Fits (c : Client (ArenaQueue L N D) D) (n : ℕ) : Prop :=
  ∃ l, Holds c l ∧ c.queue.size = slots 2 n ∧ l.length ≤ n

theorem Fits.step {n : ℕ} (hc : Fits c n) (op : QueueOp D) : ∃ c',
    after Client.call c op = some c' ∧ Fits c' (max n c'.live.length) := by
  obtain ⟨l, hc, hsize, hle⟩ := hc
  have hkeep : op.Keeps fun _ => () := by cases op <;> simp [QueueOp.Keeps]
  obtain ⟨c', l', hs, hc', hp⟩ := hc.ledger_step hkeep
  have hlen := hp.length_eq
  have hlive : c'.live.length = l'.length := hc'.perm.length_eq.symm
  simp only [List.length_map, List.length_append] at hlen
  have hw : c.queue.WF l := hc.rep
  have hused : c.queue.used = l.length := by simpa [handles] using hw.used
  have hsize' := hc.size_call hs
  refine ⟨c', hs, l', hc', ?_, by omega⟩
  rw [hsize', hlive]
  by_cases hg : op.given = []
  · have hmax : max n l'.length = n := by simp [hg] at hlen; omega
    rw [if_pos hg, hsize, hmax]
  · obtain ⟨d, rfl⟩ : ∃ d, op = .enqueue d := by
      cases op <;> simp_all [QueueOp.given]
    simp only [QueueOp.given, QueueOp.removed, List.length_singleton, List.length_nil] at hlen
    rw [if_neg hg, ArenaQueue.grown, hused]
    split
    · next hfull =>
      -- the load is the size, and so the peak
      have hn : slots 2 n = n := by
        have := le_slots 2 n
        omega
      have hmax : max n l'.length = n + 1 := by omega
      rw [hmax, slots_succ_of_full hn, ← hn, ← hsize]
      simp [ArenaQueue.expand, Nat.shiftLeft_eq, Nat.mul_comm]
    · next hroom =>
      have hlt : l.length < slots 2 n := by
        have := le_slots 2 n
        omega
      rw [slots_eq_of_le (Nat.le_max_left _ _) (Nat.max_le.mpr ⟨le_slots 2 n, by omega⟩), hsize]

/-- After every run the block of an arena has no slot, if the queue was never used, and else the
least power of two, from four on, that held the peak load of the run. -/
theorem arena_size (L : Link) (N : NodeLayout) {D : Type} [Priority D] (ops : List (QueueOp D)) :
    ∃ c : Client (ArenaQueue L N D) D,
      run (after Client.call) (Client.start ArenaQueue.default) ops = some c ∧
      c.queue.nodes.length = c.queue.size ∧
      c.queue.size = slots 2 (peak (after Client.call) (fun c => c.live.length)
        (Client.start (ArenaQueue.default : ArenaQueue L N D)) ops) := by
  have hstart : Fits (Client.start (ArenaQueue.default : ArenaQueue L N D)) 0 :=
    ⟨[], Holds.start, rfl, Nat.le_refl 0⟩
  obtain ⟨c, hr, l, hc, hsize, -⟩ := run_peak (R := Fits) hstart (fun _ _ op h => h.step op) ops
  have hw : c.queue.WF l := hc.rep
  exact ⟨c, hr, hw.length, hsize⟩

end Block

end PriorityLock
