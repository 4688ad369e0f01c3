import PriorityLock.Queue.Slots

/-! # Arenas in lock step

An arena refines the slot queue operation by operation. So a single-link and a
dual-link arena that run the same operations agree slot by slot, and the search
of the one for a previous node finds the node that the other one's link names.
-/

namespace PriorityLock

open ArenaQueue Links Placement Transition

variable {L : Link} {N : NodeLayout} {D : Type} [Priority D]

def QueueOp.byte (N : NodeLayout) : QueueOp D → QueueOp D
  | .enqueue d => .enqueue d
  | .dequeue i => .dequeue (i * N.nodeSize)
  | .updateNode i f => .updateNode (i * N.nodeSize) f
  | .getByHandle i => .getByHandle (i * N.nodeSize)
  | .getNextHandle i => .getNextHandle (i * N.nodeSize)
  | .iterAt i => .iterAt (i.map (· * N.nodeSize))
  | .isEmpty => .isEmpty
  | .head => .head
  | .headHandle => .headHandle

def QueueResult.byte (N : NodeLayout) : QueueResult D → QueueResult D
  | .handle i => .handle (i * N.nodeSize)
  | .dequeued p i => .dequeued p (i.map (· * N.nodeSize))
  | .data d => .data d
  | .ref i => .ref (i.map (· * N.nodeSize))
  | .items is => .items (is.map (· * N.nodeSize))
  | .empty b => .empty b
  | .unit => .unit
  | .refused => .refused

/-- The arena holds the entries of the slot queue, slot by slot. -/
structure Refines (q : ArenaQueue L N D) (s : SlotQueue D) : Prop where
  wf : q.WF (s.entries.map (Entry.byte N))
  size : q.size = s.size
  good : q.good = s.good

namespace Refines

variable {q q' : ArenaQueue L N D} {s : SlotQueue D} {a b : List (Entry D)} {e : Entry D} {d : D}
  {i fuel : ℕ} {prev : Option ℕ} {found : Bool}

omit [Priority D] in
theorem grown (h : Refines q s) : Refines q.grown s.grown := by
  have hu : q.used = s.entries.length := by simpa [handles] using h.wf.used
  unfold ArenaQueue.grown SlotQueue.grown
  rw [h.size, hu]
  split
  · next hfull =>
    have hf : q.size = q.used := h.size.trans (hfull.trans hu.symm)
    exact ⟨(h.wf.expand hf).1, by simp [expand, h.size], h.size⟩
  · exact h

theorem probe (h : Refines q s) (d : D) (fuel : ℕ) (found : Bool) (hi : i < q.size)
    (hp : ∀ p ∈ prev, p ∈ handles s.entries) :
    q.emplaceLoop d fuel i (prev.map (· * N.nodeSize)) found =
      (s.probe d fuel i prev found).map fun r => (r.1, r.2.1.map (· * N.nodeSize), r.2.2) := by
  induction fuel generalizing i prev found with
  | zero => rfl
  | succ fuel ih =>
    have hv : q.Valid (i * N.nodeSize) := valid_mul.mpr (by rw [h.wf.length]; exact hi)
    obtain ⟨n, hn⟩ := Option.isSome_iff_exists.mp hv
    have hnext : q.nextAt (i * N.nodeSize) = n.next := by simp [nextAt, hn]
    have hdata : q.getData (i * N.nodeSize) = n.data := by simp [getData, hn]
    rw [node_mul] at hn
    have hi' : (i + 1) &&& (s.size - 1) < q.size := by
      rw [← h.size, h.wf.mask (by omega)]
      exact Nat.mod_lt _ (by omega)
    cases hl : lookup s.entries i with
    | none =>
      have hu : n.next = N.unallocated := by
        rw [← hnext, h.wf.free_iff hv, mem_handles_byte]
        exact not_mem_of_lookup hl
      simp [emplaceLoop, SlotQueue.probe, hn, hu, hl]
    | some e =>
      obtain ⟨he, rfl⟩ := mem_of_lookup hl
      have hu : n.next ≠ N.unallocated := by
        rw [← hnext]
        intro hc
        exact (h.wf.free_iff hv).mp hc (mem_handles_byte.mpr (mem_handles he))
      have hd : n.data = some e.data :=
        hdata.symm.trans (h.wf.data (e.byte N) (List.mem_map_of_mem he))
      have hself : ∀ p ∈ some e.handle, p ∈ handles s.entries := by
        rintro p ⟨⟩
        exact mem_handles he
      cases found with
      | true => simp [emplaceLoop, SlotQueue.probe, hn, hu, hl, ih true hi' hp, h.size]
      | false =>
        cases hc : Priority.compareNew d e.data with
        | gt => simp [emplaceLoop, SlotQueue.probe, hn, hu, hl, hd, hc, ih false hi' hp, h.size]
        | eq =>
          have hr := ih true hi' hself
          rw [Option.map_some] at hr
          simp [emplaceLoop, SlotQueue.probe, hn, hu, hl, hd, hc, hr, h.size]
        | lt =>
          have hr := ih false hi' hself
          rw [Option.map_some] at hr
          cases prev with
          | none => simp [emplaceLoop, SlotQueue.probe, hn, hu, hl, hd, hc, hr, h.size]
          | some p =>
            have hk := ih false hi' hp
            rw [Option.map_some] at hk
            cases hlp : lookup s.entries p with
            | none => exact absurd (hp p rfl) (not_mem_of_lookup hlp)
            | some f =>
              obtain ⟨hf, rfl⟩ := mem_of_lookup hlp
              have hfd : q.getData (f.handle * N.nodeSize) = some f.data :=
                h.wf.data (f.byte N) (List.mem_map_of_mem hf)
              by_cases hg : Priority.compare e.data f.data = .gt
              · simp [emplaceLoop, SlotQueue.probe, hn, hu, hl, hd, hc, hlp, hfd, hg, hr, h.size]
              · simp [emplaceLoop, SlotQueue.probe, hn, hu, hl, hd, hc, hlp, hfd, hg, hk, h.size]

omit [Priority D] in
theorem map_split : (a ++ e :: b).map (Entry.byte N) =
    a.map (Entry.byte N) ++ e.byte N :: b.map (Entry.byte N) := by
  simp

theorem enqueue (h : Refines q s) (d : D) : ∃ i q' s', s.enqueue d = some (i, s') ∧
    q.enqueue d = some (i * N.nodeSize, q') ∧ Refines q' s' ∧
    s'.entries.Perm (⟨i, d⟩ :: s.entries) := by
  have hg := h.grown
  obtain ⟨i, prev, found, q', hl, ho, hint, hq', hw, hsize, hgood⟩ := enqueue_eq h.wf d
  have hlt : q.grown.good < q.grown.size := by
    have hroom := h.wf.grown
    exact hroom.1.good (by omega)
  have hnone : ∀ p ∈ (none : Option ℕ), p ∈ handles s.grown.entries := by simp
  have hpr := hg.probe d q.grown.size false hlt hnone
  rw [Option.map_none, hl, hg.size, hg.good] at hpr
  obtain ⟨⟨j, p, t⟩, hp, heq⟩ := Option.map_eq_some_iff.mp hpr.symm
  obtain ⟨rfl, rfl, rfl⟩ : j = i ∧ p.map (· * N.nodeSize) = prev ∧ t = found := by simpa using heq
  have hplace := placeAt_byte (N := N) ⟨j, d⟩ p t s.entries
  have hperm := (placed_placeAt (o := j * N.nodeSize) h.wf.nodup hint).perm
  let s' : SlotQueue D :=
    ⟨s.grown.size, (j + 1) &&& (s.grown.size - 1), placeAt ⟨j, d⟩ p t s.entries⟩
  have henq : s.enqueue d = some (j, s') := by
    rw [SlotQueue.enqueue, hp]
    rfl
  refine ⟨j, q', s', henq, hq', ⟨?_, ?_, ?_⟩, ?_⟩
  · rw [← hplace]
    exact hw
  · rw [hsize, hg.size]
  · rw [hgood, hg.size]
  · apply (List.map_perm_map_iff byte_injective).mp
    rw [← hplace]
    exact hperm

omit [Priority D] in
theorem dequeue (h : Refines q s) (hs : s.entries = a ++ e :: b) : ∃ q',
    q.dequeue (e.handle * N.nodeSize) = some ((a.getLast?.map Entry.data,
      (b.head?.map Entry.handle).map (· * N.nodeSize)), q') ∧
    Refines q' ⟨s.size, e.handle, a ++ b⟩ := by
  have hw := h.wf
  rw [hs, map_split] at hw
  obtain ⟨q', hq', hw'⟩ := dequeue_spec hw
  obtain ⟨hsize, hgood⟩ := dequeue_counts hw hq'
  refine ⟨q', ?_, by simpa using hw', hsize.trans h.size, ?_⟩
  · simpa [Function.comp_def, Entry.byte] using hq'
  · rw [hgood]
    exact Nat.mul_div_cancel _ N.nodeSize_pos

theorem updateNode {f : D → D × Bool} (h : Refines q s) (hs : s.entries = a ++ e :: b) : ∃ q',
    q.updateNode (e.handle * N.nodeSize) f = some q' ∧
    Refines q' { s with entries := if (f e.data).2 then resettled ⟨e.handle, (f e.data).1⟩ a b
      else a ++ ⟨e.handle, (f e.data).1⟩ :: b } := by
  have hw := h.wf
  rw [hs, map_split] at hw
  have hput := hw.putData (f e.data).1
  have hsize : ∀ o d, (q.putData o d).size = q.size := fun _ _ => size_modifyNode
  have hgood : ∀ o d, (q.putData o d).good = q.good := fun _ _ => good_modifyNode
  cases hf : (f e.data).2 with
  | false =>
    have hv : q.Valid (e.handle * N.nodeSize) := hw.valid (e := e.byte N) (by simp)
    refine ⟨q.putData (e.handle * N.nodeSize) (some (f e.data).1), ?_, ?_, ?_, ?_⟩
    · have hd : q.getData (e.handle * N.nodeSize) = some e.data :=
        hw.data (e.byte N) (by simp)
      simp [ArenaQueue.updateNode, hd, setData_eq hv, hf]
    · simpa [Entry.byte] using hput
    · exact (hsize _ _).trans h.size
    · exact (hgood _ _).trans h.good
  | true =>
    obtain ⟨q', hq', hw', hfr⟩ := settle_eq hput
    refine ⟨q', (updateNode_eq hw hf).trans hq', ?_, ?_, ?_⟩
    · have hr := resettled_byte (N := N) (x := ⟨e.handle, (f e.data).1⟩) (a := a) (b := b)
      rw [if_pos rfl, ← hr]
      exact hw'
    · exact (hfr.size.trans (hsize _ _)).trans h.size
    · exact (hfr.good.trans (hgood _ _)).trans h.good

end Refines

/-- The two clients hold the same entries, slot by slot. -/
structure Mirrors (c : Client (ArenaQueue L N D) D) (t : Client (SlotQueue D) D) : Prop where
  refines : Refines c.queue t.queue
  live : c.live = t.live.map (Entry.byte N)
  perm : t.queue.entries.Perm t.live

namespace Mirrors

variable {c : Client (ArenaQueue L N D) D} {t : Client (SlotQueue D) D} {e : Entry D} {i : ℕ}
  {a b : List (Entry D)}

omit [Priority D] in
theorem nodup (h : Mirrors c t) : (handles t.queue.entries).Nodup := nodup_byte h.refines.wf.nodup

omit [Priority D] in
theorem split (h : Mirrors c t) (hl : lookup t.live i = some e) : ∃ a b,
    t.queue.entries = a ++ e :: b ∧ e.handle = i ∧ splitOn t.queue.entries i = some (a, e, b) := by
  obtain ⟨he, rfl⟩ := mem_of_lookup hl
  obtain ⟨a, b, hab⟩ := List.append_of_mem (h.perm.mem_iff.mpr he)
  have hn := h.nodup
  rw [hab] at hn ⊢
  exact ⟨a, b, rfl, rfl, splitOn_middle hn⟩

omit [Priority D] in
theorem lookup_eq (h : Mirrors c t) :
    lookup c.live (i * N.nodeSize) = (lookup t.live i).map (Entry.byte N) := by
  rw [h.live, lookup_byte]

omit [Priority D] in
theorem without_eq (h : Mirrors c t) :
    without c.live (i * N.nodeSize) = (without t.live i).map (Entry.byte N) := by
  rw [h.live, without_byte]

omit [Priority D] in
theorem wf_split (h : Mirrors c t) (hab : t.queue.entries = a ++ e :: b) :
    c.queue.WF (a.map (Entry.byte N) ++ e.byte N :: b.map (Entry.byte N)) := by
  rw [← Refines.map_split, ← hab]
  exact h.refines.wf

omit [Priority D] in
theorem without_perm (h : Mirrors c t) (hab : t.queue.entries = a ++ e :: b) :
    (a ++ b).Perm (without t.live e.handle) := by
  have hn := h.nodup
  have hp := h.perm.filter (·.handle ≠ e.handle)
  rw [hab] at hn hp
  rwa [← without_middle hn]

theorem refused (h : Mirrors c t) {op : QueueOp D} (hop : op.target = some i)
    (hl : lookup t.live i = none) : ∃ r c' t', t.call op = some (r, t') ∧
      c.call (op.byte N) = some (r.byte N, c') ∧ Mirrors c' t' := by
  have hc := h.lookup_eq (i := i)
  rw [hl, Option.map_none] at hc
  refine ⟨.refused, c, t, ?_, ?_, h⟩
  · cases op <;> simp_all [QueueOp.target, Client.call]
  · cases op <;> simp_all [QueueOp.target, QueueOp.byte, QueueResult.byte, Client.call]

theorem enqueue (h : Mirrors c t) (d : D) : ∃ r c' t', t.call (.enqueue d) = some (r, t') ∧
    c.call (.enqueue d) = some (r.byte N, c') ∧ Mirrors c' t' := by
  obtain ⟨i, q', s', hs, hq, hr, hp⟩ := h.refines.enqueue d
  have hs' : PriorityQueue.enqueue t.queue d = some (i, s') := hs
  have hq' : PriorityQueue.enqueue c.queue d = some (i * N.nodeSize, q') := hq
  have hm : Mirrors ⟨q', ⟨i * N.nodeSize, d⟩ :: c.live⟩ ⟨s', ⟨i, d⟩ :: t.live⟩ := by
    constructor
    · exact hr
    · rw [h.live]
      rfl
    · exact hp.trans (h.perm.cons _)
  exact ⟨.handle i, _, _, by simp [Client.call, hs'],
    by simp [Client.call, hq', QueueResult.byte], hm⟩

theorem dequeue (h : Mirrors c t) (hl : lookup t.live i = some e) : ∃ r c' t',
    t.call (.dequeue i) = some (r, t') ∧ c.call (.dequeue (i * N.nodeSize)) = some (r.byte N, c') ∧
      Mirrors c' t' := by
  obtain ⟨a, b, hab, rfl, hsp⟩ := h.split hl
  obtain ⟨q', hq, hr⟩ := h.refines.dequeue hab
  have hc := h.lookup_eq (i := e.handle)
  rw [hl, Option.map_some] at hc
  let r : QueueResult D := .dequeued (a.getLast?.map Entry.data) (b.head?.map Entry.handle)
  let s' : SlotQueue D := ⟨t.queue.size, e.handle, a ++ b⟩
  have ht : t.call (.dequeue e.handle) = some (r, ⟨s', without t.live e.handle⟩) := by
    simp [Client.call, hl, PriorityQueue.dequeue, SlotQueue.dequeue, hsp, r, s']
  have hc' : c.call (.dequeue (e.handle * N.nodeSize)) =
      some (r.byte N, ⟨q', without c.live (e.handle * N.nodeSize)⟩) := by
    simp [Client.call, hc, PriorityQueue.dequeue, hq, r, QueueResult.byte]
  exact ⟨r, _, _, ht, hc', hr, h.without_eq, h.without_perm hab⟩

theorem updateNode (h : Mirrors c t) (f : D → D × Bool) (hl : lookup t.live i = some e) :
    ∃ r c' t', t.call (.updateNode i f) = some (r, t') ∧
      c.call (.updateNode (i * N.nodeSize) f) = some (r.byte N, c') ∧ Mirrors c' t' := by
  obtain ⟨a, b, hab, rfl, hsp⟩ := h.split hl
  obtain ⟨q', hq, hr⟩ := h.refines.updateNode (f := f) hab
  have hc := h.lookup_eq (i := e.handle)
  rw [hl, Option.map_some] at hc
  let x : Entry D := ⟨e.handle, (f e.data).1⟩
  let s' : SlotQueue D :=
    { t.queue with entries := if (f e.data).2 then resettled x a b else a ++ x :: b }
  have ht : t.call (.updateNode e.handle f) = some (.unit, ⟨s', x :: without t.live e.handle⟩) := by
    simp [Client.call, hl, PriorityQueue.updateNode, SlotQueue.updateNode, hsp, x, s']
  have hc' : c.call (.updateNode (e.handle * N.nodeSize) f) =
      some (.unit, ⟨q', x.byte N :: without c.live (e.handle * N.nodeSize)⟩) := by
    simp [Client.call, hc, PriorityQueue.updateNode, hq, x, Entry.byte]
  refine ⟨.unit, _, _, ht, hc', hr, ?_, ?_⟩
  · rw [h.without_eq]
    rfl
  · have hp := (h.without_perm hab).cons x
    simp only [s']
    split
    · exact settled_resettled.perm.trans hp
    · exact List.perm_middle.trans hp

theorem read (h : Mirrors c t) {op : QueueOp D} (hl : lookup t.live i = some e)
    (hop : op = .getByHandle i ∨ op = .getNextHandle i ∨ op = .iterAt (some i)) : ∃ r c' t',
      t.call op = some (r, t') ∧ c.call (op.byte N) = some (r.byte N, c') ∧ Mirrors c' t' := by
  obtain ⟨a, b, hab, rfl, hsp⟩ := h.split hl
  have hc := h.lookup_eq (i := e.handle)
  rw [hl, Option.map_some] at hc
  have hw := h.wf_split hab
  rcases hop with rfl | rfl | rfl
  · have hq : PriorityQueue.getByHandle c.queue (e.handle * N.nodeSize) = some e.data :=
      hw.data (e.byte N) (by simp)
    exact ⟨.data e.data, c, t,
      by simp [Client.call, hl, PriorityQueue.getByHandle, hsp, Client.read],
      by simp [QueueOp.byte, Client.call, hc, hq, Client.read, QueueResult.byte], h⟩
  · have hq := LawfulQueue.getNextHandle_spec (q := c.queue) hw
    have hq' : PriorityQueue.getNextHandle c.queue (e.handle * N.nodeSize) =
        some ((b.head?.map Entry.handle).map (· * N.nodeSize)) := by
      simpa [Function.comp_def, Entry.byte] using hq
    exact ⟨.ref (b.head?.map Entry.handle), c, t,
      by simp [Client.call, hl, PriorityQueue.getNextHandle, hsp, Client.read],
      by simp [QueueOp.byte, Client.call, hc, hq', Client.read, QueueResult.byte], h⟩
  · have hq : PriorityQueue.iterAt c.queue (some (e.handle * N.nodeSize)) =
        some ((handles (e :: b)).map (· * N.nodeSize)) :=
      hw.iterAt_some.trans (congrArg some (handles_byte (l := e :: b)))
    exact ⟨.items (handles (e :: b)), c, t,
      by simp [Client.call, hl, PriorityQueue.iterAt, hsp, Client.read],
      by simp [QueueOp.byte, Client.call, hc, hq, Client.read, QueueResult.byte], h⟩

theorem readAll (h : Mirrors c t) {op : QueueOp D}
    (hop : op = .iterAt none ∨ op = .isEmpty ∨ op = .head ∨ op = .headHandle) : ∃ r c' t',
      t.call op = some (r, t') ∧ c.call (op.byte N) = some (r.byte N, c') ∧ Mirrors c' t' := by
  have hw := h.refines.wf
  have hhead : ((t.queue.entries.map (Entry.byte N)).head?.map Entry.handle) =
      (t.queue.entries.head?.map Entry.handle).map (· * N.nodeSize) := by
    simp [Function.comp_def, Entry.byte]
  rcases hop with rfl | rfl | rfl | rfl
  · have hq : PriorityQueue.iterAt c.queue none =
        some ((handles t.queue.entries).map (· * N.nodeSize)) :=
      hw.iterAt_none.trans (congrArg some handles_byte)
    exact ⟨.items (handles t.queue.entries), c, t, rfl,
      by simp [QueueOp.byte, Client.call, hq, Client.read, QueueResult.byte], h⟩
  · have hq := LawfulQueue.isEmpty_spec (q := c.queue) hw
    exact ⟨.empty t.queue.entries.isEmpty, c, t, rfl,
      by simp [QueueOp.byte, Client.call, hq, Client.read, QueueResult.byte], h⟩
  · have hq := LawfulQueue.head_spec (q := c.queue) hw
    rw [hhead] at hq
    exact ⟨.ref (t.queue.entries.head?.map Entry.handle), c, t, rfl,
      by simp [QueueOp.byte, Client.call, hq, Client.read, QueueResult.byte], h⟩
  · have hq := LawfulQueue.headHandle_spec (q := c.queue) hw
    rw [hhead] at hq
    exact ⟨.ref (t.queue.entries.head?.map Entry.handle), c, t, rfl,
      by simp [QueueOp.byte, Client.call, hq, Client.read, QueueResult.byte], h⟩

theorem call (h : Mirrors c t) (op : QueueOp D) : ∃ r c' t', t.call op = some (r, t') ∧
    c.call (op.byte N) = some (r.byte N, c') ∧ Mirrors c' t' := by
  rcases ht : op.target with _ | i
  · cases op with
    | enqueue d => exact h.enqueue d
    | iterAt i =>
      obtain rfl : i = none := ht
      exact h.readAll (by simp)
    | isEmpty | head | headHandle => exact h.readAll (by simp)
    | dequeue | updateNode | getByHandle | getNextHandle => simp [QueueOp.target] at ht
  · cases hl : lookup t.live i with
    | none => exact h.refused ht hl
    | some e =>
      cases op with
      | dequeue j =>
        obtain rfl : j = i := Option.some_inj.mp ht
        exact h.dequeue hl
      | updateNode j f =>
        obtain rfl : j = i := Option.some_inj.mp ht
        exact h.updateNode f hl
      | getByHandle j | getNextHandle j =>
        obtain rfl : j = i := Option.some_inj.mp ht
        exact h.read hl (by simp)
      | iterAt j =>
        obtain rfl : j = some i := ht
        exact h.read hl (by simp)
      | enqueue | isEmpty | head | headHandle => simp [QueueOp.target] at ht

end Mirrors

/-- What a link word refers to. -/
inductive LinkTarget
  | unallocated
  | sentinel
  | slot (slot : ℕ)
  deriving DecidableEq, Repr

def linkTarget (N : NodeLayout) (link : ℕ) : LinkTarget :=
  if link = N.unallocated then .unallocated
  else if link = sentinel then .sentinel
  else .slot (link / N.nodeSize)

/-- A single-link and a dual-link arena agree, slot by slot. The link back of an entry behind
another names the one slot that a search finds, before and after the entry's slot is freed. -/
structure Lockstep {N N' : NodeLayout} (q : ArenaQueue .single N D) (q' : ArenaQueue .dual N' D) :
    Prop where
  size : q.size = q'.size
  used : q.used = q'.used
  good : q.good = q'.good
  head : linkTarget N q.head = linkTarget N' q'.head
  next : ∀ i < q.size,
    linkTarget N (q.nextAt (i * N.nodeSize)) = linkTarget N' (q'.nextAt (i * N'.nodeSize))
  data : ∀ i < q.size, q.nextAt (i * N.nodeSize) ≠ N.unallocated →
    q.getData (i * N.nodeSize) = q'.getData (i * N'.nodeSize)
  prev : ∀ i < q.size, q.nextAt (i * N.nodeSize) ≠ N.unallocated → i * N.nodeSize ≠ q.head →
    ∃ p < q.size, q'.prevAt (i * N'.nodeSize) = p * N'.nodeSize ∧
      (∀ j < q.size, q.nextAt (j * N.nodeSize) = i * N.nodeSize ↔ j = p) ∧
      q.prevFor (i * N.nodeSize) = some (p * N.nodeSize) ∧
      (∀ j < q.size, (q.freed (i * N.nodeSize)).nextAt (j * N.nodeSize) = i * N.nodeSize ↔ j = p) ∧
      (q.freed (i * N.nodeSize)).prevFor (i * N.nodeSize) = some (p * N.nodeSize)

section Agreement

variable {N' : NodeLayout} {q : ArenaQueue L N D} {s : SlotQueue D} {a b : List (Entry D)}
  {e p : Entry D} {i : ℕ}

theorem linkTarget_mul (N : NodeLayout) (i : ℕ) : linkTarget N (i * N.nodeSize) = .slot i := by
  have heven : 2 ∣ i * N.nodeSize := Dvd.dvd.mul_left N.nodeSize_even i
  have hu : i * N.nodeSize ≠ N.unallocated := fun h => unallocated_odd N (h ▸ heven)
  have hs : i * N.nodeSize ≠ sentinel := by
    unfold sentinel
    omega
  simp [linkTarget, hu, hs, Nat.mul_div_cancel _ N.nodeSize_pos]

omit [Priority D] in
theorem linkTarget_first (N : NodeLayout) (b : List (Entry D)) :
    linkTarget N (first id (handles (b.map (Entry.byte N))) sentinel) =
      (b.head?.map fun e => LinkTarget.slot e.handle).getD .sentinel := by
  cases b with
  | nil => simp [linkTarget, sentinel_ne_unallocated]
  | cons e b => exact linkTarget_mul N e.handle

namespace Refines

omit [Priority D] in
theorem valid (h : Refines q s) (hi : i < q.size) : q.Valid (i * N.nodeSize) :=
  valid_mul.mpr (h.wf.length.symm ▸ hi)

omit [Priority D] in
theorem lt_size (h : Refines q s) (hs : s.entries = a ++ e :: b) : e.handle < q.size := by
  have hv : q.Valid (e.byte N).handle := h.wf.valid (List.mem_map_of_mem (by simp [hs]))
  exact h.wf.length ▸ valid_mul.mp hv

omit [Priority D] in
theorem used (h : Refines q s) : q.used = s.entries.length := by
  simpa [handles] using h.wf.used

omit [Priority D] in
theorem live_iff (h : Refines q s) (hi : i < q.size) :
    q.nextAt (i * N.nodeSize) ≠ N.unallocated ↔ i ∈ handles s.entries := by
  rw [Ne, h.wf.free_iff (h.valid hi), not_not, mem_handles_byte]

omit [Priority D] in
theorem wf_split (h : Refines q s) (hs : s.entries = a ++ e :: b) :
    q.WF (a.map (Entry.byte N) ++ e.byte N :: b.map (Entry.byte N)) := by
  rw [← map_split, ← hs]
  exact h.wf

omit [Priority D] in
theorem target_head (h : Refines q s) : linkTarget N q.head =
    (s.entries.head?.map fun e => LinkTarget.slot e.handle).getD .sentinel :=
  (congrArg _ h.wf.head_eq).trans (linkTarget_first N s.entries)

omit [Priority D] in
theorem target_next (h : Refines q s) (hs : s.entries = a ++ e :: b) :
    linkTarget N (q.nextAt (e.handle * N.nodeSize)) =
      (b.head?.map fun f => LinkTarget.slot f.handle).getD .sentinel :=
  (congrArg _ (h.wf_split hs).next_eq).trans (linkTarget_first N b)

omit [Priority D] in
theorem data (h : Refines q s) (he : e ∈ s.entries) :
    q.getData (e.handle * N.nodeSize) = some e.data :=
  h.wf.data (e.byte N) (List.mem_map_of_mem he)

omit [Priority D] in
theorem links_iff (h : Refines q s) (hs : s.entries = a ++ p :: e :: b) (hi : i < q.size) :
    q.nextAt (i * N.nodeSize) = e.handle * N.nodeSize ↔ i = p.handle := by
  have hw := h.wf
  rw [hs, map_split, List.map_cons] at hw
  constructor
  · intro hn
    exact mul_nodeSize_inj.mp (hw.eq_of_next_eq (h.valid hi) hn)
  · rintro rfl
    exact hw.next_eq

omit [Priority D] in
theorem links_freed_iff (h : Refines q s) (hs : s.entries = a ++ p :: e :: b) (hi : i < q.size) :
    (q.freed (e.handle * N.nodeSize)).nextAt (i * N.nodeSize) = e.handle * N.nodeSize ↔
      i = p.handle := by
  have hw := h.wf
  rw [hs, map_split, List.map_cons] at hw
  exact (hw.nextAt_freed_iff (h.valid hi)).trans mul_nodeSize_inj

end Refines

variable {q : ArenaQueue .single N D} {q' : ArenaQueue .dual N' D}

omit [Priority D] in
/-- The search of `dequeue` runs once the slot is marked free. -/
theorem Refines.prevFor_freed (h : Refines q s) (hs : s.entries = a ++ p :: e :: b) :
    (q.freed (e.handle * N.nodeSize)).prevFor (e.handle * N.nodeSize) =
      some (p.handle * N.nodeSize) := by
  have he : q.Valid (e.handle * N.nodeSize) :=
    h.valid (h.lt_size (a := a ++ [p]) (b := b) (by simp [hs]))
  have hp : p.handle < q.size := h.lt_size hs
  refine prevFor_eq (p := p.byte N) (valid_freed.mpr he) (valid_freed.mpr (h.valid hp))
    (fun hL => absurd hL (by decide)) ((h.links_freed_iff hs hp).mpr rfl) fun o ho hn => ?_
  obtain ⟨i, hi, rfl⟩ := (valid_freed.mp ho).exists_slot
  exact congrArg (· * N.nodeSize) ((h.links_freed_iff hs (h.wf.length ▸ hi)).mp hn)

omit [Priority D] in
theorem Refines.lockstep (h : Refines q s) (h' : Refines q' s) : Lockstep q q' where
  size := h.size.trans h'.size.symm
  used := h.used.trans h'.used.symm
  good := h.good.trans h'.good.symm
  head := h.target_head.trans h'.target_head.symm
  next := by
    intro i hi
    have hi' : i < q'.size := h'.size ▸ h.size ▸ hi
    by_cases hm : i ∈ handles s.entries
    · obtain ⟨e, he, rfl⟩ := List.mem_map.mp hm
      obtain ⟨a, b, hs⟩ := List.append_of_mem he
      exact (h.target_next hs).trans (h'.target_next hs).symm
    · have hn := not_not.mp (mt (h.live_iff hi).mp hm)
      have hn' := not_not.mp (mt (h'.live_iff hi').mp hm)
      simp [hn, hn', linkTarget]
  data := by
    intro i hi hn
    obtain ⟨e, he, rfl⟩ := List.mem_map.mp ((h.live_iff hi).mp hn)
    exact (h.data he).trans (h'.data he).symm
  prev := by
    intro i hi hn hh
    obtain ⟨e, he, rfl⟩ := List.mem_map.mp ((h.live_iff hi).mp hn)
    obtain ⟨a, b, hs⟩ := List.append_of_mem he
    rcases List.eq_nil_or_concat' a with rfl | ⟨a, p, rfl⟩
    · have hw := h.wf.head_eq
      rw [hs] at hw
      exact absurd hw.symm hh
    · rw [List.append_assoc, List.singleton_append] at hs
      have hw := h.wf
      have hw' := h'.wf
      rw [hs, Refines.map_split, List.map_cons] at hw hw'
      exact ⟨p.handle, h.lt_size hs, hw'.prev_eq_behind rfl, fun j hj => h.links_iff hs hj,
        hw.prevFor, fun j hj => h.links_freed_iff hs hj, h.prevFor_freed hs⟩

end Agreement

section Runs

variable {N' : NodeLayout}

theorem Mirrors.start : Mirrors (Client.start (ArenaQueue.default : ArenaQueue L N D))
    (Client.start (PriorityQueue.default : SlotQueue D)) :=
  ⟨⟨.default, rfl, rfl⟩, rfl, .nil⟩

/-- An arena does what the slot queue does in every run. -/
theorem Mirrors.run {c : Client (ArenaQueue L N D) D} {t : Client (SlotQueue D) D}
    (h : Mirrors c t) (ops : List (QueueOp D)) : ∃ c' t', ∃ rs : List (QueueResult D),
      Transition.run (after Client.call) t ops = some t' ∧ trace Client.call t ops = rs.map some ∧
      Transition.run (after Client.call) c (ops.map (QueueOp.byte N)) = some c' ∧
      trace Client.call c (ops.map (QueueOp.byte N)) = (rs.map (QueueResult.byte N)).map some ∧
      Mirrors c' t' := by
  induction ops generalizing c t with
  | nil => exact ⟨c, t, [], rfl, rfl, rfl, rfl, h⟩
  | cons op ops ih =>
    obtain ⟨r, c₁, t₁, ht, hc, h₁⟩ := h.call op
    obtain ⟨c', t', rs, hrt, htt, hrc, htc, h'⟩ := ih h₁
    refine ⟨c', t', r :: rs, ?_, ?_, ?_, ?_, h'⟩
    · simp [after_eq ht, hrt]
    · simp [trace, ht, htt]
    · simp [after_eq hc, hrc]
    · simp [trace, hc, htc]

/-- A single-link and a dual-link arena that run the same operations on the same slots from an
empty queue stay in lock step and return the same, slot for offset. -/
theorem arenas_lockstep (N N' : NodeLayout) {D : Type} [Priority D] (ops : List (QueueOp D)) :
    ∃ (c : Client (SingleLinkArenaQueue N D) D) (c' : Client (DualLinkArenaQueue N' D) D)
        (rs : List (QueueResult D)),
      run (after Client.call) (Client.start ArenaQueue.default) (ops.map (QueueOp.byte N)) =
        some c ∧
      run (after Client.call) (Client.start ArenaQueue.default) (ops.map (QueueOp.byte N')) =
        some c' ∧
      Lockstep c.queue c'.queue ∧
      trace Client.call (Client.start (ArenaQueue.default : SingleLinkArenaQueue N D))
        (ops.map (QueueOp.byte N)) = (rs.map (QueueResult.byte N)).map some ∧
      trace Client.call (Client.start (ArenaQueue.default : DualLinkArenaQueue N' D))
        (ops.map (QueueOp.byte N')) = (rs.map (QueueResult.byte N')).map some := by
  obtain ⟨c, t, rs, ht, htr, hc, hcr, h⟩ := (Mirrors.start (L := .single) (N := N)).run ops
  obtain ⟨c', t', rs', ht', htr', hc', hcr', h'⟩ := (Mirrors.start (L := .dual) (N := N')).run ops
  obtain rfl : t = t' := Option.some_inj.mp (ht.symm.trans ht')
  obtain rfl : rs = rs' := (Option.some_injective _).list_map (htr.symm.trans htr')
  exact ⟨c, c', rs, hc, hc', h.refines.lockstep h'.refines, hcr, hcr'⟩

end Runs

end PriorityLock
