import PriorityLock.Queue.Runs

/-! # Correctness of the builtin queues

Every run of operations on live handles from an empty queue is defined. The
queue then yields the live entries by descending priority, and the arena's
fields, links and marks are in the state that its representation asks for.
-/

namespace PriorityLock

open Placement Transition

section Order

variable {Q D : Type} [Priority D] [PriorityQueue Q D] [LawfulQueue Q D]

theorem Holds.step {c : Client Q D} {l : List (Entry D)} (hc : Holds c l) (op : QueueOp D) :
    ∃ r c' l', after Client.call c op = some c' ∧ Holds c' l' ∧ Moves op r l l' := by
  obtain ⟨r, c', l', hcall, hc', hm⟩ := hc.call op
  exact ⟨r, c', l', after_eq hcall, hc', hm⟩

theorem run_holds (ops : List (QueueOp D)) : ∃ c l,
    run (after Client.call) (Client.start (PriorityQueue.default : Q)) ops = some c ∧
      Holds c l := by
  have hstep : ∀ (c : Client Q D) (op : QueueOp D), (∃ l, Holds c l) →
      ∃ c', after Client.call c op = some c' ∧ ∃ l, Holds c' l := by
    rintro c op ⟨l, hc⟩
    obtain ⟨r, c', l', hs, hc', -⟩ := hc.step op
    exact ⟨c', hs, l', hc'⟩
  obtain ⟨c, hr, l, hc⟩ := run_keeps hstep ⟨[], Holds.start⟩ ops
  exact ⟨c, l, hr, hc⟩

theorem run_descending [LawfulPriority D] {ops : List (QueueOp D)}
    (hops : ∀ op ∈ ops, op.KeepsPriority) : ∃ c l,
    run (after Client.call) (Client.start (PriorityQueue.default : Q)) ops = some c ∧ Holds c l ∧
      Descending Priority.compare l := by
  have hstep : ∀ (c : Client Q D) (op : QueueOp D),
      (∃ l, Holds c l ∧ Descending Priority.compare l) → op.KeepsPriority →
      ∃ c', after Client.call c op = some c' ∧ ∃ l, Holds c' l ∧ Descending Priority.compare l := by
    rintro c op ⟨l, hc, hd⟩ hop
    obtain ⟨r, c', l', hs, hc', hm⟩ := hc.step op
    exact ⟨c', hs, l', hc', hm.descending hop hd⟩
  obtain ⟨c, hr, l, hc, hd⟩ := run_invariant hstep ⟨[], Holds.start, .nil⟩ hops
  exact ⟨c, l, hr, hc, hd⟩

end Order

/-- After every run, iterating a builtin queue yields the live entries, each once, by
descending priority, and the head is a maximal one. -/
theorem queue_sorted (k : QueueKind) {D : Type} [Priority D] [LawfulPriority D]
    (ops : List (QueueOp D)) (hops : ∀ op ∈ ops, op.KeepsPriority) : ∃ c l,
    run (after Client.call) (Client.start (PriorityQueue.default : k.Queue D)) ops = some c ∧
      PriorityQueue.entries c.queue = some l ∧ l.Perm c.live ∧ (handles l).Nodup ∧
      Descending Priority.compare l ∧
      PriorityQueue.head c.queue = some (l.head?.map Entry.handle) ∧
      ∀ e ∈ l.head?, ∀ f ∈ c.live, (Priority.compare e f).isGE := by
  obtain ⟨c, l, hr, hc, hd⟩ := run_descending (Q := k.Queue D) hops
  refine ⟨c, l, hr, LawfulQueue.entries_eq hc.rep, hc.perm, LawfulQueue.nodup hc.rep, hd,
    LawfulQueue.head_spec hc.rep, ?_⟩
  intro e he f hf
  obtain ⟨t, rfl⟩ := List.head?_eq_some_iff.mp he
  exact hd.head_isGE f (hc.perm.mem_iff.mpr hf)

theorem queue_sorted_dual_arena :
    ∃ (c : Client ((QueueKind.arena .dual ⟨64, 24, by decide, by decide, by decide⟩).Queue ℕ) ℕ)
      (l : List (Entry ℕ)),
      run (after Client.call) (Client.start PriorityQueue.default)
        [.enqueue 1, .enqueue 2, .updateNode 0 fun d => (d + 5, true)] = some c ∧
      PriorityQueue.entries c.queue = some l ∧ l.Perm c.live ∧ (handles l).Nodup ∧
      Descending Priority.compare l ∧
      PriorityQueue.head c.queue = some (l.head?.map Entry.handle) ∧
      ∀ e ∈ l.head?, ∀ f ∈ c.live, (Priority.compare e f).isGE :=
  queue_sorted _ _ (by simp [QueueOp.KeepsPriority])

section Arena

open Links ArenaQueue

variable {L : Link} {N : NodeLayout} {D : Type} {q : ArenaQueue L N D} {l : List (Entry D)}

/-- What the fields, links and marks of an arena with the entries `l` are. -/
structure Sound (q : ArenaQueue L N D) (l : List (Entry D)) : Prop where
  block : q.nodes.length = q.size
  size : q.size = 0 ∨ ∃ k, 2 ≤ k ∧ q.size = 2 ^ k
  used : q.used = q.nodes.countP fun n => n.next ≠ N.unallocated
  good : 0 < q.size → q.good < q.size
  nodup : (handles l).Nodup
  walk : q.iterAt none = some (handles l)
  allocated : ∀ o, o ∈ handles l ↔ q.Valid o ∧ q.nextAt o ≠ N.unallocated
  head : q.head = (l.head?.map Entry.handle).getD sentinel
  next : ∀ a e b, l = a ++ e :: b →
    q.nextAt e.handle = (b.head?.map Entry.handle).getD sentinel
  prev : L.hasPrev = true → ∀ a e b, l = a ++ e :: b →
    q.prevAt e.handle = (a.getLast?.map Entry.handle).getD sentinel
  data : ∀ e ∈ l, q.getData e.handle = some e.data

theorem first_eq_getD (l : List (Entry D)) :
    first id (handles l) sentinel = (l.head?.map Entry.handle).getD sentinel := by
  cases l <;> rfl

theorem last_eq_getD (l : List (Entry D)) :
    last id sentinel (handles l) = (l.getLast?.map Entry.handle).getD sentinel := by
  rcases List.eq_nil_or_concat' l with rfl | ⟨l, e, rfl⟩ <;> simp

theorem ArenaQueue.WF.mem_iff (h : q.WF l) (o : ℕ) :
    o ∈ handles l ↔ q.Valid o ∧ q.nextAt o ≠ N.unallocated := by
  constructor
  · intro hm
    obtain ⟨e, he, rfl⟩ := List.mem_map.mp hm
    have hv : q.Valid e.handle := h.valid he
    exact ⟨hv, fun hn => (h.free_iff hv).mp hn hm⟩
  · rintro ⟨hv, hn⟩
    by_contra hm
    exact hn ((h.free_iff hv).mpr hm)

theorem ArenaQueue.WF.used_eq (h : q.WF l) :
    q.used = q.nodes.countP fun n => n.next ≠ N.unallocated := by
  have hmap : q.nodes.map ArenaNode.next =
      (List.range q.nodes.length).map fun i => q.nextAt (i * N.nodeSize) := by
    refine List.ext_getElem (by simp) fun i h₁ h₂ => ?_
    have hi : i < q.nodes.length := by simpa using h₁
    simp [nextAt, node_mul, hi]
  have hcount : (q.nodes.countP fun n => n.next ≠ N.unallocated) =
      ((List.range q.nodes.length).filter fun i =>
        q.nextAt (i * N.nodeSize) ≠ N.unallocated).length := by
    calc (q.nodes.countP fun n => n.next ≠ N.unallocated)
        = (q.nodes.map ArenaNode.next).countP fun v => v ≠ N.unallocated := by
          rw [List.countP_map]
          rfl
      _ = _ := by
          rw [hmap, List.countP_map, List.countP_eq_length_filter]
          rfl
  have hperm : (((List.range q.nodes.length).filter fun i =>
      q.nextAt (i * N.nodeSize) ≠ N.unallocated).map (· * N.nodeSize)).Perm (handles l) := by
    refine (List.perm_ext_iff_of_nodup ?_ h.nodup).mpr fun o => ?_
    · exact (List.nodup_range.filter _).map fun _ _ => mul_nodeSize_inj.mp
    · rw [h.mem_iff]
      constructor
      · intro hm
        obtain ⟨i, hi, rfl⟩ := List.mem_map.mp hm
        obtain ⟨hi, hn⟩ := List.mem_filter.mp hi
        exact ⟨valid_mul.mpr (List.mem_range.mp hi), by simpa using hn⟩
      · rintro ⟨hv, hn⟩
        obtain ⟨i, hi, rfl⟩ := hv.exists_slot
        exact List.mem_map.mpr ⟨i, List.mem_filter.mpr ⟨List.mem_range.mpr hi, by simpa using hn⟩,
          rfl⟩
  rw [h.used, hcount, ← hperm.length_eq, List.length_map]

theorem ArenaQueue.WF.sound (h : q.WF l) : Sound q l where
  block := h.length
  size := h.size
  used := h.used_eq
  good := h.good
  nodup := h.nodup
  walk := h.iterAt_none
  allocated := h.mem_iff
  head := h.head_eq.trans (first_eq_getD l)
  next := by
    rintro a e b rfl
    exact h.next_eq.trans (first_eq_getD b)
  prev := by
    rintro hL a e b rfl
    exact (h.prev_eq hL).trans (last_eq_getD a)
  data := h.data

/-- After every run the arena is sound, its live handles designate their entries, and
dequeuing one removes exactly that one and returns its neighbours. -/
theorem arena_representation (L : Link) (N : NodeLayout) {D : Type} [Priority D]
    (ops : List (QueueOp D)) : ∃ (c : Client (ArenaQueue L N D) D) (l : List (Entry D)),
    run (after Client.call) (Client.start ArenaQueue.default) ops = some c ∧
      l.Perm c.live ∧ Sound c.queue l ∧
      ∀ a e b, l = a ++ e :: b → ∃ q', c.queue.dequeue e.handle =
        some ((a.getLast?.map Entry.data, b.head?.map Entry.handle), q') ∧
        Sound q' (a ++ b) := by
  obtain ⟨c, l, hr, hc⟩ := run_holds (Q := ArenaQueue L N D) ops
  have hw : c.queue.WF l := hc.rep
  refine ⟨c, l, hr, hc.perm, hw.sound, ?_⟩
  rintro a e b rfl
  obtain ⟨q', hq, hw'⟩ := ArenaQueue.dequeue_spec hw
  exact ⟨q', hq, hw'.sound⟩

end Arena

end PriorityLock
