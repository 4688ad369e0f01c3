import PriorityLock.Queue.Correctness

/-! # Moves of an update

An update that asks for it moves an entry that a neighbour does not accept to
where a scan from the head puts it, and leaves any other one in its place. The
single-link box queue takes a head out on a tie as well.
-/

namespace PriorityLock

open Placement Transition PriorityQueue

variable {D : Type}

/-- Whether a queue takes the entry `x` between `a` and `b` out and puts it behind its ties. -/
def QueueKind.Requeues [Priority D] (x : Entry D) (a b : List (Entry D)) : QueueKind → Prop
  | .boxed .single _ =>
    a = [] ∧ ∃ f ∈ b.head?, Priority.compare x f = .eq ∧ Priority.compareNew x f = .lt
  | _ => False

section Exact

variable [Priority D] {x : Entry D} {a b : List (Entry D)}

/-- On a tie with the next entry, the scan leaves a head in place unless it goes behind ties. -/
theorem BoxQueue.resettled_eq_iff (hn : (handles (a ++ x :: b)).Nodup) :
    BoxQueue.resettled x a b = resettle Priority.compare Priority.compareNew x a b ↔
      ¬(a = [] ∧ ∃ f ∈ b.head?, Priority.compare x f = .eq ∧ Priority.compareNew x f = .lt) := by
  cases a with
  | cons e a => simp [BoxQueue.resettled]
  | nil =>
    cases b with
    | nil => simp [BoxQueue.resettled]
    | cons f b =>
      have hfx : f ≠ x := by
        rintro rfl
        simp at hn
      have hacc : Accepted Priority.compare x [] (f :: b) ↔ Priority.compare x f ≠ .lt := by
        rw [← not_iff_not, not_accepted_head, not_not]
      cases hc : Priority.compare x f with
      | lt => simp [BoxQueue.resettled, resettle, hacc, hc]
      | gt => simp [BoxQueue.resettled, resettle, hacc, hc]
      | eq =>
        cases hcn : Priority.compareNew x f with
        | lt => simp [BoxQueue.resettled, resettle, hacc, hc, scan, hcn, hfx]
        | eq | gt => simp [BoxQueue.resettled, resettle, hacc, hc, scan, hcn]

theorem QueueKind.updateNode_eq [LawfulPriority D] (k : QueueKind) {q : k.Queue D} {e : Entry D}
    {f : D → D × Bool} (h : LawfulQueue.Rep q (a ++ e :: b)) (hf : (f e.data).2 = true) :
    ∃ q' l', updateNode q e.handle f = some q' ∧ LawfulQueue.Rep q' l' ∧
      (l' = resettle Priority.compare Priority.compareNew ⟨e.handle, (f e.data).1⟩ a b ↔
        ¬k.Requeues ⟨e.handle, (f e.data).1⟩ a b) := by
  match k with
  | .arena L N =>
    have hw : ArenaQueue.WF q (a ++ e :: b) := h
    obtain ⟨q', hq', hw', -⟩ := ArenaQueue.settle_eq (hw.putData (f e.data).1)
    have hu := ArenaQueue.updateNode_eq hw hf
    exact ⟨q', _, hu.trans hq', hw', by simp [ArenaQueue.resettled_eq, Requeues]⟩
  | .boxed .dual A =>
    have hw : BoxQueue.WF q (a ++ e :: b) := h
    obtain ⟨q', hq', hw'⟩ := BoxQueue.settleDual_eq rfl (hw.putData (f e.data).1)
    have hu := (BoxQueue.updateNode_eq hw hf).trans (if_pos rfl)
    exact ⟨q', _, hu.trans hq', hw', by simp [Requeues]⟩
  | .boxed .single A =>
    have hw : BoxQueue.WF q (a ++ e :: b) := h
    have hL : ¬Link.hasPrev .single = true := by decide
    obtain ⟨q', hq', hw'⟩ := BoxQueue.settleSingle_eq hL (hw.putData (f e.data).1)
    have hu := (BoxQueue.updateNode_eq hw hf).trans (if_neg hL)
    refine ⟨q', _, hu.trans hq', hw', BoxQueue.resettled_eq_iff ?_⟩
    have hn := hw.nodup
    simpa using hn

end Exact

section Runs

variable {Q Q' : Type} [Priority D] [PriorityQueue Q D]

def Reaches (ops : List (QueueOp D)) (c : Client Q D) (l : List (Entry D)) : Prop :=
  run (after Client.call) (Client.start (default : Q)) ops = some c ∧ entries c.queue = some l

def Leaves (q : Q) (h : Handle) (f : D → D × Bool) (l : List (Entry D)) : Prop :=
  ∃ q', updateNode q h f = some q' ∧ entries q' = some l

theorem Reaches.rep [LawfulQueue Q D] {ops : List (QueueOp D)} {c : Client Q D}
    {l : List (Entry D)} (h : Reaches ops c l) : LawfulQueue.Rep c.queue l := by
  obtain ⟨c', l', hr, hc⟩ := run_holds (Q := Q) ops
  obtain rfl : c' = c := Option.some_inj.mp (hr.symm.trans h.1)
  obtain rfl : l' = l := Option.some_inj.mp ((LawfulQueue.entries_eq hc.rep).symm.trans h.2)
  exact hc.rep

end Runs

section Result

variable [Priority D] [LawfulPriority D]

theorem QueueKind.leaves (k : QueueKind) {q : k.Queue D} {a b : List (Entry D)} {e : Entry D}
    {f : D → D × Bool} (h : LawfulQueue.Rep q (a ++ e :: b)) (hf : (f e.data).2 = true) :
    ∃ l', Leaves q e.handle f l' ∧
      (l' = resettle Priority.compare Priority.compareNew ⟨e.handle, (f e.data).1⟩ a b ↔
        ¬k.Requeues ⟨e.handle, (f e.data).1⟩ a b) := by
  obtain ⟨q', l', hq', hr, hl⟩ := k.updateNode_eq h hf
  exact ⟨l', ⟨q', hq', LawfulQueue.entries_eq hr⟩, hl⟩

/-- Whatever was run before, sorted or not, an update that asks for a move leaves the order of
`resettle` exactly when the queue does not take a tied head out. Any two queues with the same
data in the same order then agree. -/
theorem updates_resettle :
    (∀ (k : QueueKind) (ops : List (QueueOp D)), ∃ (c : Client (k.Queue D) D)
        (l : List (Entry D)), Reaches ops c l ∧ l.Perm c.live ∧
      ∀ a e b, l = a ++ e :: b → ∀ f : D → D × Bool, (f e.data).2 = true →
        ∃ l', Leaves c.queue e.handle f l' ∧
          (l' = resettle Priority.compare Priority.compareNew ⟨e.handle, (f e.data).1⟩ a b ↔
            ¬k.Requeues ⟨e.handle, (f e.data).1⟩ a b)) ∧
    ∀ (k k' : QueueKind) (ops ops' : List (QueueOp D)) (c : Client (k.Queue D) D)
        (c' : Client (k'.Queue D) D) (a b a' b' : List (Entry D)) (e e' : Entry D)
        (f : D → D × Bool), Reaches ops c (a ++ e :: b) → Reaches ops' c' (a' ++ e' :: b') →
      a.map Entry.data = a'.map Entry.data → e.data = e'.data →
      b.map Entry.data = b'.map Entry.data → (f e.data).2 = true →
      ¬k.Requeues ⟨e.handle, (f e.data).1⟩ a b → ¬k'.Requeues ⟨e'.handle, (f e'.data).1⟩ a' b' →
      ∃ l l', Leaves c.queue e.handle f l ∧ Leaves c'.queue e'.handle f l' ∧
        l.map Entry.data = l'.map Entry.data := by
  constructor
  · intro k ops
    obtain ⟨c, l, hr, hc⟩ := run_holds (Q := k.Queue D) ops
    refine ⟨c, l, ⟨hr, LawfulQueue.entries_eq hc.rep⟩, hc.perm, ?_⟩
    rintro a e b rfl f hf
    exact k.leaves hc.rep hf
  · intro k k' ops ops' c c' a b a' b' e e' f hc hc' ha he hb hf hk hk'
    obtain ⟨l, hl, hle⟩ := k.leaves hc.rep hf
    obtain ⟨l', hl', hle'⟩ := k'.leaves hc'.rep (he ▸ hf)
    have hmap : ∀ (x : Entry D) (a b : List (Entry D)),
        (resettle Priority.compare Priority.compareNew x a b).map Entry.data =
          resettle Priority.compare Priority.compareNew x.data (a.map Entry.data)
            (b.map Entry.data) := fun _ a b => map_resettle a b
    refine ⟨l, l', hl, hl', ?_⟩
    rw [hle.mpr hk, hle'.mpr hk', hmap, hmap, ha, hb, he]

end Result

theorem updates_resettle_raise : ∃ (c : Client (QueueKind.dualArena.Queue (FIFO ℕ)) (FIFO ℕ))
    (c' : Client (QueueKind.singleBox.Queue (FIFO ℕ)) (FIFO ℕ)) (l l' : List (Entry (FIFO ℕ))),
    Reaches [.enqueue ⟨2⟩, .enqueue ⟨1⟩] c [⟨0, ⟨2⟩⟩, ⟨48, ⟨1⟩⟩] ∧
    Reaches [.enqueue ⟨2⟩, .enqueue ⟨1⟩] c' [⟨1, ⟨2⟩⟩, ⟨2, ⟨1⟩⟩] ∧
    Leaves c.queue 48 (fun _ => (⟨3⟩, true)) l ∧ Leaves c'.queue 2 (fun _ => (⟨3⟩, true)) l' ∧
    l.map Entry.data = l'.map Entry.data := by
  obtain ⟨c, hc⟩ : ∃ c : Client (QueueKind.dualArena.Queue (FIFO ℕ)) (FIFO ℕ),
      Reaches [.enqueue ⟨2⟩, .enqueue ⟨1⟩] c [⟨0, ⟨2⟩⟩, ⟨48, ⟨1⟩⟩] := ⟨_, rfl, rfl⟩
  obtain ⟨c', hc'⟩ : ∃ c : Client (QueueKind.singleBox.Queue (FIFO ℕ)) (FIFO ℕ),
      Reaches [.enqueue ⟨2⟩, .enqueue ⟨1⟩] c [⟨1, ⟨2⟩⟩, ⟨2, ⟨1⟩⟩] := ⟨_, rfl, rfl⟩
  obtain ⟨l, l', hl, hl', heq⟩ := updates_resettle.2 _ _ _ _ c c' [⟨0, ⟨2⟩⟩] [] [⟨1, ⟨2⟩⟩] []
    ⟨48, ⟨1⟩⟩ ⟨2, ⟨1⟩⟩ (fun _ => (⟨3⟩, true)) hc hc' rfl rfl rfl rfl id
    (by simp [QueueKind.Requeues])
  exact ⟨c, c', l, l', hc, hc', hl, hl', heq⟩

/-- A tied head that both places are open to loses its place in the single-link box queue. -/
theorem update_requeues_tied_head :
    ∃ c : Client (QueueKind.singleBox.Queue (FIFO ℕ)) (FIFO ℕ),
      Reaches [.enqueue ⟨2⟩, .enqueue ⟨1⟩] c [⟨1, ⟨2⟩⟩, ⟨2, ⟨1⟩⟩] ∧
      Accepted Priority.compare (⟨1, ⟨1⟩⟩ : Entry (FIFO ℕ)) [] [⟨2, ⟨1⟩⟩] ∧
      Leaves c.queue 1 (fun _ => (⟨1⟩, true)) [⟨2, ⟨1⟩⟩, ⟨1, ⟨1⟩⟩] :=
  ⟨_, ⟨rfl, rfl⟩, by decide, _, rfl, rfl⟩

end PriorityLock
