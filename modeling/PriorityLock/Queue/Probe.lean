import PriorityLock.Queue.Correctness

/-! # The probe of a new entry

The probing loop of `emplace` with a log of the slots it looks at. From the
hint on it goes round the block, slot after slot, and ends at the first free
one; only queued entries are compared with the new one on the way.
-/

namespace PriorityLock.ArenaQueue

open Transition

variable {L : Link} {N : NodeLayout} {D : Type} [Priority D] {q : ArenaQueue L N D} {d : D}
  {l : List (Entry D)} {fuel idx idx' : ℕ} {prev prev' : Option ℕ} {found found' : Bool}

/-- A look of the loop at a slot, and whether it compares the new entry with the one there. -/
structure Look where
  slot : ℕ
  compares : Bool
  deriving DecidableEq, Repr

/-- The hint behind a look at a slot in use; a tied entry ends the comparisons. -/
def lookAt (q : ArenaQueue L N D) (data : D) (node : ArenaNode D) (idx : ℕ) (prev : Option ℕ)
    (found : Bool) : Option (Option ℕ × Bool) :=
  if found then some (prev, true)
  else node.data.bind fun nodeData =>
    match Priority.compareNew data nodeData with
    | .gt => some (prev, false)
    | .eq => some (some (idx * N.nodeSize), true)
    | .lt => match prev with
      | none => some (some (idx * N.nodeSize), false)
      | some b => (q.getData b).map fun bData =>
        (if (Priority.compare nodeData bData).isGT then some (idx * N.nodeSize) else prev, false)

/-- `emplaceLoop` with the looks that it takes. -/
def emplaceLog (q : ArenaQueue L N D) (data : D) :
    ℕ → ℕ → Option ℕ → Bool → Option (List Look × ℕ × Option ℕ × Bool)
  | 0, _, _, _ => none
  | fuel + 1, idx, prev, found => do
    let node ← q.nodes[idx]?
    if node.next = N.unallocated then
      pure ([⟨idx, false⟩], idx, prev, found)
    else
      let (prev', found') ← q.lookAt data node idx prev found
      let (looks, r) ← emplaceLog q data fuel ((idx + 1) &&& (q.size - 1)) prev' found'
      pure (⟨idx, !found⟩ :: looks, r)

theorem emplaceLog_snd : (q.emplaceLog d fuel idx prev found).map Prod.snd =
    q.emplaceLoop d fuel idx prev found := by
  induction fuel generalizing idx prev found with
  | zero => rfl
  | succ fuel ih =>
    have hrec : ∀ idx prev found, ((q.emplaceLog d fuel idx prev found).bind fun r => some r.2) =
        q.emplaceLoop d fuel idx prev found := by
      intro idx prev found
      rw [← ih]
      cases q.emplaceLog d fuel idx prev found <;> rfl
    cases hn : q.nodes[idx]? with
    | none => simp [emplaceLog, emplaceLoop, hn]
    | some node =>
      by_cases hu : node.next = N.unallocated
      · simp [emplaceLog, emplaceLoop, hn, hu]
      · cases found with
        | true => simp [emplaceLog, emplaceLoop, lookAt, hn, hu, hrec]
        | false =>
          cases hd : node.data with
          | none => simp [emplaceLog, emplaceLoop, lookAt, hn, hu, hd]
          | some e =>
            cases hc : Priority.compareNew d e with
            | gt | eq => simp [emplaceLog, emplaceLoop, lookAt, hn, hu, hd, hc, hrec]
            | lt =>
              cases prev with
              | none => simp [emplaceLog, emplaceLoop, lookAt, hn, hu, hd, hc, hrec]
              | some b =>
                cases hb : q.getData b with
                | none => simp [emplaceLog, emplaceLoop, lookAt, hn, hu, hd, hc, hb]
                | some f =>
                  by_cases hg : Priority.compare e f = .gt
                  · simp [emplaceLog, emplaceLoop, lookAt, hn, hu, hd, hc, hb, hg, hrec]
                  · simp [emplaceLog, emplaceLoop, lookAt, hn, hu, hd, hc, hb, hg, hrec]

/-- The looks of a loop that ends: one slot after the other, all in use but the last. -/
structure Round (q : ArenaQueue L N D) (fuel idx : ℕ) (looks : List Look) (stop : ℕ) : Prop where
  first : looks.head?.map Look.slot = some idx
  next : looks.IsChain fun s t => t.slot = (s.slot + 1) &&& (q.size - 1)
  length : looks.length ≤ fuel
  range : ∀ s ∈ looks, s.slot < q.nodes.length
  last : looks.getLast? = some ⟨stop, false⟩
  fresh : q.nextAt (stop * N.nodeSize) = N.unallocated
  passed : ∀ s ∈ looks.dropLast, q.nextAt (s.slot * N.nodeSize) ≠ N.unallocated

theorem emplaceLog_round {looks : List Look}
    (h : q.emplaceLog d fuel idx prev found = some (looks, idx', prev', found')) :
    Round q fuel idx looks idx' := by
  induction fuel generalizing idx prev found looks with
  | zero => simp [emplaceLog] at h
  | succ fuel ih =>
    simp only [emplaceLog, Option.bind_eq_bind, Option.pure_def] at h
    obtain ⟨node, hn, h⟩ := Option.bind_eq_some_iff.mp h
    have hlt : idx < q.nodes.length := (List.getElem?_eq_some_iff.mp hn).1
    have hnext : q.nextAt (idx * N.nodeSize) = node.next := by simp [nextAt, node_mul, hn]
    by_cases hu : node.next = N.unallocated
    · obtain ⟨rfl, rfl, rfl, rfl⟩ : [⟨idx, false⟩] = looks ∧ idx = idx' ∧ prev = prev' ∧
          found = found' := by simpa [hu] using h
      exact ⟨rfl, .singleton _, by simp, by simpa using hlt, rfl, hnext.trans hu, by simp⟩
    · rw [if_neg hu] at h
      obtain ⟨⟨p, f⟩, -, h⟩ := Option.bind_eq_some_iff.mp h
      obtain ⟨⟨rest, i, pr, fo⟩, hr, h⟩ := Option.bind_eq_some_iff.mp h
      obtain ⟨rfl, rfl, rfl, rfl⟩ : ⟨idx, !found⟩ :: rest = looks ∧ i = idx' ∧ pr = prev' ∧
          fo = found' := by simpa using h
      have hround := ih hr
      obtain ⟨s, rest, rfl⟩ : ∃ s t, rest = s :: t := by
        cases rest with
        | nil => simpa using hround.first
        | cons s t => exact ⟨s, t, rfl⟩
      have hs : s.slot = (idx + 1) &&& (q.size - 1) := by simpa using hround.first
      constructor
      · rfl
      · exact .cons_cons hs hround.next
      · exact Nat.succ_le_succ hround.length
      · simpa using ⟨hlt, by simpa using hround.range⟩
      · simpa using hround.last
      · exact hround.fresh
      · intro t ht
        rcases List.mem_cons.mp ht with rfl | ht
        · exact hnext ▸ hu
        · exact hround.passed t ht

omit [Priority D] in
/-- Only a slot that the loop passes is compared. -/
theorem Round.compared {looks : List Look} {stop : ℕ} (h : Round q fuel idx looks stop) {s : Look}
    (hs : s ∈ looks) (hc : s.compares = true) : s ∈ looks.dropLast := by
  obtain ⟨t, rfl⟩ := List.getLast?_eq_some_iff.mp h.last
  rw [List.dropLast_concat]
  rcases List.mem_append.mp hs with hs | hs
  · exact hs
  · obtain rfl := List.mem_singleton.mp hs
    simp at hc

/-- What the probe for a new entry looks at, finds and writes. -/
structure Probed (q : ArenaQueue L N D) (l : List (Entry D)) (d : D) (looks : List Look) (i : ℕ)
    (prev : Option ℕ) (found : Bool) (q' : ArenaQueue L N D) : Prop where
  log : q.emplaceLog d q.size q.good none false = some (looks, i, prev, found)
  loop : q.emplaceLoop d q.size q.good none false = some (i, prev, found)
  round : Round q q.size q.good looks i
  free : i * N.nodeSize ∉ handles l
  compared : ∀ s ∈ looks, s.compares = true → s.slot * N.nodeSize ∈ handles l
  hint : ∀ p ∈ prev, p ∈ handles l
  tied : found = true → ∃ e ∈ l, prev = some e.handle ∧ Priority.compareNew d e.data = .eq
  emplace : q.emplace d = some (i * N.nodeSize, prev, found, q')
  written : q'.getData (i * N.nodeSize) = some d
  kept : ∀ e ∈ l, q'.getData e.handle = some e.data

theorem WF.probed (h : q.WF l) (hlt : q.used < q.size) (d : D) :
    ∃ looks i prev found q', Probed q l d looks i prev found q' := by
  obtain ⟨i, prev, found, hl, hi, hfree, hint⟩ := emplaceLoop_free h hlt d
  have hlen : i < q.nodes.length := h.length.symm ▸ hi
  obtain ⟨⟨looks, r⟩, hlog, rfl⟩ := Option.map_eq_some_iff.mp (emplaceLog_snd.trans hl)
  have hround := emplaceLog_round hlog
  refine ⟨looks, i, prev, found, q.reserve i d, hlog, hl, hround, hfree, ?_, ?_, ?_,
    emplace_eq hlen hl, ?_, (h.linked_reserve hi hfree).data⟩
  · intro s hs hc
    exact (h.mem_iff _).mpr ⟨valid_mul.mpr (hround.range s hs),
      hround.passed s (hround.compared hs hc)⟩
  · rintro p rfl
    obtain ⟨e, he, rfl, -⟩ := hint
    exact mem_handles he
  · rintro rfl
    cases prev with
    | none => simp [Hint] at hint
    | some p =>
      obtain ⟨e, he, rfl, hc⟩ := hint
      exact ⟨e, he, rfl, hc⟩
  · rw [getData_reserve hlen, Function.update_self]

/-- After every run, and once there is room, the probe for a new entry ends at a free slot. -/
theorem probe_finds_fresh (L : Link) (N : NodeLayout) {D : Type} [Priority D]
    (ops : List (QueueOp D)) (d : D) : ∃ (c : Client (ArenaQueue L N D) D) (l : List (Entry D)),
    run (after Client.call) (Client.start default) ops = some c ∧ l.Perm c.live ∧
      PriorityQueue.entries c.queue = some l ∧
      ∃ looks i prev found q', Probed c.queue.grown l d looks i prev found q' := by
  obtain ⟨c, l, hr, hc⟩ := run_holds (Q := ArenaQueue L N D) ops
  obtain ⟨hw, hlt⟩ := WF.grown hc.rep
  exact ⟨c, l, hr, hc.perm, LawfulQueue.entries_eq hc.rep, hw.probed hlt d⟩

end PriorityLock.ArenaQueue
