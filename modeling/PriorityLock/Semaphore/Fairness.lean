import PriorityLock.Semaphore.Grants
import PriorityLock.Transition.History

/-! # Equal requests and their order

Walks serve equal `FIFO` requests in the order of their arrival. An acquire that
finds its permits is compared with what waits by priority alone, and passes by
equal requests that wait for more.
-/

namespace PriorityLock.Semaphore

open Placement Transition PriorityQueue

variable {B : Build} {Q P : Type} [Priority P] [PriorityQueue Q (SemaphoreWaiter B P)]
  {s : System B Q} {p : Pool B P} {op : Op B P}

/-- Nobody is given permits by a call while an equal request that arrived before, and is not
flagged, waits still. -/
def InOrder (s : System B Q) (op : Op B P) : Prop :=
  ∃ l r s' l', entries s.inner.queue = some l ∧ call s op = some (r, s') ∧
    entries s'.inner.queue = some l' ∧
    ∀ e ∈ l', Granted op r l e → ∀ f ∈ waiting l', wantsEvict f = false →
      Priority.compare f.data.priority e.data.priority = .eq → ¬Before (handles s'.owned) f e

/-- A call is no acquire that finds its permits while an equal request waits unflagged. -/
def OvertakesNone (s : System B Q) (op : Op B P) : Prop :=
  ∃ l, entries s.inner.queue = some l ∧ ∀ priority,
    Serves s.inner.available (waiting l) op priority → ∀ f ∈ waiting l, wantsEvict f = false →
      Priority.compare f.data.priority priority ≠ .eq

variable [LawfulQueue Q (SemaphoreWaiter B P)]

theorem Holds.overtakesNone_iff (hs : Holds s p) : OvertakesNone s op ↔ ∀ priority,
    Serves p.available p.pending op priority → ∀ f ∈ p.pending, wantsEvict f = false →
      Priority.compare f.data.priority priority ≠ .eq := by
  rw [OvertakesNone, hs.exists_entries, hs.waiting, hs.view.available]

theorem Holds.inOrder_iff {r : Result B} {s' : System B Q} {p' : Pool B P} (hs : Holds s p)
    (hc : Semaphore.call s op = some (r, s')) (hs' : Holds s' p') : InOrder s op ↔
      ∀ e ∈ p'.held, Granted op r (p.held ++ p.pending) e → ∀ f ∈ p'.pending,
        wantsEvict f = false → Priority.compare f.data.priority e.data.priority = .eq →
        ¬Before p'.arrivals f e := by
  rw [InOrder, hs.exists_call hc hs', hs'.waiting, hs'.arrivals]
  constructor
  · exact fun h e he => h e (List.mem_append_left _ he)
  · exact fun h e he hg => h e (hs'.mem_held he hg.1) hg

variable [LawfulPriority P]

/-- A call keeps the order of equal requests if and only if it overtakes none. -/
theorem Holds.fair_iff (hs : Holds s p) (ht : Ties byArrival p.arrivals p.pending) :
    InOrder s op ↔ OvertakesNone s op := by
  rw [hs.overtakesNone_iff]
  constructor
  · intro h priority hserves f hf hw heq
    obtain ⟨x, s', p', hc, hs', -, hserved⟩ := hs.served hserves
    obtain ⟨word, hplace⟩ := hserved.held
    rw [hs.inOrder_iff hc hs'] at h
    have hx := hplace.perm.mem_iff.mpr List.mem_cons_self
    have hop : op.request.isSome := by
      obtain ⟨n, word, hreq, -⟩ := hserves
      simp [hreq.request]
    refine h _ hx ⟨rfl, Or.inr ⟨hop, rfl⟩⟩ f (hserved.pending ▸ hf) hw heq ?_
    rw [hserved.arrivals]
    exact before_last (f := ⟨x, _⟩) (hs.view.wf.pending_mem hf)
  · intro h
    obtain ⟨r, s', p', hc, hs', hm⟩ := hs.call op
    rw [hs.inOrder_iff hc hs']
    rintro e he ⟨hl, hg⟩ f hf hw heq hbefore
    rw [hs.waiting] at hg
    rcases hg with hmem | ⟨hop, rfl⟩
    · obtain ⟨d, hd, rfl, hA, hall⟩ := (hm.held_origin he).of_pending hs.view.wf hmem
      have hdf : [d, f].Sublist p.pending := by simpa [bypassed, hw] using hall f hf
      have hlock : hasLock d = hasLock f :=
        (hs.view.wf.unlocked d hd).trans (hs'.view.wf.unlocked f hf).symm
      have hdeq : Priority.compare d f = .eq :=
        (compare_eq hlock).trans (Std.OrientedCmp.eq_comm.mp heq)
      have harr : byArrival p.arrivals d f := List.pairwise_pair.mp (ht.sublist hdf) hdeq
      have hbefore' : Before p.arrivals f d := hbefore.trans hA
      exact hbefore'.asymm hs.view.wf.nodup harr
    · obtain ⟨⟨priority, n⟩, hop⟩ := Option.isSome_iff_exists.mp hop
      obtain ⟨-, hA, hpending, horigin⟩ := hm.granted hop rfl
      rcases horigin e he with hheld | rfl
      · exact hA (hs.view.wf.perm.mem_iff.mp (by simpa using Or.inl hheld))
      · exact h _ (hm.served hop).serves f (hpending ▸ hf) hw heq

/-- Every call of a run keeps the order of equal `FIFO` requests if and only if no acquire of the
run finds its permits while an equal request waits that is not flagged. -/
theorem fifo_order_iff (k : QueueKind) {B : Build} {P : Type} [Priority P] [LawfulPriority P]
    [DefaultCompareNew P] (capacity : Usize B) (ops : List (Op B (FIFO P))) :
    EachStep (after call) (System.start (new capacity) :
        System B (k.Queue (SemaphoreWaiter B (FIFO P)))) InOrder ops ↔
      EachStep (after call) (System.start (new capacity) :
        System B (k.Queue (SemaphoreWaiter B (FIFO P)))) OvertakesNone ops := by
  apply eachStep_congr
  intro os o
  obtain ⟨s, p, hr, hs, -, ht⟩ := run_tied (Q := k.Queue (SemaphoreWaiter B (FIFO P)))
    byArrival_rule capacity os
  exact ⟨s, hr, hs.fair_iff ht⟩

theorem fifo_order_iff_drop :
    EachStep (after call) (System.start (new 2) :
        System Build.plain (QueueKind.dualArena.Queue (SemaphoreWaiter Build.plain (FIFO ℕ))))
        InOrder [.acquireMany ⟨0⟩ 2, .acquireMany ⟨0⟩ 1, .acquireMany ⟨0⟩ 1, .drop 0] ↔
      EachStep (after call) (System.start (new 2) :
        System Build.plain (QueueKind.dualArena.Queue (SemaphoreWaiter Build.plain (FIFO ℕ))))
        OvertakesNone [.acquireMany ⟨0⟩ 2, .acquireMany ⟨0⟩ 1, .acquireMany ⟨0⟩ 1, .drop 0] :=
  fifo_order_iff _ _ _

/-- A request for one of two permits overtakes an equal one for three. -/
theorem equal_request_overtaken :
    ∃ (s : System Build.plain (QueueKind.dualArena.Queue (SemaphoreWaiter Build.plain (FIFO ℕ))))
      (h : Handle)
      (s' : System Build.plain (QueueKind.dualArena.Queue (SemaphoreWaiter Build.plain (FIFO ℕ))))
      (l' : List (Queued Build.plain (FIFO ℕ))),
      run (after call) (System.start (new 2)) [.acquireMany ⟨0⟩ 3] = some s ∧
      call s (.acquireMany ⟨0⟩ 1) = some (.permit h, s') ∧ entries s'.inner.queue = some l' ∧
      ∃ e ∈ l', hasLock e = true ∧ e.handle = h ∧ ∃ f ∈ waiting l', wantsEvict f = false ∧
        Priority.compare f.data.priority e.data.priority = .eq ∧ Before (handles s'.owned) f e :=
  ⟨_, _, _, _, rfl, rfl, rfl, ⟨48, ⟨0⟩, .new true, 1⟩, .head _, rfl, rfl,
    ⟨0, ⟨0⟩, .new false, 3⟩, .head _, rfl, rfl, List.Sublist.refl _⟩

end PriorityLock.Semaphore
