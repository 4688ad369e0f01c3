import PriorityLock.Mutex.Overtaking
import PriorityLock.Transition.Fairness

/-! # Nobody waits for ever

When every holder leaves at some time and requests of greater priority stop to
arrive, a request that waits under `FIFO` gets the lock unless it is cancelled.
The entries in front of it are the rank: none of them comes back, and the first
one leaves.
-/

namespace PriorityLock.Mutex

open Placement Transition PriorityQueue

/-- An infinite run in which whoever has the lock leaves at some time. -/
structure Releasing {Q P : Type} [Priority P] [PriorityQueue Q (MutexWaiter P)] (evict : Bool)
    (run : ℕ → System Q) (ops : ℕ → Op P) : Prop where
  start : run 0 = System.start new
  step : ∀ n, after (call evict) (run n) (ops n) = some (run (n + 1))
  leaves : ∀ n h, Locks h (run n) → ∃ m ≥ n, h ∉ handles (run m).owned

section Head

variable {P : Type} [Priority P] {evict : Bool} {op : Op P} {r : Result} {h : Handle}
  {d : Entry (MutexWaiter P)} {t l' : List (Entry (MutexWaiter P))}

theorem Moves.head_stays (hm : Moves evict op r (d :: t) l') (hl : Led (d :: t))
    (hne : h ≠ d.handle) (hd : ¬ Departs h op r (d :: t)) :
    (handles l').head? = some d.handle := by
  generalize hdt : d :: t = l at hm
  cases hm with
  | lock_free | tryLock_free => cases hdt
  | lock_wait =>
    obtain ⟨rfl, rfl⟩ := List.cons.inj hdt
    simp
  | release hop =>
    obtain ⟨rfl, rfl⟩ := List.cons.inj hdt
    refine absurd ⟨rfl, d.handle, hop, ?_⟩ hd
    rw [handles_cons, ahead, List.takeWhile_cons_of_pos (by simpa using hne.symm)]
    exact List.mem_cons_self
  | leave hop he =>
    obtain ⟨f, c, rfl⟩ := (hdt ▸ hl).ne_nil he
    obtain ⟨rfl, -⟩ := List.cons.inj hdt
    rfl
  | _ =>
    rw [← hdt]
    rfl

end Head

section Runs

variable {Q P : Type} [Priority P] [LawfulPriority P] [DefaultCompareNew P]
  [PriorityQueue Q (MutexWaiter (FIFO P))] [LawfulQueue Q (MutexWaiter (FIFO P))] {evict : Bool}
  {run : ℕ → System Q} {ops : ℕ → Op (FIFO P)} {h : Handle} {p : FIFO P} {n : ℕ}

def rank (h : Handle) (s : System Q) : ℕ :=
  (ahead h (handles ((entries s.mutex.queue).getD []))).length

omit [LawfulPriority P] [DefaultCompareNew P] in
theorem Behind.rank_eq {s : System Q} (hb : Behind h p s n) : rank h s = n := by
  obtain ⟨l, hs, -, e, -, -, -, rfl⟩ := hb
  rw [rank, LawfulQueue.entries_eq hs.rep]
  rfl

omit [LawfulPriority P] [DefaultCompareNew P] in
theorem Behind.queued {s : System Q} (hb : Behind h p s n) : h ∈ handles s.owned := by
  obtain ⟨l, hs, -, e, he, rfl, -⟩ := hb
  exact hs.mem_owned e he

omit [LawfulPriority P] [DefaultCompareNew P] in
theorem Holds.locks_head {s : System Q} {l : List (Entry (MutexWaiter (FIFO P)))}
    (hs : Holds s l) : Locks h s ↔ (handles l).head? = some h := by
  cases l with
  | nil => exact iff_of_false hs.not_locks (by simp)
  | cons e t =>
    rw [hs.locks_iff]
    simp

omit [DefaultCompareNew P] in
theorem Releasing.holds (hr : Releasing evict run ops) (n : ℕ) : ∃ l, Holds (run n) l ∧
    Ordered (fun _ _ _ => True) (handles (run n).owned) l := by
  induction n with
  | zero =>
    rw [hr.start]
    exact ⟨[], Holds.start, .nil, .nil⟩
  | succ n ih =>
    obtain ⟨l, hs, ho⟩ := ih
    obtain ⟨r, t, l', hc, ht, hm⟩ := hs.call evict (ops n)
    obtain rfl : t = run (n + 1) := Option.some.inj ((after_eq hc).symm.trans (hr.step n))
    refine ⟨l', ht, ?_⟩
    rw [handles_call hc]
    exact hm.ordered trivial_rule hs.led hs.mem_owned (LawfulQueue.nodup hs.rep) ho

theorem Releasing.behind (hr : Releasing evict run ops) {k : ℕ} (hb : Behind h p (run n) k)
    (hq : ∀ m ≥ n, h ∈ handles (run m).owned) : ∀ m ≥ n, Behind h p (run m) (rank h (run m)) := by
  intro m hm
  induction m, hm using Nat.le_induction with
  | base => exact hb.rank_eq ▸ hb
  | succ m hm ih =>
    obtain ⟨k, hk, -⟩ := ih.step (hr.step m) (hq (m + 1) (Nat.le_succ_of_le hm))
    exact hk.rank_eq ▸ hk

theorem Releasing.holder_stays (hr : Releasing evict run ops) {i : Handle}
    (hb : ∀ m ≥ n, Behind h p (run m) (rank h (run m)))
    (hout : ∀ m ≥ n, outbids p (ops m) = false) (hw : ∀ m ≥ n, ¬ Locks h (run m))
    (hc : ∀ m ≥ n, rank h (run m) = rank h (run n)) (hi : Locks i (run n)) :
    ∀ m ≥ n, Locks i (run m) := by
  intro m hm
  induction m, hm using Nat.le_induction with
  | base => exact hi
  | succ m hm ih =>
    have hm' : m + 1 ≥ n := Nat.le_succ_of_le hm
    obtain ⟨l, hs, -, -⟩ := hb m hm
    obtain ⟨k, hk, hle⟩ := (hb m hm).step (hr.step m) (hb (m + 1) hm').queued
    obtain ⟨r, t, l', hcall, hs', hmv⟩ := hs.call evict (ops m)
    obtain rfl : t = run (m + 1) := Option.some.inj ((after_eq hcall).symm.trans (hr.step m))
    -- nobody in front of the request has left, or it would have come forward
    rw [hout m hm, hs.departures hcall, ← hk.rank_eq, hc m hm, hc (m + 1) hm'] at hle
    have hd : ¬ Departs h (ops m) r l := by
      intro hd
      rw [if_pos hd] at hle
      simp at hle
    rw [hs.locks_head] at ih
    rw [hs'.locks_head]
    cases l with
    | nil => cases ih
    | cons d t =>
      obtain rfl : d.handle = i := Option.some.inj ih
      refine hmv.head_stays hs.led ?_ hd
      rintro rfl
      exact hw m hm (hs.locks_iff.mpr rfl)

/-- A request gets the lock or leaves once no more requests of greater priority arrive. -/
theorem Releasing.reaches (hr : Releasing evict run ops) {k N : ℕ} (hb : Behind h p (run n) k)
    (hN : ∀ m ≥ N, outbids p (ops m) = false) :
    ∃ m ≥ n, h ∉ handles (run m).owned ∨ Locks h (run m) := by
  by_contra hnot
  have hq : ∀ m ≥ n, h ∈ handles (run m).owned :=
    fun m hm => by_contra fun h => hnot ⟨m, hm, Or.inl h⟩
  have hw : ∀ m ≥ n, ¬ Locks h (run m) := fun m hm h => hnot ⟨m, hm, Or.inr h⟩
  have hbe := hr.behind hb hq
  have hle : ∀ m ≥ max n N, rank h (run (m + 1)) ≤ rank h (run m) := by
    intro m hm
    obtain ⟨k, hk, hkle⟩ := (hbe m (le_of_max_le_left hm)).step (hr.step m)
      (hq (m + 1) (Nat.le_succ_of_le (le_of_max_le_left hm)))
    rw [hN m (le_of_max_le_right hm)] at hkle
    rw [hk.rank_eq]
    exact (Nat.le_add_right _ _).trans hkle
  obtain ⟨M, hM, hc⟩ := rank_settles hle
  obtain ⟨l, hs, -, e, he, -⟩ := hbe M (le_of_max_le_left hM)
  cases l with
  | nil => cases he
  | cons d t =>
    have hd : Locks d.handle (run M) := hs.locks_iff.mpr rfl
    have hstay := hr.holder_stays (fun m hm => hbe m ((le_of_max_le_left hM).trans hm))
      (fun m hm => hN m ((le_of_max_le_right hM).trans hm))
      (fun m hm => hw m ((le_of_max_le_left hM).trans hm)) hc hd
    obtain ⟨m, hm, hgone⟩ := hr.leaves M d.handle hd
    obtain ⟨l, hs', -⟩ := hr.holds m
    exact hgone (hs'.perm.mem_iff.mp (List.mem_of_head? (hs'.locks_head.mp (hstay m hm))))

end Runs

/-- Under `FIFO` a queued request gets the lock, or its caller gives it up, if every holder leaves
at some time and only finitely many requests of strictly greater priority arrive. -/
theorem lock_reached (k : QueueKind) {P : Type} [Priority P] [LawfulPriority P]
    [DefaultCompareNew P] {evict : Bool} {run : ℕ → System (k.Queue (MutexWaiter (FIFO P)))}
    {ops : ℕ → Op (FIFO P)} (hr : Releasing evict run ops) {n N : ℕ}
    {l : List (Entry (MutexWaiter (FIFO P)))} {e : Entry (MutexWaiter (FIFO P))}
    (hl : entries (run n).mutex.queue = some l) (he : e ∈ l)
    (hN : ∀ m ≥ N, outbids e.data.priority (ops m) = false) :
    ∃ m ≥ n, e.handle ∉ handles (run m).owned ∨ Locks e.handle (run m) := by
  obtain ⟨l', hs, ho⟩ := hr.holds n
  obtain rfl : l' = l := Option.some.inj ((LawfulQueue.entries_eq hs.rep).symm.trans hl)
  exact hr.reaches ⟨l', hs, ho, e, he, rfl, rfl, rfl⟩ hN

/-- One holder leaves, the request behind it is cancelled once it has the lock, and then a guard
that is gone is dropped for ever. -/
def leaving : List (Op (FIFO ℕ)) := [.lock ⟨0⟩, .lock ⟨0⟩, .drop 0, .cancel 48]

def leavingRun (n : ℕ) : System (QueueKind.dualArena.Queue (MutexWaiter (FIFO ℕ))) :=
  (run (after (call true)) (System.start new) (leaving.take n)).getD (System.start new)

theorem leavingRun_add (n : ℕ) : leavingRun (n + 4) = leavingRun 4 := by
  rw [leavingRun, List.take_of_length_le (Nat.le_add_left 4 n)]
  rfl

theorem releasing_leavingRun : Releasing true leavingRun fun n => leaving[n]?.getD (.drop 0) where
  start := rfl
  step n := by
    match n with
    | 0 | 1 | 2 | 3 => rfl
    | n + 4 =>
      have h : after (call true) (leavingRun 4) (.drop 0) = some (leavingRun 4) := rfl
      rw [Nat.add_right_comm, leavingRun_add, leavingRun_add]
      exact h
  leaves n h _ := by
    refine ⟨n + 4, Nat.le_add_right n 4, ?_⟩
    have hn : (leavingRun 4).owned = [] := rfl
    rw [leavingRun_add, hn]
    exact List.not_mem_nil

theorem lock_reached_leaving :
    ∃ m ≥ 2, 48 ∉ handles (leavingRun m).owned ∨ Locks 48 (leavingRun m) := by
  have hl : entries (leavingRun 2).mutex.queue =
      some [⟨0, .new ⟨0⟩ true⟩, ⟨48, .new ⟨0⟩ false⟩] := rfl
  have he : (⟨48, .new ⟨0⟩ false⟩ : Entry (MutexWaiter (FIFO ℕ))) ∈
      [⟨0, .new ⟨0⟩ true⟩, ⟨48, .new ⟨0⟩ false⟩] := by simp
  refine lock_reached .dualArena releasing_leavingRun hl he (N := 4) fun m hm => ?_
  obtain ⟨n, rfl⟩ := Nat.exists_eq_add_of_le' hm
  rfl

end PriorityLock.Mutex
