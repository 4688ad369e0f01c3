import PriorityLock.Semaphore.Stalls

/-! # Acquires that are cancelled

Without a total, a request that is taken back leaves the queue and the permits
as it found them. Wherever its entry was, the first waiting entry asks for more
than is available again, and the walk of the release ends there.
-/

namespace PriorityLock.Semaphore

open Placement Transition PriorityQueue

variable {B : Build} {Q P : Type} {priority : P} {n : Usize B} {e : Queued B P}
  {a b held pending : List (Queued B P)}

section Flags

/-- Two entries that differ in the flag for eviction at most, and not at all if they wait. -/
structure SameEntry (e f : Queued B P) : Prop where
  handle : f.handle = e.handle
  priority : f.data.priority = e.data.priority
  word : f.data.rawCount = e.data.rawCount
  hasLock : hasLock f = hasLock e
  waiting : Semaphore.hasLock e = false → f = e

variable [Priority P]

theorem flag_outranked_of_waiting (he : hasLock e = false) : flag (outranked priority) e = e := by
  have he' : e.data.waiter.hasLock = false := he
  exact if_neg (by simp [outranked, he'])

theorem sameEntry_flag : SameEntry e (flag (outranked priority) e) :=
  ⟨flag_handle, flag_priority, rawCount_flag, hasLock_flag, flag_outranked_of_waiting⟩

theorem forall₂_flagWhere (l : List (Queued B P)) :
    List.Forall₂ SameEntry l (flagWhere (outranked priority) l) :=
  List.forall₂_map_right_iff.mpr (List.forall₂_same.mpr fun _ _ => sameEntry_flag)

theorem flagWhere_waiting (hu : ∀ e ∈ pending, hasLock e = false) :
    flagWhere (outranked priority) pending = pending :=
  (List.map_congr_left fun e he => flag_outranked_of_waiting (hu e he)).trans (List.map_id' pending)

end Flags

variable [Priority P] [PriorityQueue Q (SemaphoreWaiter B P)]
  [LawfulQueue Q (SemaphoreWaiter B P)] {s : SemaphoreInner B Q}

section Release

omit [PriorityQueue Q (SemaphoreWaiter B P)] [LawfulQueue Q (SemaphoreWaiter B P)] in
/-- A walk whose first entry asks for too much grants nothing. -/
theorem Activates.stuck {held' pending' : List (Queued B P)} {available available' : Usize B}
    (h : Activates held [] pending available held' pending' available')
    (hw : ∀ w ∈ pending.head?, bypassed w = false ∧ available < count w) :
    held' = held ∧ pending' = pending ∧ available' = available := by
  cases h with
  | finish | stop => exact ⟨rfl, rfl, rfl⟩
  | skip _ hby => simp [(hw _ rfl).1] at hby
  | grant hle => exact absurd (hw _ rfl).2 (BitVec.not_lt.mpr hle)

theorem activateWaiters_stuck (hr : LawfulQueue.Rep s.queue (a ++ (b ++ pending)))
    (hb : ∀ e ∈ b, hasLock e = true) (hu : ∀ e ∈ pending, hasLock e = false)
    (hw : ∀ w ∈ pending.head?, bypassed w = false ∧ s.available < count w) : ∃ s',
    activateWaiters s ((b ++ pending).head?.map Entry.handle) = some s' ∧ s'.total = s.total ∧
      s'.available = s.available ∧ LawfulQueue.Rep s'.queue ((a ++ b) ++ pending) := by
  obtain ⟨s', held', pending', hact, ht, hr', ha⟩ := activateWaiters_spec hr hb hu
  obtain ⟨rfl, rfl, hav⟩ := ha.stuck hw
  exact ⟨s', hact, ht, hav, hr'⟩

theorem dropPermit_stuck (hr : LawfulQueue.Rep s.queue (a ++ e :: (b ++ pending)))
    (hb : ∀ e ∈ b, hasLock e = true) (hu : ∀ e ∈ pending, hasLock e = false)
    (hf : Fits B s.available (count e))
    (hw : ∀ w ∈ pending.head?, bypassed w = false ∧ s.available + count e < count w) : ∃ s',
    dropPermit s e.handle = some (.ok (), s') ∧ s'.total = s.total ∧
      s'.available = s.available + count e ∧
      LawfulQueue.Rep s'.queue ((a ++ b) ++ pending) := by
  obtain ⟨q, hr', hd⟩ := dropPermit_spec hr
  obtain ⟨s', hact, hrest⟩ :=
    activateWaiters_stuck (s := ⟨q, s.total, s.available + count e⟩) hr' hb hu hw
  rw [if_pos hf, hact] at hd
  exact ⟨s', hd, hrest⟩

theorem dropWaiter_stuck (hr : LawfulQueue.Rep s.queue (held ++ (a ++ e :: b)))
    (hl : ∀ e ∈ held, hasLock e = true) (hu : ∀ e ∈ a ++ b, hasLock e = false)
    (he : hasLock e = false)
    (hw : ∀ w ∈ (a ++ b).head?, bypassed w = false ∧ s.available < count w) : ∃ s',
    dropWaiter s e.handle = some s' ∧ s'.total = s.total ∧ s'.available = s.available ∧
      LawfulQueue.Rep s'.queue (held ++ (a ++ b)) := by
  by_cases hidle : a ≠ [] ∨ s.available = 0
  · rw [← List.append_assoc] at hr ⊢
    obtain ⟨q, hr', hd⟩ := dropWaiter_idle hr (fun f hf => hu f (by simp [hf])) he hidle
    exact ⟨_, hd, rfl, rfl, hr'⟩
  · obtain ⟨rfl, hpos⟩ : a = [] ∧ s.available ≠ 0 := by simpa using hidle
    obtain ⟨q, hr', hd⟩ := dropWaiter_first hr hl he hpos
    obtain ⟨s', hact, ht, hav, hr''⟩ := activateWaiters_stuck (s := ⟨q, s.total, s.available⟩)
      (a := held) (b := []) hr' (by simp) hu hw
    exact ⟨s', hd.trans hact, ht, hav, by simpa using hr''⟩

end Release

section Acquire

variable {p : Pool B P}

def takeBack (s : SemaphoreInner B Q) (h : Handle) (acquired : Bool) :
    Option (Except (Panic B) Unit × SemaphoreInner B Q) :=
  if acquired then dropPermit s h else (dropWaiter s h).map fun s => (.ok (), s)

theorem View.takeBack {op : Op B P} {word : Usize B} (hv : View s p)
    (hw : ∀ w ∈ p.pending.head?, bypassed w = false ∧ p.available < count w)
    (hreq : Requests op priority n word) : ∃ h acquired s₁ s₂,
    doAcquire s priority word = some ((h, acquired), s₁) ∧ h ∉ p.arrivals ∧
      takeBack s₁ h acquired = some (.ok (), s₂) ∧ s₂.total = s.total ∧
      s₂.available = s.available ∧
      LawfulQueue.Rep s₂.queue (flagWhere (outranked priority) p.held ++ p.pending) := by
  have hnot := fun h => hv.not_mem (h := h)
  obtain ⟨held, pending, total, available, arrivals⟩ := p
  obtain ⟨hr, rfl, rfl, hwf, hc⟩ := id hv
  have hl' : ∀ e ∈ flagWhere (outranked priority) held, hasLock e = true :=
    hasLock_flagWhere hwf.locked
  by_cases hb : n ≤ s.available ∧
      ∀ f ∈ pending.find? blocks, (Priority.compare priority f.data.priority).isGE
  · obtain ⟨h, q, held', hq, hr', hh, x, y, hxy, rfl, -⟩ := doAcquire_granted priority word hr
      hwf.locked hwf.unlocked (hreq.masked ▸ hb.1) hb.2
    rw [hreq.masked] at hq
    rw [hxy] at hl' ⊢
    have hcount : count (⟨h, priority, .new true, word⟩ : Queued B P) = n := hreq.count
    have hback : s.available - n + n = s.available := BitVec.sub_add_cancel s.available n
    have hfits : Fits B (s.available - n) n := by
      have hsub := toNat_sub_of_le hb.1
      have hle := BitVec.le_def.mp hb.1
      have hlt := s.available.isLt
      right
      omega
    obtain ⟨s₂, hd, ht, hav, hr''⟩ := dropPermit_stuck
      (s := ⟨q, s.total, s.available - n⟩) (e := ⟨h, priority, .new true, word⟩)
      (by simpa using hr') (fun e he => hl' e (by simp [he])) hwf.unlocked
      (by rwa [hcount]) (by rwa [hcount, hback])
    rw [hcount, hback] at hav
    exact ⟨h, true, _, s₂, hq, hnot h hh, hd, ht, hav, hr''⟩
  · have hb' := blocks_of_not_served hb
    obtain ⟨h, q, pending', hq, hr', hh, x, y, rfl, rfl, -⟩ := doAcquire_queued priority word hr
      hwf.locked hwf.unlocked (hreq.masked ▸ hb')
    obtain ⟨s₂, hd, hrest⟩ := dropWaiter_stuck (s := ⟨q, s.total, s.available⟩) hr' hl'
      hwf.unlocked rfl hw
    exact ⟨h, false, _, s₂, hq, hnot h hh, by simp [Semaphore.takeBack, hd], hrest⟩

end Acquire

section Calls

variable {p : Pool B P} {s : System B Q}

/-- The call that takes back what an acquire returned. -/
inductive Cancels : Result B → Op B P → Prop

  | drop (h : Handle) : Cancels (.permit h) (.drop h)

  | cancel (h : Handle) : Cancels (.pending h) (.cancel h)

/-- A request that is taken back leaves no trace but flags of entries with the lock. -/
structure TakenBack (s : System B Q) (priority : P) (l : List (Queued B P)) (s' : System B Q)
    (l' : List (Queued B P)) : Prop where
  owned : s'.owned = s.owned
  total : s'.inner.total = s.inner.total
  available : s'.inner.available = s.inner.available
  entries_eq : entries s'.inner.queue = some l'
  flags : l' = flagWhere (outranked priority) l
  same : List.Forall₂ SameEntry l l'

theorem Holds.takenBack (hs : Holds s p)
    (hw : ∀ w ∈ p.pending.head?, bypassed w = false ∧ p.available < count w)
    (hn : n < maxPermits B) : ∃ r s₁ op s₂ l',
    Semaphore.call s (.acquireMany priority n) = some (r, s₁) ∧
      Cancels (P := P) r op ∧ Semaphore.call s₁ op = some (.unit, s₂) ∧
      TakenBack s priority (p.held ++ p.pending) s₂ l' := by
  have hreq : Requests (.acquireMany priority n) priority n n := .many hn
  have hno : ¬maxPermits B ≤ n := BitVec.not_le.mpr hn
  obtain ⟨h, acquired, s₁, s₂, hacq, hh, hback, ht, hav, hr⟩ := hs.view.takeBack hw hreq
  rw [hs.arrivals] at hh
  have hflags : flagWhere (outranked priority) (p.held ++ p.pending) =
      flagWhere (outranked priority) p.held ++ p.pending := by
    rw [flagWhere_append, flagWhere_waiting hs.view.wf.unlocked]
  have htaken : ∀ owned, owned = s.owned → TakenBack s priority (p.held ++ p.pending)
      ⟨s₂, owned⟩ (flagWhere (outranked priority) (p.held ++ p.pending)) := by
    rintro _ rfl
    exact ⟨rfl, ht, hav, hflags ▸ LawfulQueue.entries_eq hr, rfl, forall₂_flagWhere _⟩
  cases acquired with
  | true =>
    have hd : dropPermit s₁ h = some (.ok (), s₂) := hback
    refine ⟨.permit h, ⟨s₁, s.owned ++ [⟨h, .permit⟩]⟩, .drop h, _, _, ?_, .drop h, ?_,
      htaken _ (without_concat (d := .permit) hh)⟩
    · simp [Semaphore.call, hno, System.acquire, hacq]
    · simp [Semaphore.call, lookup_concat hh, System.release, hd]
  | false =>
    obtain ⟨s₂', hd, heq⟩ := Option.map_eq_some_iff.mp hback
    obtain rfl : s₂' = s₂ := (Prod.mk.inj heq).2
    refine ⟨.pending h, ⟨s₁, s.owned ++ [⟨h, .future⟩]⟩, .cancel h, _, _, ?_, .cancel h, ?_,
      htaken _ (without_concat (d := .future) hh)⟩
    · simp [Semaphore.call, hno, System.acquire, hacq]
    · simp [Semaphore.call, lookup_concat hh, System.abandon, hd]

end Calls

/-- Without a total, and after every run of calls whose acquires ask for permits, an acquire that
is taken back at once restores what callers own, what is available, and the queue up to the flags
of entries with the lock. -/
theorem acquire_cancel_noop (k : QueueKind) {B : Build} (hB : B.semaphoreTotal = false) {P : Type}
    [Priority P] [LawfulPriority P] (capacity : Usize B) (ops : List (Op B P))
    (hops : ∀ op ∈ ops, op.Positive) :
    ∃ (s : System B (k.Queue (SemaphoreWaiter B P))) (l : List (Queued B P)),
      run (after call) (System.start (new capacity)) ops = some s ∧
      entries s.inner.queue = some l ∧ ∀ (priority : P) (n : Usize B),
        if n < maxPermits B then ∃ r s₁ op s₂ l', call s (.acquireMany priority n) = some (r, s₁) ∧
          Cancels (P := P) r op ∧ call s₁ op = some (.unit, s₂) ∧ TakenBack s priority l s₂ l'
        else call s (.acquireMany priority n) = some (.panicked (.tooMany n), s) := by
  have hmove : ∀ {op : Op B P} {r p p'}, op.Positive → Moves op r p p' → p.WF → p.Awake →
      p'.Awake := fun hop hm hp ha => hm.awake hop hp ha
  obtain ⟨s, p, hr, hs, ha⟩ := run_moves (Q := k.Queue (SemaphoreWaiter B P)) capacity
    (Pool.Awake.start capacity) hmove hops
  refine ⟨s, _, hr, hs.entries_eq, fun priority n => ?_⟩
  split
  · next hn =>
    refine hs.takenBack (fun w hw => ?_) hn
    have hby : bypassed w = false := by simp [bypassed, hB]
    exact ⟨hby, (ha.head w hw).resolve_left (by simp [hby])⟩
  · next hn => simp [call, BitVec.not_lt.mp hn]

theorem acquire_cancel_noop_evicting :
    ∃ (s : System Build.evicting (QueueKind.dualArena.Queue (SemaphoreWaiter Build.evicting ℕ)))
      (l : List (Queued Build.evicting ℕ)),
      run (after call) (System.start (new 3))
        [.acquireMany 1 2, .acquireMany 2 2, .acquireMany 0 1] = some s ∧
      entries s.inner.queue = some l ∧ ∀ (priority : ℕ) (n : Usize Build.evicting),
        if n < maxPermits Build.evicting then ∃ r s₁ op s₂ l',
          call s (.acquireMany priority n) = some (r, s₁) ∧ Cancels (P := ℕ) r op ∧
          call s₁ op = some (.unit, s₂) ∧ TakenBack s priority l s₂ l'
        else call s (.acquireMany priority n) = some (.panicked (.tooMany n), s) :=
  acquire_cancel_noop _ rfl _ _ (by simp [Op.Positive, Op.request])

end PriorityLock.Semaphore
