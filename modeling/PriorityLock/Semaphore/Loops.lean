import PriorityLock.Lists.Greedy
import PriorityLock.Semaphore.Walk

/-! # The loops over a semaphore's queue

Over a lawful queue the loop of `activate_waiters` is the walk over the waiting
entries, and the scan of `do_acquire` flags holders and finds the first entry
that blocks a request.
-/

namespace PriorityLock.Semaphore

open Placement PriorityQueue

variable {B : Build} {Q P : Type} [Priority P] [PriorityQueue Q (SemaphoreWaiter B P)]
  [LawfulQueue Q (SemaphoreWaiter B P)] {q : Q} {s : SemaphoreInner B Q} {e : Queued B P}
  {a b c held pending rest skipped : List (Queued B P)}

section Loops

theorem evictWhere_spec (cond : SemaphoreWaiter B P → Bool)
    (hq : LawfulQueue.Rep q (a ++ (b ++ c))) : ∃ q', evictWhere cond q (handles b) = some q' ∧
      LawfulQueue.Rep q' (a ++ (flagWhere cond b ++ c)) := by
  induction b generalizing a q with
  | nil => exact ⟨q, rfl, hq⟩
  | cons e b ih =>
    have hg := LawfulQueue.getByHandle_spec hq (e := e) (by simp)
    by_cases hc : cond e.data = true
    · obtain ⟨q₁, hq₁, hr₁⟩ := LawfulQueue.store_spec SemaphoreWaiter.evict hq
      rw [List.append_cons] at hr₁
      obtain ⟨q', hq', hr'⟩ := ih hr₁
      exact ⟨q', by simp [evictWhere, hg, hc, hq₁, hq'], by simpa [flagWhere, flag, hc] using hr'⟩
    · rw [List.cons_append, List.append_cons] at hq
      obtain ⟨q', hq', hr'⟩ := ih hq
      exact ⟨q', by simp [evictWhere, hg, hc, hq'], by simpa [flagWhere, flag, hc] using hr'⟩

/-- `activateLoop` with the entries that it looks at. -/
def activateLog : ℕ → SemaphoreInner B Q → Option Handle →
    Option (List (Queued B P × Greedy.Verdict) × SemaphoreInner B Q)
  | _, s, none => some ([], s)
  | 0, _, some _ => none
  | fuel + 1, s, some handle => do
    let node ← getByHandle s.queue handle
    let next ← getNextHandle s.queue handle
    if node.waiter.hasLock then
      let (visits, s) ← activateLog fuel s next
      return ((⟨handle, node⟩, .passed) :: visits, s)
    else if s.available < node.count then
      if B.semaphoreTotal && node.waiter.wantsEvict then
        let (visits, s) ← activateLog fuel s next
        return ((⟨handle, node⟩, .passed) :: visits, s)
      else
        return ([(⟨handle, node⟩, .stopped)], s)
    else
      let queue ← updateNode s.queue handle fun x => (x.start, true)
      let (visits, s) ←
        activateLog fuel { s with queue, available := s.available - node.count } next
      return ((⟨handle, node⟩, .granted) :: visits, s)

omit [Priority P] [LawfulQueue Q (SemaphoreWaiter B P)] in
theorem activateLog_snd {fuel : ℕ} {next : Option Handle} :
    (activateLog fuel s next).map Prod.snd = activateLoop fuel s next := by
  induction fuel generalizing s next with
  | zero => cases next <;> rfl
  | succ fuel ih =>
    cases next with
    | none => rfl
    | some handle =>
      have hrec : ∀ (s : SemaphoreInner B Q) next,
          ((activateLog fuel s next).bind fun r => some r.2) = activateLoop fuel s next := by
        intro s next
        rw [← ih]
        cases activateLog fuel s next <;> rfl
      simp only [activateLog, activateLoop]
      rcases hg : getByHandle s.queue handle with _ | node
      · rfl
      rcases hn : getNextHandle s.queue handle with _ | next
      · rfl
      cases hl : node.waiter.hasLock with
      | true => simp [hl, hrec]
      | false =>
        by_cases hlt : s.available < node.count
        · by_cases hby : B.semaphoreTotal = true ∧ node.waiter.wantsEvict = true
          · simp [hl, hlt, hby, hrec]
          · simp [hl, hlt, hby]
        · rcases hu : updateNode s.queue handle fun x => (x.start, true) with _ | q
          · simp [hl, hlt, hu]
          · simp [hl, hlt, hu, hrec]

/-- What the walk goes by: an entry with the lock is settled, others cost their counts. -/
def grantRule : Greedy.Rule (Queued B P) := ⟨hasLock, fun e => (count e).toNat, bypassed⟩

omit [Priority P] in
theorem visits_grant {n : Usize B} (he : hasLock e = false) (hle : count e ≤ n) :
    grantRule.visits n.toNat (e :: rest) =
      (e, .granted) :: grantRule.visits (n - count e).toNat rest := by
  rw [toNat_sub_of_le hle]
  exact Greedy.visits_granted (Greedy.judge_granted.mpr ⟨he, BitVec.le_def.mp hle⟩)

omit [Priority P] in
theorem visits_skip {n : Usize B} (he : hasLock e = false) (hlt : n < count e)
    (hby : bypassed e = true) :
    grantRule.visits n.toNat (e :: rest) = (e, .passed) :: grantRule.visits n.toNat rest :=
  Greedy.visits_passed ((Greedy.judge_optional he (BitVec.lt_def.mp hlt)).trans (if_pos hby))

omit [Priority P] in
theorem visits_stop {n : Usize B} (he : hasLock e = false) (hlt : n < count e)
    (hby : bypassed e = false) : grantRule.visits n.toNat (e :: rest) = [(e, .stopped)] :=
  Greedy.visits_stopped
    ((Greedy.judge_optional he (BitVec.lt_def.mp hlt)).trans (if_neg (Bool.eq_false_iff.mp hby)))

theorem activateLog_held (fuel : ℕ) (hs : LawfulQueue.Rep s.queue (a ++ (b ++ c)))
    (hb : ∀ e ∈ b, hasLock e = true) :
    activateLog (b.length + fuel) s ((b ++ c).head?.map Entry.handle) =
      (activateLog fuel s (c.head?.map Entry.handle)).map fun r =>
        (b.map (·, .passed) ++ r.1, r.2) := by
  induction b generalizing a with
  | nil => simp
  | cons e b ih =>
    have hg := LawfulQueue.getByHandle_spec hs (e := e) (by simp)
    have hn : getNextHandle s.queue e.handle = some ((b ++ c).head?.map Entry.handle) :=
      LawfulQueue.getNextHandle_spec hs
    have he : e.data.waiter.hasLock = true := hb e (by simp)
    rw [List.cons_append, List.append_cons] at hs
    have hrest := ih hs fun f hf => hb f (by simp [hf])
    rw [List.length_cons, Nat.add_right_comm]
    rcases hl : activateLog fuel s (c.head?.map Entry.handle) with _ | r
    all_goals
      rw [hl, List.head?_append] at hrest
      simp [activateLog, hg, hn, he, hrest]

theorem activateLog_pending {fuel : ℕ} (hf : rest.length ≤ fuel)
    (hs : LawfulQueue.Rep s.queue (held ++ (skipped ++ rest)))
    (hp : ∀ e ∈ skipped ++ rest, hasLock e = false) : ∃ s' held' pending',
    activateLog fuel s (rest.head?.map Entry.handle) =
      some (grantRule.visits s.available.toNat rest, s') ∧ s'.total = s.total ∧
      LawfulQueue.Rep s'.queue (held' ++ pending') ∧
      Activates held skipped rest s.available held' pending' s'.available := by
  induction rest generalizing s held skipped fuel with
  | nil => exact ⟨s, held, skipped, by cases fuel <;> rfl, rfl, by simpa using hs, .finish⟩
  | cons e rest ih =>
    rw [List.length_cons] at hf
    obtain ⟨fuel, rfl⟩ : ∃ n, fuel = n + 1 := ⟨fuel - 1, by omega⟩
    have hf' : rest.length ≤ fuel := by simpa using hf
    have hs' : LawfulQueue.Rep s.queue ((held ++ skipped) ++ e :: rest) := by simpa using hs
    have hg := LawfulQueue.getByHandle_spec hs' (e := e) (by simp)
    have hn := LawfulQueue.getNextHandle_spec hs'
    have he : e.data.waiter.hasLock = false := hp e (by simp)
    by_cases hlt : s.available < count e
    · have hlt' : s.available < e.data.count := hlt
      cases hby : bypassed e with
      | true =>
        have hby' : B.semaphoreTotal = true ∧ e.data.waiter.wantsEvict = true := by
          simpa [bypassed, wantsEvict] using hby
        rw [List.append_cons skipped e rest] at hs hp
        obtain ⟨s', held', pending', hl, ht, hr, ha⟩ := ih hf' hs hp
        refine ⟨s', held', pending', ?_, ht, hr, .skip hlt hby ha⟩
        rw [visits_skip he hlt hby]
        simp [activateLog, hg, hn, he, hlt', hby', hl]
      | false =>
        have hby' : B.semaphoreTotal = true → e.data.waiter.wantsEvict = false := by
          simpa [bypassed, wantsEvict] using hby
        refine ⟨s, held, skipped ++ e :: rest, ?_, rfl, hs, .stop hlt hby⟩
        rw [visits_stop he hlt hby]
        cases hB : B.semaphoreTotal <;> simp [activateLog, hg, hn, he, hlt', hB, hby']
    · have hlt' : ¬s.available < e.data.count := hlt
      have hle : count e ≤ s.available := BitVec.not_lt.mp hlt
      obtain ⟨q, l, hq, hr, hset⟩ := LawfulQueue.updateNode_settle
        (fun x : SemaphoreWaiter B P => (x.start, true)) hs' rfl
      have hp' : ∀ f ∈ skipped ++ rest, hasLock f = false :=
        fun f hf => hp f ((List.sublist_cons_self e rest).append_left skipped |>.subset hf)
      rw [List.append_assoc] at hset
      obtain ⟨held₁, rfl, hfront⟩ := settled_locked rfl hp' hset
      obtain ⟨s', held', pending', hl, ht, hr', ha⟩ :=
        ih (s := { s with queue := q, available := s.available - e.data.count }) hf' hr hp'
      refine ⟨s', held', pending', ?_, ht, hr', .grant hle hfront ha⟩
      rw [visits_grant he hle]
      simp [activateLog, hg, hn, he, hlt', hq, hl, count]

/-- From a holder or the first entry that waits, `activate_waiters` is the walk. -/
theorem activateLog_spec (hs : LawfulQueue.Rep s.queue (a ++ (b ++ pending)))
    (hb : ∀ e ∈ b, hasLock e = true) (hp : ∀ e ∈ pending, hasLock e = false) :
    ∃ s' held' pending',
      activateLog (a ++ (b ++ pending)).length s ((b ++ pending).head?.map Entry.handle) =
        some (grantRule.visits s.available.toNat (b ++ pending), s') ∧ s'.total = s.total ∧
      LawfulQueue.Rep s'.queue (held' ++ pending') ∧
      Activates (a ++ b) [] pending s.available held' pending' s'.available := by
  have hlen : (a ++ (b ++ pending)).length = b.length + (a.length + pending.length) := by
    simp only [List.length_append]
    omega
  have hs' : LawfulQueue.Rep s.queue ((a ++ b) ++ ([] ++ pending)) := by simpa using hs
  have hf : pending.length ≤ a.length + pending.length := by omega
  obtain ⟨s', held', pending', hl, ht, hr, ha⟩ := activateLog_pending hf hs' hp
  refine ⟨s', held', pending', ?_, ht, hr, ha⟩
  rw [hlen, activateLog_held _ hs hb, hl, Greedy.visits_settled hb]
  rfl

theorem activateWaiters_eq {l : List (Queued B P)} (hs : LawfulQueue.Rep s.queue l)
    {next : Option Handle} : activateWaiters s next = activateLoop l.length s next := by
  have hi : iter s.queue = some _ := LawfulQueue.iterAt_none hs
  rw [activateWaiters, hi]
  change activateLoop (List.length _) s _ = _
  rw [List.length_map]

theorem activateWaiters_spec (hs : LawfulQueue.Rep s.queue (a ++ (b ++ pending)))
    (hb : ∀ e ∈ b, hasLock e = true) (hp : ∀ e ∈ pending, hasLock e = false) :
    ∃ s' held' pending',
      activateWaiters s ((b ++ pending).head?.map Entry.handle) = some s' ∧ s'.total = s.total ∧
      LawfulQueue.Rep s'.queue (held' ++ pending') ∧
      Activates (a ++ b) [] pending s.available held' pending' s'.available := by
  obtain ⟨s', held', pending', hl, hrest⟩ := activateLog_spec hs hb hp
  refine ⟨s', held', pending', ?_, hrest⟩
  rw [activateWaiters_eq hs, ← activateLog_snd, hl]
  rfl

theorem skipWhile_held (p : P) (hq : LawfulQueue.Rep q (a ++ (b ++ c)))
    (hb : ∀ e ∈ b, hasLock e = true) : ∃ q',
    skipWhile p q (handles (b ++ c)) = skipWhile p q' (handles c) ∧
      LawfulQueue.Rep q' (a ++ (flagWhere (outranked p) b ++ c)) := by
  induction b generalizing a q with
  | nil => exact ⟨q, rfl, hq⟩
  | cons e b ih =>
    have hg := LawfulQueue.getByHandle_spec hq (e := e) (by simp)
    have he : e.data.waiter.hasLock = true := hb e (by simp)
    have hb' : ∀ f ∈ b, hasLock f = true := fun f hf => hb f (by simp [hf])
    by_cases hc : B.evict = true ∧ Priority.compare p e.data.priority = .gt
    · obtain ⟨q₁, hq₁, hr₁⟩ := LawfulQueue.store_spec SemaphoreWaiter.evict hq
      rw [List.append_cons] at hr₁
      obtain ⟨q', hq', hr'⟩ := ih hr₁ hb'
      refine ⟨q', by simpa [skipWhile, hg, he, hc, hq₁] using hq', ?_⟩
      simpa [flagWhere, flag, outranked, hc, he] using hr'
    · rw [List.cons_append, List.append_cons] at hq
      obtain ⟨q', hq', hr'⟩ := ih hq hb'
      refine ⟨q', by simpa [skipWhile, hg, he, hc] using hq', ?_⟩
      simpa [flagWhere, flag, outranked, hc, he] using hr'

theorem skipWhile_pending (p : P) (hq : LawfulQueue.Rep q (a ++ c))
    (hc : ∀ e ∈ c, hasLock e = false) :
    skipWhile p q (handles c) = some ((c.find? blocks).map Entry.handle, q) := by
  induction c generalizing a with
  | nil => rfl
  | cons e c ih =>
    have hg := LawfulQueue.getByHandle_spec hq (e := e) (by simp)
    have he : e.data.waiter.hasLock = false := hc e (by simp)
    rw [List.append_cons] at hq
    have ih' := ih hq fun f hf => hc f (by simp [hf])
    cases hB : B.semaphoreTotal <;> cases hw : e.data.waiter.wantsEvict <;>
      simp [skipWhile, hg, he, hB, hw, blocks, wantsEvict, ih']

theorem willAcquire_spec (p : P) (hs : LawfulQueue.Rep s.queue (held ++ pending))
    (hl : ∀ e ∈ held, hasLock e = true) (hu : ∀ e ∈ pending, hasLock e = false) : ∃ q',
    willAcquire s p = some ((pending.find? blocks).all fun f =>
      (Priority.compare p f.data.priority).isGE, q') ∧
      LawfulQueue.Rep q' (flagWhere (outranked p) held ++ pending) := by
  have hi : iter s.queue = some (handles (held ++ pending)) := LawfulQueue.iterAt_none hs
  obtain ⟨q', hq', hr⟩ := skipWhile_held (a := []) p hs hl
  have hr' : LawfulQueue.Rep q' (flagWhere (outranked p) held ++ pending) := hr
  refine ⟨q', ?_, hr'⟩
  have hskip := skipWhile_pending p hr' hu
  cases hf : pending.find? blocks with
  | none =>
    rw [hskip, hf, handles_append] at hq'
    simp [willAcquire, hi, hq']
  | some f =>
    have hg := LawfulQueue.getByHandle_spec hr' (e := f)
      (List.mem_append_right _ (List.mem_of_find?_eq_some hf))
    rw [hskip, hf, handles_append] at hq'
    simp [willAcquire, hi, hq', hg]

end Loops

section Acquire

theorem doAcquire_granted (p : P) (word : Usize B)
    (hs : LawfulQueue.Rep s.queue (held ++ pending)) (hl : ∀ e ∈ held, hasLock e = true)
    (hu : ∀ e ∈ pending, hasLock e = false) (hle : masked word ≤ s.available)
    (hb : ∀ f ∈ pending.find? blocks, (Priority.compare p f.data.priority).isGE) :
    ∃ h q' held', doAcquire s p word =
        some ((h, true), ⟨q', s.total, s.available - masked word⟩) ∧
      LawfulQueue.Rep q' (held' ++ pending) ∧ h ∉ handles (held ++ pending) ∧
      Placed Priority.compareNew ⟨h, p, .new true, word⟩ (flagWhere (outranked p) held) held' := by
  obtain ⟨q₁, hq₁, hr₁⟩ := willAcquire_spec p hs hl hu
  have hall : ((pending.find? blocks).all fun f =>
      (Priority.compare p f.data.priority).isGE) = true := by
    cases hf : pending.find? blocks with
    | none => rfl
    | some f => exact hb f hf
  rw [hall] at hq₁
  obtain ⟨h, q', l', hq', hr', hh, hplace⟩ := LawfulQueue.enqueue_spec ⟨p, .new true, word⟩ hr₁
  obtain ⟨held', rfl, hfront⟩ := hplace.within_front fun f hf => compareNew_locked rfl (hu f hf)
  have hh' : h ∉ handles (flagWhere (outranked p) held ++ pending) := hh
  refine ⟨h, q', held', ?_, hr', by simpa using hh', hfront⟩
  simp [doAcquire, hle, hq₁, hq']

theorem doAcquire_queued (p : P) (word : Usize B)
    (hs : LawfulQueue.Rep s.queue (held ++ pending)) (hl : ∀ e ∈ held, hasLock e = true)
    (hu : ∀ e ∈ pending, hasLock e = false) (hb : masked word ≤ s.available →
      ∃ f, pending.find? blocks = some f ∧ Priority.compare p f.data.priority = .lt) :
    ∃ h q' pending', doAcquire s p word = some ((h, false), ⟨q', s.total, s.available⟩) ∧
      LawfulQueue.Rep q' (flagWhere (outranked p) held ++ pending') ∧
      h ∉ handles (held ++ pending) ∧
      Placed Priority.compareNew ⟨h, p, .new false, word⟩ pending pending' := by
  have hl' : ∀ e ∈ flagWhere (outranked p) held, hasLock e = true := hasLock_flagWhere hl
  by_cases hle : masked word ≤ s.available
  · obtain ⟨q₁, hq₁, hr₁⟩ := willAcquire_spec p hs hl hu
    obtain ⟨f, hf, hlt⟩ := hb hle
    have hall : ((pending.find? blocks).all fun f =>
        (Priority.compare p f.data.priority).isGE) = false := by simp [hf, hlt]
    rw [hall] at hq₁
    obtain ⟨h, q', l', hq', hr', hh, hplace⟩ := LawfulQueue.enqueue_spec ⟨p, .new false, word⟩ hr₁
    obtain ⟨pending', rfl, hback⟩ :=
      hplace.within_back fun f hf => compareNew_unlocked rfl (hl' f hf)
    have hh' : h ∉ handles (flagWhere (outranked p) held ++ pending) := hh
    refine ⟨h, q', pending', ?_, hr', by simpa using hh', hback⟩
    simp [doAcquire, hle, hq₁, hq']
  · obtain ⟨h, q₁, l', hq₁, hr₁, hh, hplace⟩ := LawfulQueue.enqueue_spec ⟨p, .new false, word⟩ hs
    obtain ⟨pending', rfl, hback⟩ :=
      hplace.within_back fun f hf => compareNew_unlocked rfl (hl f hf)
    cases hB : B.evict with
    | false =>
      have hflag : flagWhere (outranked p) held = held :=
        flagWhere_of_false fun e _ => by simp [outranked, hB]
      rw [hflag]
      exact ⟨h, q₁, pending', by simp [doAcquire, hle, hq₁, hB], hr₁, hh, hback⟩
    | true =>
      have hmem : (⟨h, p, .new false, word⟩ : Queued B P) ∈ held ++ pending' :=
        List.mem_append_right _ (hback.perm.mem_iff.mpr (by simp))
      have hg := LawfulQueue.getByHandle_spec hr₁ hmem
      have hi : iter q₁ = some (handles (held ++ pending')) := LawfulQueue.iterAt_none hr₁
      have hr₂ : LawfulQueue.Rep q₁ ([] ++ ((held ++ pending') ++ [])) := by simpa using hr₁
      obtain ⟨q', hq', hr'⟩ := evictWhere_spec (outranked p) hr₂
      have hflag : flagWhere (outranked p) pending' = pending' := by
        apply flagWhere_of_false
        intro e he
        have hlock : e.data.waiter.hasLock = false := by
          rcases List.mem_cons.mp (hback.perm.mem_iff.mp he) with rfl | he
          · rfl
          · exact hu e he
        simp [outranked, hlock]
      have hcond : outranked (B := B) p = fun ex =>
          ex.waiter.hasLock && decide (Priority.compare p ex.priority = .gt) := by
        funext ex
        simp [outranked, hB]
      rw [flagWhere_append, hflag] at hr'
      rw [hcond, handles_append] at hq'
      refine ⟨h, q', pending', ?_, by simpa using hr', hh, hback⟩
      simp [doAcquire, hle, hq₁, hB, hg, hi, hq']

end Acquire

end PriorityLock.Semaphore
