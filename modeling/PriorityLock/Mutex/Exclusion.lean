import PriorityLock.Mutex.Basic

/-! # Mutual exclusion

The entries of a mutex are a holder followed by waiters without the lock. The
calls move such a list along: a request goes behind the holder whatever its
priority, and a holder that leaves hands the lock to the next entry.
-/

namespace PriorityLock.Mutex

open Placement Transition PriorityQueue

variable {P : Type}

def hasLock (e : Entry (MutexWaiter P)) : Bool := e.data.waiter.hasLock

/-- The first entry has the lock and no other one has it. -/
def Led : List (Entry (MutexWaiter P)) → Prop
  | [] => True
  | e :: t => hasLock e = true ∧ ∀ f ∈ t, hasLock f = false

def handOver : List (Entry (MutexWaiter P)) → List (Entry (MutexWaiter P))
  | [] => []
  | e :: t => ⟨e.handle, e.data.start⟩ :: t

def outranked [Priority P] (evict : Bool) (p : P) (e : Entry (MutexWaiter P)) :
    Entry (MutexWaiter P) :=
  if evict = true ∧ Priority.compare p e.data.priority = .gt then ⟨e.handle, e.data.evict⟩ else e

/-- The entry that a call releases. -/
def Op.releases : Op P → Option Handle
  | .cancel h | .drop h => some h
  | _ => none

section Led

variable {e : Entry (MutexWaiter P)} {a b t t' l : List (Entry (MutexWaiter P))}

theorem Led.handOver (h : ∀ f ∈ t, hasLock f = false) : Led (handOver t) := by
  cases t with
  | nil => trivial
  | cons f t => exact ⟨rfl, fun g hg => h g (List.mem_cons_of_mem f hg)⟩

theorem Led.filter (h : Led l) : l.filter hasLock = l.head?.toList := by
  cases l with
  | nil => rfl
  | cons e t =>
    have ht : t.filter hasLock = [] :=
      List.filter_eq_nil_iff.mpr fun f hf => by simp [h.2 f hf]
    rw [List.filter_cons_of_pos h.1, ht]
    rfl

theorem Led.eq_nil (h : Led (a ++ e :: b)) (he : hasLock e = true) : a = [] := by
  cases a with
  | nil => rfl
  | cons f a =>
    have hn := h.2 e (by simp)
    simp [he] at hn

theorem Led.ne_nil (h : Led (a ++ e :: b)) (he : hasLock e = false) : ∃ f c, a = f :: c := by
  cases a with
  | nil =>
    have hl := h.1
    simp [he] at hl
  | cons f a => exact ⟨f, a, rfl⟩

theorem Led.leave (h : Led (a ++ e :: b)) (he : hasLock e = false) : Led (a ++ b) := by
  obtain ⟨f, c, rfl⟩ := h.ne_nil he
  refine ⟨h.1, ?_⟩
  intro g hg
  rcases List.mem_append.mp hg with hg | hg
  · exact h.2 g (List.mem_append_left _ hg)
  · exact h.2 g (List.mem_append_right _ (List.mem_cons_of_mem e hg))

variable [Priority P] {evict : Bool} {p : P}

@[simp] theorem outranked_handle : (outranked evict p e).handle = e.handle := by
  unfold outranked
  split <;> rfl

@[simp] theorem outranked_hasLock : hasLock (outranked evict p e) = hasLock e := by
  unfold outranked
  split <;> rfl

/-- Whatever its priority, a request is not placed in front of the holder. -/
theorem placed_behind {x : Entry (MutexWaiter P)} (he : hasLock e = true)
    (h : Placed Priority.compareNew x (e :: t) l) :
    ∃ t', l = e :: t' ∧ Placed Priority.compareNew x t t' := by
  have hlt : Priority.compareNew x e = .lt := if_pos he
  have hb : ∀ f ∈ [e], Priority.compareNew x f = .lt := by simpa using hlt
  exact Placed.within_back (a := [e]) h hb

end Led

/-- What a call returns and how it moves the entries of the mutex. -/
inductive Moves [Priority P] (evict : Bool) : Op P → Result →
    List (Entry (MutexWaiter P)) → List (Entry (MutexWaiter P)) → Prop

  | lock_free {p : P} {h : Handle} :
      Moves evict (.lock p) (.acquired h) [] [⟨h, .new p true⟩]

  | lock_wait {p : P} {h : Handle} {e : Entry (MutexWaiter P)}
      {t t' : List (Entry (MutexWaiter P))} : h ∉ handles (e :: t) →
      Placed Priority.compareNew ⟨h, .new p false⟩ t t' →
      Moves evict (.lock p) (.pending h) (e :: t) (outranked evict p e :: t')

  | tryLock_free {p : P} {h : Handle} :
      Moves evict (.tryLock p) (.acquired h) [] [⟨h, .new p true⟩]

  | tryLock_held {p : P} {e : Entry (MutexWaiter P)} {t : List (Entry (MutexWaiter P))} :
      Moves evict (.tryLock p) (.error ⟨⟩) (e :: t) (e :: t)

  | poll_ready {e : Entry (MutexWaiter P)} {t : List (Entry (MutexWaiter P))} :
      Moves evict (.poll e.handle) (.acquired e.handle) (e :: t) (e :: t)

  | poll_pending {e : Entry (MutexWaiter P)} {l : List (Entry (MutexWaiter P))} : e ∈ l →
      hasLock e = false → Moves evict (.poll e.handle) (.pending e.handle) l l

  | release {op : Op P} {e : Entry (MutexWaiter P)} {t : List (Entry (MutexWaiter P))} :
      op.releases = some e.handle → Moves evict op .unit (e :: t) (handOver t)

  | leave {op : Op P} {e : Entry (MutexWaiter P)} {a b : List (Entry (MutexWaiter P))} :
      op.releases = some e.handle → hasLock e = false →
      Moves evict op .unit (a ++ e :: b) (a ++ b)

  | evicted {e : Entry (MutexWaiter P)} {l : List (Entry (MutexWaiter P))} : e ∈ l →
      Moves evict (.evicted e.handle) (.evicted e.data.waiter.wantsEvict) l l

  | refused {op : Op P} {l : List (Entry (MutexWaiter P))} : Moves evict op .refused l l

theorem Moves.led [Priority P] {evict : Bool} {op : Op P} {r : Result}
    {l l' : List (Entry (MutexWaiter P))} (h : Moves evict op r l l') (hl : Led l) : Led l' := by
  cases h with
  | lock_free => exact ⟨rfl, by simp⟩
  | lock_wait hh hp =>
    refine ⟨outranked_hasLock.trans hl.1, ?_⟩
    intro f hf
    rcases List.mem_cons.mp (hp.perm.mem_iff.mp hf) with rfl | hf
    · rfl
    · exact hl.2 f hf
  | tryLock_free => exact ⟨rfl, by simp⟩
  | release hop => exact Led.handOver hl.2
  | leave hop he => exact hl.leave he
  | _ => exact hl

section Operations

variable {Q : Type} [Priority P] [PriorityQueue Q (MutexWaiter P)]
  [LawfulQueue Q (MutexWaiter P)] {m : Mutex Q} {e : Entry (MutexWaiter P)}
  {a b t : List (Entry (MutexWaiter P))}

theorem enqueue_empty (d : MutexWaiter P) (hm : LawfulQueue.Rep m.queue []) : ∃ h q,
    enqueue m.queue d = some (h, q) ∧ LawfulQueue.Rep q [⟨h, d⟩] := by
  obtain ⟨h, q, l, hq, hr, -, hp⟩ := LawfulQueue.enqueue_spec d hm
  exact ⟨h, q, hq, List.perm_singleton.mp hp.perm ▸ hr⟩

theorem tryLock_free (p : P) (hm : LawfulQueue.Rep m.queue []) : ∃ h m',
    tryLock m p = some (.ok h, m') ∧ LawfulQueue.Rep m'.queue [⟨h, .new p true⟩] := by
  obtain ⟨h, q, hq, hr⟩ := enqueue_empty (.new p true) hm
  exact ⟨h, ⟨q⟩, by simp [tryLock, LawfulQueue.isEmpty_spec hm, hq], hr⟩

theorem tryLock_held (p : P) (hm : LawfulQueue.Rep m.queue (e :: t)) :
    tryLock m p = some (.error ⟨⟩, m) := by
  simp [tryLock, LawfulQueue.isEmpty_spec hm]

theorem lock_free (evict : Bool) (p : P) (hm : LawfulQueue.Rep m.queue []) : ∃ h m',
    lock evict m p = some ((h, true), m') ∧ LawfulQueue.Rep m'.queue [⟨h, .new p true⟩] := by
  obtain ⟨h, q, hq, hr⟩ := enqueue_empty (.new p true) hm
  exact ⟨h, ⟨q⟩, by simp [lock, LawfulQueue.head_spec hm, hq], hr⟩

theorem evictHead_spec (evict : Bool) (p : P) (hm : LawfulQueue.Rep m.queue (e :: t)) : ∃ m',
    evictHead evict m e.handle p = some m' ∧
      LawfulQueue.Rep m'.queue (outranked evict p e :: t) := by
  cases evict with
  | false => exact ⟨m, rfl, by simpa [outranked] using hm⟩
  | true =>
    have hg := LawfulQueue.getByHandle_spec hm (e := e) (by simp)
    by_cases hc : Priority.compare p e.data.priority = .gt
    · obtain ⟨q, hq, hr⟩ := LawfulQueue.store_spec (a := []) MutexWaiter.evict hm
      exact ⟨⟨q⟩, by simp [evictHead, hg, hc, hq], by simpa [outranked, hc] using hr⟩
    · exact ⟨m, by simp [evictHead, hg, hc], by simpa [outranked, hc] using hm⟩

theorem lock_wait (evict : Bool) (p : P) (hm : LawfulQueue.Rep m.queue (e :: t))
    (he : hasLock e = true) : ∃ h m' t', lock evict m p = some ((h, false), m') ∧
      LawfulQueue.Rep m'.queue (outranked evict p e :: t') ∧ h ∉ handles (e :: t) ∧
      Placed Priority.compareNew ⟨h, .new p false⟩ t t' := by
  obtain ⟨m₁, hm₁, hr₁⟩ := evictHead_spec evict p hm
  obtain ⟨h, q, l, hq, hr, hh, hl⟩ := LawfulQueue.enqueue_spec (.new p false) hr₁
  obtain ⟨t', rfl, hp⟩ := placed_behind (outranked_hasLock.trans he) hl
  refine ⟨h, ⟨q⟩, t', ?_, hr, ?_, hp⟩
  · simp [lock, LawfulQueue.head_spec hm, hm₁, hq]
  · rw [List.map_cons, outranked_handle] at hh
    exact hh

theorem dropGuard_holder (hm : LawfulQueue.Rep m.queue (e :: t)) (he : hasLock e = true) :
    ∃ m', dropGuard m e.handle = some m' ∧ LawfulQueue.Rep m'.queue (handOver t) := by
  have hg := LawfulQueue.getByHandle_spec hm (e := e) (by simp)
  obtain ⟨q, hq, hr⟩ := LawfulQueue.dequeue_spec (a := []) hm
  have hl : e.data.waiter.hasLock = true := he
  have hh := LawfulQueue.head_spec hr
  cases t with
  | nil => exact ⟨⟨q⟩, by simp [dropGuard, hg, hq, hh], hr⟩
  | cons f t =>
    obtain ⟨q', hq', hr'⟩ := LawfulQueue.store_spec (a := []) MutexWaiter.start hr
    exact ⟨⟨q'⟩, by simp [dropGuard, hg, hq, hl, hh, hq'], hr'⟩

theorem dropGuard_waiter (hm : LawfulQueue.Rep m.queue (a ++ e :: b)) (he : hasLock e = false) :
    ∃ m', dropGuard m e.handle = some m' ∧ LawfulQueue.Rep m'.queue (a ++ b) := by
  have hg := LawfulQueue.getByHandle_spec hm (e := e) (by simp)
  obtain ⟨q, hq, hr⟩ := LawfulQueue.dequeue_spec hm
  have hl : e.data.waiter.hasLock = false := he
  exact ⟨⟨q⟩, by simp [dropGuard, hg, hq, hl], hr⟩

end Operations

section Calls

variable {Q : Type} [Priority P] [PriorityQueue Q (MutexWaiter P)]
  [LawfulQueue Q (MutexWaiter P)] {s : System Q} {e : Entry (MutexWaiter P)} {o : Entry Owned}
  {a b t l l' : List (Entry (MutexWaiter P))}

/-- The queue holds one entry for each thing that a caller owns, and every guard is
the one of the first entry. -/
structure Holds (s : System Q) (l : List (Entry (MutexWaiter P))) : Prop where
  rep : LawfulQueue.Rep s.mutex.queue l
  led : Led l
  perm : (handles l).Perm (handles s.owned)
  guard : ∀ o ∈ s.owned, o.data = .guard → (handles l).head? = some o.handle

theorem Holds.start : Holds (System.start (new : Mutex Q)) ([] : List (Entry (MutexWaiter P))) :=
  ⟨LawfulQueue.rep_default, trivial, .nil, by simp [System.start]⟩

theorem Holds.split (hs : Holds s l) (ho : o ∈ s.owned) :
    ∃ a e b, l = a ++ e :: b ∧ e.handle = o.handle := by
  obtain ⟨e, he, heo⟩ := List.mem_map.mp (hs.perm.mem_iff.mpr (mem_handles ho))
  obtain ⟨a, b, rfl⟩ := List.append_of_mem he
  exact ⟨a, e, b, rfl, heo⟩

theorem Holds.acquire {m : Mutex Q} {h : Handle} {d : MutexWaiter P}
    (hs : Holds s ([] : List (Entry (MutexWaiter P))))
    (hm : LawfulQueue.Rep m.queue [⟨h, d⟩]) (hd : d.waiter.hasLock = true) :
    Holds ⟨m, s.owned ++ [⟨h, .guard⟩]⟩ [⟨h, d⟩] := by
  have hn : s.owned = [] := List.map_eq_nil_iff.mp hs.perm.nil_eq.symm
  refine ⟨hm, ⟨hd, by simp⟩, by simp [hn], ?_⟩
  intro o ho _
  rw [hn, List.nil_append, List.mem_singleton] at ho
  simp [ho]

theorem Holds.wait {m : Mutex Q} {h : Handle} (hs : Holds s (e :: t))
    (hm : LawfulQueue.Rep m.queue l) (hl : Led l) (hp : (handles l).Perm (h :: handles (e :: t)))
    (hh : (handles l).head? = some e.handle) : Holds ⟨m, s.owned ++ [⟨h, .future⟩]⟩ l := by
  refine ⟨hm, hl, ?_, ?_⟩
  · have := hp.trans (hs.perm.cons h)
    exact this.trans (by simpa using (List.perm_append_singleton h (handles s.owned)).symm)
  · intro o ho hg
    rcases List.mem_append.mp ho with ho | ho
    · rw [hh]
      exact hs.guard o ho hg
    · rw [List.mem_singleton.mp ho] at hg
      cases hg

theorem Holds.resolve (hs : Holds s (e :: t)) :
    Holds { s with owned := relabel s.owned e.handle .guard } (e :: t) := by
  refine ⟨hs.rep, hs.led, by simpa using hs.perm, ?_⟩
  intro o ho hg
  rcases mem_relabel ho with rfl | ho
  · rfl
  · exact hs.guard o ho hg

theorem Holds.without_perm (hs : Holds s (a ++ e :: b)) :
    (handles (a ++ b)).Perm (handles (without s.owned e.handle)) := by
  rw [← without_middle (LawfulQueue.nodup hs.rep), handles_without, handles_without]
  exact hs.perm.filter _

theorem Holds.release {m : Mutex Q} (hs : Holds s (e :: t))
    (hm : LawfulQueue.Rep m.queue (handOver t)) :
    Holds ⟨m, without s.owned e.handle⟩ (handOver t) := by
  refine ⟨hm, Led.handOver hs.led.2, ?_, ?_⟩
  · have hp := hs.without_perm (a := [])
    cases t <;> exact hp
  · intro o ho hg
    obtain ⟨ho, hne⟩ := mem_without.mp ho
    have hh := hs.guard o ho hg
    exact absurd (by simpa using hh.symm) hne

theorem Holds.leave {m : Mutex Q} (hs : Holds s (a ++ e :: b)) (he : hasLock e = false)
    (hm : LawfulQueue.Rep m.queue (a ++ b)) :
    Holds ⟨m, without s.owned e.handle⟩ (a ++ b) := by
  refine ⟨hm, hs.led.leave he, hs.without_perm, ?_⟩
  intro o ho hg
  obtain ⟨f, c, rfl⟩ := hs.led.ne_nil he
  exact hs.guard o (mem_without.mp ho).1 hg

theorem Holds.drop (evict : Bool) (op : Op P) (hs : Holds s l) (ho : o ∈ s.owned)
    (hop : op.releases = some o.handle) : ∃ m l', dropGuard s.mutex o.handle = some m ∧
      Holds ⟨m, without s.owned o.handle⟩ l' ∧ Moves evict op .unit l l' := by
  obtain ⟨a, e, b, rfl, heo⟩ := hs.split ho
  rw [← heo] at hop ⊢
  cases he : hasLock e with
  | true =>
    obtain rfl := hs.led.eq_nil he
    obtain ⟨m, hm, hr⟩ := dropGuard_holder hs.rep he
    exact ⟨m, handOver b, hm, hs.release hr, .release hop⟩
  | false =>
    obtain ⟨m, hm, hr⟩ := dropGuard_waiter hs.rep he
    exact ⟨m, a ++ b, hm, hs.leave he hr, .leave hop he⟩

/-- Every call is defined, and moves the entries. -/
theorem Holds.call (evict : Bool) (hs : Holds s l) (op : Op P) : ∃ r s' l',
    call evict s op = some (r, s') ∧ Holds s' l' ∧ Moves evict op r l l' := by
  cases op with
  | lock p =>
    cases l with
    | nil =>
      obtain ⟨h, m, hm, hr⟩ := lock_free evict p hs.rep
      exact ⟨.acquired h, _, _, by simp [Mutex.call, hm], hs.acquire hr rfl, .lock_free⟩
    | cons e t =>
      obtain ⟨h, m, t', hm, hr, hh, hp⟩ := lock_wait evict p hs.rep hs.led.1
      have hmv : Moves evict (.lock p) (.pending h) _ _ := .lock_wait hh hp
      have hperm : (handles (outranked evict p e :: t')).Perm (h :: handles (e :: t)) := by
        rw [handles_cons, outranked_handle]
        have hcons := (hp.perm.map Entry.handle).cons e.handle
        exact hcons.trans (List.Perm.swap h e.handle (handles t))
      exact ⟨.pending h, _, _, by simp [Mutex.call, hm],
        hs.wait hr (hmv.led hs.led) hperm (by simp), hmv⟩
  | tryLock p =>
    cases l with
    | nil =>
      obtain ⟨h, m, hm, hr⟩ := tryLock_free p hs.rep
      exact ⟨.acquired h, _, _, by simp [Mutex.call, hm], hs.acquire hr rfl, .tryLock_free⟩
    | cons e t =>
      exact ⟨.error ⟨⟩, s, _, by simp [Mutex.call, tryLock_held p hs.rep], hs, .tryLock_held⟩
  | poll h =>
    rcases ho : lookup s.owned h with _ | ⟨h', _ | _⟩
    · exact ⟨.refused, s, l, by simp [Mutex.call, ho], hs, .refused⟩
    · obtain ⟨hm, rfl⟩ := mem_of_lookup ho
      obtain ⟨a, e, b, rfl, heo⟩ := hs.split hm
      have hg := LawfulQueue.getByHandle_spec hs.rep (e := e) (by simp)
      rw [← heo] at ho ⊢
      cases he : hasLock e with
      | true =>
        obtain rfl := hs.led.eq_nil he
        have hl : e.data.waiter.hasLock = true := he
        exact ⟨.acquired e.handle, _, _, by simp [Mutex.call, ho, hg, hl], hs.resolve, .poll_ready⟩
      | false =>
        have hl : e.data.waiter.hasLock = false := he
        exact ⟨.pending e.handle, s, _, by simp [Mutex.call, ho, hg, hl], hs,
          .poll_pending (by simp) he⟩
    · exact ⟨.refused, s, l, by simp [Mutex.call, ho], hs, .refused⟩
  | cancel h =>
    rcases ho : lookup s.owned h with _ | ⟨h', _ | _⟩
    · exact ⟨.refused, s, l, by simp [Mutex.call, ho], hs, .refused⟩
    · obtain ⟨hm, rfl⟩ := mem_of_lookup ho
      obtain ⟨m, l', hd, hs', hmv⟩ := hs.drop evict (.cancel _) hm rfl
      exact ⟨.unit, _, l', by simp [Mutex.call, ho, hd], hs', hmv⟩
    · exact ⟨.refused, s, l, by simp [Mutex.call, ho], hs, .refused⟩
  | drop h =>
    rcases ho : lookup s.owned h with _ | ⟨h', _ | _⟩
    · exact ⟨.refused, s, l, by simp [Mutex.call, ho], hs, .refused⟩
    · exact ⟨.refused, s, l, by simp [Mutex.call, ho], hs, .refused⟩
    · obtain ⟨hm, rfl⟩ := mem_of_lookup ho
      obtain ⟨m, l', hd, hs', hmv⟩ := hs.drop evict (.drop _) hm rfl
      exact ⟨.unit, _, l', by simp [Mutex.call, ho, hd], hs', hmv⟩
  | evicted h =>
    cases evict with
    | false => exact ⟨.refused, s, l, rfl, hs, .refused⟩
    | true =>
      rcases ho : lookup s.owned h with _ | ⟨h', _ | _⟩
      · exact ⟨.refused, s, l, by simp [Mutex.call, ho], hs, .refused⟩
      · exact ⟨.refused, s, l, by simp [Mutex.call, ho], hs, .refused⟩
      · obtain ⟨hm, rfl⟩ := mem_of_lookup ho
        obtain ⟨a, e, b, rfl, heo⟩ := hs.split hm
        have hg := LawfulQueue.getByHandle_spec hs.rep (e := e) (by simp)
        rw [← heo] at ho ⊢
        exact ⟨_, s, _, by simp [Mutex.call, ho, hg], hs, .evicted (by simp)⟩

end Calls

section Runs

variable {Q : Type} [Priority P] [PriorityQueue Q (MutexWaiter P)]
  [LawfulQueue Q (MutexWaiter P)]

theorem run_holds (evict : Bool) (ops : List (Op P)) : ∃ s l,
    run (after (call evict)) (System.start (new : Mutex Q)) ops = some s ∧ Holds s l := by
  have hstep : ∀ (s : System Q) (op : Op P), (∃ l, Holds s l) →
      ∃ s', after (call evict) s op = some s' ∧ ∃ l, Holds s' l := by
    rintro s op ⟨l, hs⟩
    obtain ⟨r, s', l', hc, hs', -⟩ := hs.call evict op
    exact ⟨s', after_eq hc, l', hs'⟩
  obtain ⟨s, hr, l, hs⟩ := run_keeps hstep ⟨[], Holds.start⟩ ops
  exact ⟨s, l, hr, hs⟩

end Runs

/-- After every run over a builtin queue the entry with the lock is the head, the only
one, there whenever somebody is queued, and every guard is the one of that entry. -/
theorem exclusive (k : QueueKind) {P : Type} [Priority P] (evict : Bool) (ops : List (Op P)) :
    ∃ (s : System (k.Queue (MutexWaiter P))) (l : List (Entry (MutexWaiter P))),
      run (after (call evict)) (System.start new) ops = some s ∧
      entries s.mutex.queue = some l ∧ (handles l).Perm (handles s.owned) ∧
      l.filter hasLock = l.head?.toList ∧
      ∀ o ∈ s.owned, o.data = .guard → ∃ e ∈ l, e.handle = o.handle ∧ hasLock e = true := by
  obtain ⟨s, l, hr, hs⟩ := run_holds (Q := k.Queue (MutexWaiter P)) evict ops
  refine ⟨s, l, hr, LawfulQueue.entries_eq hs.rep, hs.perm, hs.led.filter, ?_⟩
  intro o ho hg
  have hh := hs.guard o ho hg
  cases l with
  | nil => simp at hh
  | cons e t => exact ⟨e, by simp, by simpa using hh, hs.led.1⟩

end PriorityLock.Mutex
