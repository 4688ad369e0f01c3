import PriorityLock.Lock.Entries
import PriorityLock.Lock.Numbered
import PriorityLock.Mutex.Order

/-! # The mutex is a lock by priority

The entries of a mutex, read as requests, move as those of the lock do. So a
mutex over any builtin queue gives the answers of the lock, whatever handles
its queue picks for its clients.
-/

namespace PriorityLock.Mutex

open Placement Transition PriorityQueue
open FairLock (Act Answer Interface Numbered Reading Implements Request)

section Interface

variable {Q P : Type} [Priority P] [PriorityQueue Q (MutexWaiter P)]

/-- What a result says to its caller, besides the handle. -/
def Result.answer : Result → Answer
  | .acquired _ => .acquired
  | .pending _ => .pending
  | .evicted ready => .evicted ready
  | .unit => .unit
  | .error _ | .refused => .refused

def Result.handle : Result → Option Handle
  | .acquired h | .pending h => some h
  | _ => none

def Op.act (h : Handle) : Act → Op P
  | .poll => .poll h
  | .cancel => .cancel h
  | .drop => .drop h
  | .evicted => .evicted h

variable (Q P) in
def interface (evict : Bool) : Interface (System Q) P where
  lock s p := (call evict s (.lock p)).bind fun (r, s') => r.handle.map fun h => ((h, r.answer), s')
  act s k h := (call evict s (Op.act h k)).map fun (r, s') => (r.answer, s')

variable {evict : Bool} {s s' : System Q} {r : Result} {h : Handle}

theorem interface_lock {p : P} (hc : call evict s (.lock p) = some (r, s'))
    (hr : r.handle = some h) : (interface Q P evict).lock s p = some ((h, r.answer), s') := by
  simp [interface, hc, hr]

theorem interface_act {k : Act} (hc : call evict s (Op.act h k : Op P) = some (r, s')) :
    (interface Q P evict).act s k h = some (r.answer, s') := by
  simp [interface, hc]

end Interface

section Requests

variable {P : Type} [Priority P] {evict : Bool} {op : Op P} {p : P} {h : Handle}
  {owned : List (Entry Owned)} {e : Entry (MutexWaiter P)}
  {l l' t t' : List (Entry (MutexWaiter P))}

def reading (P : Type) : Reading (MutexWaiter P) Owned P :=
  ⟨MutexWaiter.priority, fun w => w.waiter.wantsEvict, (· = .guard)⟩

abbrev requests (owned : List (Entry Owned)) (l : List (Entry (MutexWaiter P))) :
    List (Request Handle P) :=
  (reading P).requests owned l

omit [Priority P] in
theorem requests_handOver : requests owned (handOver t) = requests owned t := by
  cases t <;> rfl

theorem request_outranked : (reading P).request owned (outranked evict p e) =
    FairLock.outranked evict p ((reading P).request owned e) := by
  unfold outranked
  cases evict
  · simp [FairLock.outranked]
  · by_cases hp : Priority.compare p e.data.priority = .gt
    · simp [FairLock.outranked, reading, Reading.request, MutexWaiter.evict, Waiter.evict,
        Waiter.addFlag, hp]
    · simp [FairLock.outranked, reading, Reading.request, hp]

theorem Moves.requests_unit {r : Result} (hm : Moves evict op r l l') (hr : r = .unit)
    (hop : op.releases = some h) (hn : (handles l).Nodup) :
    requests (without owned h) l' = FairLock.leave h (requests owned l) := by
  rw [requests, requests, ← Reading.requests_without]
  cases hm with
  | @release _ e t hop' =>
    obtain rfl : h = e.handle := Option.some.inj (hop.symm.trans hop')
    have hw : without (e :: t) e.handle = t := without_middle (a := []) hn
    rw [hw]
    exact requests_handOver
  | @leave _ e a b hop' he =>
    obtain rfl : h = e.handle := Option.some.inj (hop.symm.trans hop')
    rw [without_middle hn]
  | _ => cases hr

end Requests

section Calls

variable {Q P : Type} [Priority P] [LawfulPriority P] [Decisive P]
  [PriorityQueue Q (MutexWaiter P)] [LawfulQueue Q (MutexWaiter P)] {evict : Bool} {s : System Q}
  {o : Entry Owned} {l : List (Entry (MutexWaiter P))}

/-- The entries of a mutex, read as requests. -/
def Reads (s : System Q) (q : List (Request Handle P)) : Prop :=
  ∃ l, Holds s l ∧ Descending Priority.compare l.tail ∧ q = requests s.owned l

omit [LawfulPriority P] [Decisive P] in
theorem Reads.start : Reads (System.start (new : Mutex Q)) ([] : List (Request Handle P)) :=
  ⟨[], Holds.start, .nil, rfl⟩

theorem Holds.reads_lock (hs : Holds s l) (hd : Descending Priority.compare l.tail) (p : P) :
    ∃ h s', (interface Q P evict).lock s p =
        some ((h, (FairLock.lock evict p h (requests s.owned l)).1), s') ∧
      h ∉ handles l ∧ Reads s' (FairLock.lock evict p h (requests s.owned l)).2 := by
  cases l with
  | nil =>
    obtain ⟨h, m, hm, hr⟩ := lock_free evict p hs.rep
    have hn : s.owned = [] := List.map_eq_nil_iff.mp hs.perm.nil_eq.symm
    have hc : Mutex.call evict s (.lock p) =
        some (.acquired h, ⟨m, s.owned ++ [⟨h, .guard⟩]⟩) := by simp [Mutex.call, hm]
    refine ⟨h, _, interface_lock hc rfl, by simp, _, hs.acquire hr rfl, .nil, ?_⟩
    simp [hn, lookup, reading, MutexWaiter.new, Waiter.new, Reading.requests, Reading.request,
      FairLock.lock]
  | cons e t =>
    obtain ⟨h, m, t', hm, hr, hh, hp⟩ := lock_wait evict p hs.rep hs.led.1
    have hc : Mutex.call evict s (.lock p) =
        some (.pending h, ⟨m, s.owned ++ [⟨h, .future⟩]⟩) := by simp [Mutex.call, hm]
    have hmv : Moves evict (.lock p) (.pending h) (e :: t) (outranked evict p e :: t') :=
      .lock_wait hh hp
    have hperm : (handles (outranked evict p e :: t')).Perm (h :: handles (e :: t)) := by
      rw [handles_cons, outranked_handle]
      exact ((hp.perm.map Entry.handle).cons e.handle).trans (.swap h e.handle (handles t))
    have hd' := (hmv.ordered trivial_rule hs.led hs.mem_owned (LawfulQueue.nodup hs.rep)
      ⟨hd, List.pairwise_of_forall fun _ _ _ => trivial⟩).descending
    refine ⟨h, _, interface_lock hc rfl, hh, _,
      hs.wait hr (hmv.led hs.led) hperm (by simp), hd', ?_⟩
    have hh' : h ∉ handles s.owned := fun ho => hh (hs.perm.mem_iff.mpr ho)
    have hplace := (reading P).requests_placed (o := Owned.future) hp
      (fun f hf => compareNew_waiting (hs.led.2 f hf)) hd hh'
      fun ht => hh (List.mem_cons_of_mem e.handle ht)
    have hne : (outranked evict p e).handle ≠ h := by
      rintro rfl
      simp at hh
    have he : (reading P).request (s.owned ++ [⟨h, .future⟩]) (outranked evict p e) =
        FairLock.outranked evict p ((reading P).request s.owned e) :=
      (Reading.request_concat hne).trans request_outranked
    exact (congrArg₂ List.cons he hplace).symm

omit [Decisive P] in
/-- The order behind the holder stays one of the priorities. -/
theorem Holds.descending {op : Op P} {r : Result} {l' : List (Entry (MutexWaiter P))}
    (hs : Holds s l) (hd : Descending Priority.compare l.tail) (hm : Moves evict op r l l') :
    Descending Priority.compare l'.tail :=
  (hm.ordered trivial_rule hs.led hs.mem_owned (LawfulQueue.nodup hs.rep)
    ⟨hd, List.pairwise_of_forall fun _ _ _ => trivial⟩).descending

omit [Decisive P] in
theorem Holds.reads_drop (evict : Bool) (op : Op P) (hs : Holds s l)
    (hd : Descending Priority.compare l.tail) (ho : o ∈ s.owned)
    (hop : op.releases = some o.handle) : ∃ m,
    dropGuard s.mutex o.handle = some m ∧ Reads ⟨m, without s.owned o.handle⟩
      (FairLock.leave o.handle (requests s.owned l)) := by
  obtain ⟨m, l', hm, hs', hmv⟩ := hs.drop evict op ho hop
  exact ⟨m, hm, l', hs', hs.descending hd hmv,
    (hmv.requests_unit rfl hop (LawfulQueue.nodup hs.rep)).symm⟩

omit [LawfulPriority P] [Decisive P] in
theorem Holds.reads_poll {e : Entry (MutexWaiter P)} (hs : Holds s l)
    (hd : Descending Priority.compare l.tail) (he : e ∈ l)
    (hl : lookup s.owned e.handle = some ⟨e.handle, .future⟩) :
    (interface Q P evict).Acts evict Reads s (requests s.owned l) .poll e.handle := by
  have hn := LawfulQueue.nodup hs.rep
  have hg := LawfulQueue.getByHandle_spec hs.rep he
  have hr : ((reading P).request s.owned e).guard = false := by
    simp [Reading.request, hl, reading]
  obtain ⟨a, b, rfl⟩ := List.append_of_mem he
  cases hlock : hasLock e with
  | true =>
    obtain rfl := hs.led.eq_nil hlock
    have hw : e.data.waiter.hasLock = true := hlock
    have hc : Mutex.call evict s (Op.act e.handle .poll : Op P) =
        some (.acquired e.handle, { s with owned := relabel s.owned e.handle .guard }) := by
      simp [Mutex.call, Op.act, hl, hg, hw]
    refine Interface.acts (interface_act hc) (Reading.poll_first hr) ⟨_, hs.resolve, hd, ?_⟩
    exact (Reading.requests_relabel (mem_handles (mem_of_lookup hl).1) rfl).symm
  | false =>
    obtain ⟨f, c, rfl⟩ := hs.led.ne_nil hlock
    have hw : e.data.waiter.hasLock = false := hlock
    have hc : Mutex.call evict s (Op.act e.handle .poll : Op P) =
        some (.pending e.handle, s) := by simp [Mutex.call, Op.act, hl, hg, hw]
    exact Interface.acts (interface_act hc) (Reading.poll_behind hn (by simp) hr) ⟨_, hs, hd, rfl⟩

omit [Decisive P] in
theorem Holds.reads_act (hs : Holds s l) (hd : Descending Priority.compare l.tail) (k : Act)
    {h : Handle} (hh : h ∈ handles l) :
    (interface Q P evict).Acts evict Reads s (requests s.owned l) k h := by
  obtain ⟨e, he, rfl⟩ := List.mem_map.mp hh
  obtain ⟨⟨x, d⟩, ho, hoe⟩ := List.mem_map.mp (hs.perm.mem_iff.mp hh)
  obtain rfl : x = e.handle := hoe
  have hn := LawfulQueue.nodup hs.rep
  have hl : lookup s.owned e.handle = some ⟨e.handle, d⟩ :=
    lookup_of_mem (hs.perm.nodup_iff.mp hn) ho
  have hf := (reading P).find_requests s.owned hn he
  have hg := LawfulQueue.getByHandle_spec hs.rep he
  have hr : ((reading P).request s.owned e).guard = (d = .guard : Bool) := by
    simp [Reading.request, hl, reading]
  have hsame : Reads s (requests s.owned l) := ⟨l, hs, hd, rfl⟩
  cases d with
  | future =>
    cases k with
    | poll => exact hs.reads_poll hd he hl
    | cancel =>
      obtain ⟨m, hm, hq⟩ := hs.reads_drop evict (.cancel e.handle) hd ho rfl
      have hc : Mutex.call evict s (Op.act e.handle .cancel : Op P) =
          some (.unit, ⟨m, without s.owned e.handle⟩) := by simp [Mutex.call, Op.act, hl, hm]
      exact Interface.acts (interface_act hc) (by simp [FairLock.act, hf, hr, Result.answer]) hq
    | drop =>
      have hc : Mutex.call evict s (Op.act e.handle .drop : Op P) = some (.refused, s) := by
        simp [Mutex.call, Op.act, hl]
      exact Interface.acts (interface_act hc) (by simp [FairLock.act, hf, hr, Result.answer]) hsame
    | evicted =>
      have hc : Mutex.call evict s (Op.act e.handle .evicted : Op P) = some (.refused, s) := by
        cases evict <;> simp [Mutex.call, Op.act, hl]
      exact Interface.acts (interface_act hc) (by simp [FairLock.act, hf, hr, Result.answer]) hsame
  | guard =>
    cases k with
    | drop =>
      obtain ⟨m, hm, hq⟩ := hs.reads_drop evict (.drop e.handle) hd ho rfl
      have hc : Mutex.call evict s (Op.act e.handle .drop : Op P) =
          some (.unit, ⟨m, without s.owned e.handle⟩) := by simp [Mutex.call, Op.act, hl, hm]
      exact Interface.acts (interface_act hc) (by simp [FairLock.act, hf, hr, Result.answer]) hq
    | poll =>
      have hc : Mutex.call evict s (Op.act e.handle .poll : Op P) = some (.refused, s) := by
        simp [Mutex.call, Op.act, hl]
      exact Interface.acts (interface_act hc) (by simp [FairLock.act, hf, hr, Result.answer]) hsame
    | cancel =>
      have hc : Mutex.call evict s (Op.act e.handle .cancel : Op P) = some (.refused, s) := by
        simp [Mutex.call, Op.act, hl]
      exact Interface.acts (interface_act hc) (by simp [FairLock.act, hf, hr, Result.answer]) hsame
    | evicted =>
      cases evict with
      | false =>
        have hc : Mutex.call false s (Op.act e.handle .evicted : Op P) = some (.refused, s) := by
          simp [Mutex.call, Op.act]
        exact Interface.acts (interface_act hc)
          (by simp [FairLock.act, hf, hr, Result.answer]) hsame
      | true =>
        have hc : Mutex.call true s (Op.act e.handle .evicted : Op P) =
            some (.evicted e.data.waiter.wantsEvict, s) := by simp [Mutex.call, Op.act, hl, hg]
        exact Interface.acts (interface_act hc)
          (by simp [FairLock.act, hf, hr, Result.answer]; rfl) hsame

/-- A mutex does on its handles what the lock does. -/
theorem implements (evict : Bool) : Implements (interface Q P evict) evict Reads where
  nodup := by
    rintro s q ⟨l, hs, -, rfl⟩
    rw [Reading.clients_requests]
    exact LawfulQueue.nodup hs.rep
  lock := by
    rintro s q p ⟨l, hs, hd, rfl⟩
    rw [Reading.clients_requests]
    exact hs.reads_lock hd p
  act := by
    rintro s q k h ⟨l, hs, hd, rfl⟩ hh
    rw [Reading.clients_requests] at hh
    exact hs.reads_act hd k hh

end Calls

/-- Over any builtin queue a mutex gives the answers of the lock to every sequence of calls. -/
theorem mutex_fair_lock (k : QueueKind) (evict : Bool) {P : Type} [Priority P] [LawfulPriority P]
    [Decisive P] (ops : List (FairLock.Op P)) :
    trace (Numbered.call (interface (k.Queue (MutexWaiter P)) P evict))
        (Numbered.start (System.start new)) ops =
      trace (fun t o => some (FairLock.call evict t o)) FairLock.State.start ops :=
  (implements evict).trace_eq Reads.start ops

theorem mutex_fair_lock_outbid :
    trace (Numbered.call (interface (QueueKind.dualArena.Queue (MutexWaiter (FIFO ℕ))) (FIFO ℕ)
        true)) (Numbered.start (System.start new))
        [.lock ⟨1⟩, .lock ⟨0⟩, .lock ⟨2⟩, .act .evicted 0, .act .drop 0, .act .poll 1,
          .act .poll 2, .act .cancel 1, .act .poll 1] =
      [.acquired, .pending, .pending, .evicted true, .unit, .pending, .acquired, .unit,
        .refused].map some :=
  (mutex_fair_lock .dualArena true _).trans (by decide)

end PriorityLock.Mutex
