import PriorityLock.Mutex.Eviction
import PriorityLock.Waiter.Tasks

/-! # Tasks around a mutex

The owners of a mutex poll the words of their entries while calls of others
change the queue under its lock. Every interleaving is a run of atomic calls,
in which a future that is ready is polled when its guard is returned.
-/

namespace PriorityLock.Mutex

open Placement Transition PriorityQueue

variable {P Q : Type} [Priority P] [PriorityQueue Q (MutexWaiter P)]

def flags (s : System Q) (h : Handle) : Option Waiter :=
  ((entries s.mutex.queue).bind fun l => lookup l h).map fun e => e.data.waiter

/-- The flags of `WaiterFlagFut` in `lock` and in `evicted`. -/
def target (evict : Bool) (s : System Q) (h : Handle) : Option Waiter :=
  (lookup s.owned h).bind fun o => match o.data with
    | .future => some ⟨true, false⟩
    | .guard => if evict then some ⟨false, true⟩ else none

def Op.locks : Op P → Bool
  | .poll _ | .evicted _ => false
  | _ => true

def monitor (evict : Bool) : Monitor (System Q) where
  flags := flags
  target := target evict
  call s s' := ∃ op r, op.locks = true ∧ call evict s op = some (r, s')
  resolve h _ s s' := lookup s.owned h = some ⟨h, .future⟩ ∧
    s' = { s with owned := relabel s.owned h .guard }

section Moves

variable {evict : Bool} {op : Op P} {r : Result} {p : P} {l l' : List (Entry (MutexWaiter P))}
  {e f : Entry (MutexWaiter P)}

omit [Priority P] in
theorem handOver_entry {t : List (Entry (MutexWaiter P))} (hf : f ∈ handOver t) :
    ∃ e ∈ t, e.handle = f.handle ∧ e.data.waiter.Le f.data.waiter := by
  cases t with
  | nil => cases hf
  | cons e t =>
    rcases List.mem_cons.mp hf with rfl | hf
    · exact ⟨e, by simp, rfl, fun g hg => Waiter.has_addFlag.mpr (Or.inr hg)⟩
    · exact ⟨f, by simp [hf], rfl, fun g hg => hg⟩

theorem outranked_le : e.data.waiter.Le (outranked evict p e).data.waiter := by
  intro g hg
  unfold outranked
  split
  · exact Waiter.has_addFlag.mpr (Or.inr hg)
  · exact hg

theorem Moves.grows (h : Moves evict op r l l') : Grows MutexWaiter.waiter l l' := by
  intro f hf
  have hold : f ∈ l → ∃ e ∈ l, e.handle = f.handle ∧ e.data.waiter.Le f.data.waiter :=
    fun hf => ⟨f, hf, rfl, fun g hg => hg⟩
  cases h with
  | lock_free | tryLock_free =>
    obtain rfl := List.mem_singleton.mp hf
    exact Or.inl ⟨by simp, rfl⟩
  | @lock_wait p x e t t' hx hp =>
    rcases List.mem_cons.mp hf with rfl | hf
    · exact Or.inr ⟨e, by simp, outranked_handle.symm, outranked_le⟩
    · rcases List.mem_cons.mp (hp.perm.mem_iff.mp hf) with rfl | hf
      · exact Or.inl ⟨hx, rfl⟩
      · exact Or.inr (hold (List.mem_cons_of_mem e hf))
  | @release _ e t hop =>
    obtain ⟨g, hg, hgf⟩ := handOver_entry hf
    exact Or.inr ⟨g, List.mem_cons_of_mem e hg, hgf⟩
  | @leave _ e a b hop he =>
    have hsub := (List.sublist_cons_self e b).append_left a
    exact Or.inr (hold (hsub.subset hf))
  | _ => exact Or.inr (hold hf)

end Moves

section Calls

variable {evict : Bool} {op : Op P} {r : Result} {s s' : System Q} {h : Handle}
  {l l' : List (Entry (MutexWaiter P))} {e f : Entry (MutexWaiter P)} {w w' : Waiter}

/-- A call under the lock brings or takes at most one of the things that callers own. -/
theorem changed_of_locks (hc : call evict s op = some (r, s')) (hop : op.locks = true) :
    Changed s.owned s'.owned := by
  cases op with
  | lock p =>
    obtain ⟨⟨⟨x, acquired⟩, m⟩, -, heq⟩ := Option.map_eq_some_iff.mp hc
    cases acquired <;> obtain ⟨rfl, rfl⟩ := Prod.mk.inj heq <;> exact .arrive x _
  | tryLock p =>
    obtain ⟨⟨x, m⟩, -, heq⟩ := Option.map_eq_some_iff.mp hc
    cases x <;> obtain ⟨rfl, rfl⟩ := Prod.mk.inj heq
    · exact .same
    · exact .arrive _ _
  | poll x | evicted x => cases hop
  | cancel x =>
    rcases ho : lookup s.owned x with _ | ⟨y, _ | _⟩
    case some.future =>
      simp only [call, ho] at hc
      obtain ⟨m, -, heq⟩ := Option.map_eq_some_iff.mp hc
      obtain ⟨rfl, rfl⟩ := Prod.mk.inj heq
      exact .depart x
    all_goals
      obtain ⟨rfl, rfl⟩ : .refused = r ∧ s = s' := by simpa [call, ho] using hc
      exact .same
  | drop x =>
    rcases ho : lookup s.owned x with _ | ⟨y, _ | _⟩
    case some.guard =>
      simp only [call, ho] at hc
      obtain ⟨m, -, heq⟩ := Option.map_eq_some_iff.mp hc
      obtain ⟨rfl, rfl⟩ := Prod.mk.inj heq
      exact .depart x
    all_goals
      obtain ⟨rfl, rfl⟩ : .refused = r ∧ s = s' := by simpa [call, ho] using hc
      exact .same

variable [LawfulQueue Q (MutexWaiter P)]

omit [Priority P] [LawfulQueue Q (MutexWaiter P)] in
theorem flags_of_entries (hl : entries s.mutex.queue = some l) :
    flags s = flagsIn MutexWaiter.waiter l := by
  funext h
  rw [flags, hl, Option.bind_some, flagsIn]

omit [Priority P] [LawfulQueue Q (MutexWaiter P)] in
theorem flags_ne_none (hl : entries s.mutex.queue = some l) :
    flags s h ≠ none ↔ h ∈ handles l := by
  rw [flags_of_entries hl]
  exact flagsIn_ne_none

theorem Holds.flags_eq (hs : Holds s l) : flags s = flagsIn MutexWaiter.waiter l :=
  flags_of_entries (LawfulQueue.entries_eq hs.rep)

theorem Holds.flags_of_mem (hs : Holds s l) (he : e ∈ l) :
    flags s e.handle = some e.data.waiter := by
  rw [hs.flags_eq]
  exact flagsIn_of_mem (LawfulQueue.nodup hs.rep) he

theorem Holds.entry_of_flags (hs : Holds s l) (hw : flags s h = some w) :
    ∃ e ∈ l, e.handle = h ∧ e.data.waiter = w := by
  rw [hs.flags_eq] at hw
  exact entry_of_flagsIn hw

theorem Holds.flags_ne_none (hs : Holds s l) : flags s h ≠ none ↔ h ∈ handles s.owned := by
  rw [Mutex.flags_ne_none (LawfulQueue.entries_eq hs.rep)]
  exact hs.perm.mem_iff

theorem Holds.poll_locked (hs : Holds s l) (ho : lookup s.owned h = some ⟨h, .future⟩)
    (hw : flags s h = some w) (hl : w.hasLock = true) :
    Mutex.call evict s (.poll h) =
      some (.acquired h, { s with owned := relabel s.owned h .guard }) := by
  obtain ⟨e, he, rfl, rfl⟩ := hs.entry_of_flags hw
  simp [Mutex.call, ho, LawfulQueue.getByHandle_spec hs.rep he, hl]

end Calls

section Tasks

variable [LawfulQueue Q (MutexWaiter P)] {evict : Bool} {s s' : System Q} {op : Op P} {r : Result}
  {n : Tasks (System Q)} {h : Handle} {fl w : Waiter} {T : Waiter}

/-- What some run of calls leaves. -/
def Ran (evict : Bool) (s : System Q) : Prop :=
  ∃ ops : List (Op P), run (after (call evict)) (System.start new) ops = some s

theorem Ran.holds (hs : Ran evict s) : ∃ l, Holds s l := by
  obtain ⟨ops, hr⟩ := hs
  obtain ⟨t, l, ht, hl⟩ := run_holds (Q := Q) evict ops
  obtain rfl := Option.some.inj (hr.symm.trans ht)
  exact ⟨l, hl⟩

omit [LawfulQueue Q (MutexWaiter P)] in
theorem Ran.call (hs : Ran evict s) (hc : Mutex.call evict s op = some (r, s')) :
    Ran evict s' := by
  obtain ⟨ops, hr⟩ := hs
  exact ⟨ops ++ [op], (run_concat hr).trans (after_eq hc)⟩

theorem lawful (evict : Bool) : Tasks.Lawful (monitor (Q := Q) evict) (Ran evict) where
  call := by
    rintro s s' hJ ⟨op, r, hop, hc⟩
    obtain ⟨l, hs⟩ := hJ.holds
    obtain ⟨r', t, l', hc', hs', hm⟩ := hs.call evict op
    obtain ⟨rfl, rfl⟩ := Prod.mk.inj (Option.some.inj (hc.symm.trans hc'))
    refine ⟨hJ.call hc, fun h w hw hw' => ?_, fun h hw hw' => ?_⟩
    · exact hm.grows.new ((congrFun hs.flags_eq h).symm.trans hw)
        ((congrFun hs'.flags_eq h).symm.trans hw')
    · have hl := (changed_of_locks hc hop).lookup_eq (hs.flags_ne_none.mp hw)
        (hs'.flags_ne_none.mp hw')
      simp [monitor, target, hl]
  resolve := by
    rintro s s' h fl w T hJ hw hT hle hmeets ⟨ho, rfl⟩
    obtain ⟨l, hs⟩ := hJ.holds
    have hl : w.hasLock = true := by
      obtain rfl : (⟨true, false⟩ : Waiter) = T := by simpa [monitor, target, ho] using hT
      exact hle .hasLock (by simpa [Waiter.meets, Waiter.has] using hmeets)
    refine ⟨hJ.call (hs.poll_locked ho hw hl), rfl, fun g hg => ?_⟩
    change target evict _ g = target evict s g
    rw [target, lookup_relabel hg]
    rfl

theorem reachable_inv (hn : Tasks.Reachable (monitor evict) (System.start (new : Mutex Q)) n) :
    Tasks.Inv (monitor evict) (Ran evict) n := by
  refine hn.inv (lawful evict) ⟨[], rfl⟩ fun h => ?_
  have hs := Holds.start (Q := Q) (P := P)
  simp [monitor, hs.flags_eq, flagsIn, lookup]

theorem ready_target (hi : Tasks.Inv (monitor evict) (Ran evict) n)
    (ho : (n.waiter h).owner = .idle (.ready fl)) (hm : h ∈ handles n.sys.owned) :
    ∃ w T, flags n.sys h = some w ∧ target evict n.sys h = some T ∧ w.meets T = true := by
  obtain ⟨l, hs⟩ := hi.sys.holds
  obtain ⟨w, hw⟩ := Option.ne_none_iff_exists'.mp (hs.flags_ne_none.mpr hm)
  obtain ⟨T, hT, hle, hmeets⟩ := (hi.tracks h w hw).ready ho
  exact ⟨w, T, hw, hT, hle.meets hmeets⟩

/-- A call under the lock is a step of the interleaving as soon as the notifications of the last
one are over and the futures on what it drops are gone. -/
theorem call_steps (hi : Tasks.Inv (monitor evict) (Ran evict) n) (hn : n.notes = [])
    (hop : op.locks = true) (hc : call evict n.sys op = some (r, s'))
    (hgone : ∀ h ∈ handles n.sys.owned, h ∉ handles s'.owned → (n.waiter h).owner = .absent) :
    ∃ n', Tasks.Step (monitor evict) n n' ∧ n'.sys = s' := by
  obtain ⟨l, hs⟩ := hi.sys.holds
  obtain ⟨r', t, l', hc', hs', hm⟩ := hs.call evict op
  obtain ⟨rfl, rfl⟩ := Prod.mk.inj (Option.some.inj (hc.symm.trans hc'))
  obtain ⟨notes, hnotes⟩ : ∃ notes, Tasks.Notes (monitor evict) n.sys s' notes :=
    Tasks.exists_notes (handles n.sys.owned) (fun h => hs.flags_ne_none.mp) fun h w w' hw hw' =>
      hm.grows.le (LawfulQueue.nodup hs.rep) ((congrFun hs.flags_eq h).symm.trans hw)
        ((congrFun hs'.flags_eq h).symm.trans hw')
  refine ⟨_, .call notes hn ⟨op, r, hop, hc⟩ (fun h hw hw' => ?_) hnotes, rfl⟩
  exact hgone h (hs.flags_ne_none.mp hw) fun hm => hs'.flags_ne_none.mpr hm hw'

/-- The caller has the lock: it owns a guard, or its future is about to return one. -/
def HasLock (n : Tasks (System Q)) (h : Handle) : Prop :=
  lookup n.sys.owned h = some ⟨h, .guard⟩ ∨
    lookup n.sys.owned h = some ⟨h, .future⟩ ∧ ∃ fl, (n.waiter h).owner = .idle (.ready fl)

theorem hasLock_head (hi : Tasks.Inv (monitor evict) (Ran evict) n) (hh : HasLock n h)
    {l : List (Entry (MutexWaiter P))} (hs : Holds n.sys l) : (handles l).head? = some h := by
  rcases hh with ho | ⟨ho, fl, hr⟩
  · exact hs.guard _ (mem_of_lookup ho).1 rfl
  · obtain ⟨w, T, hw, hT, hm⟩ := ready_target hi hr (mem_handles (mem_of_lookup ho).1)
    obtain rfl : ⟨true, false⟩ = T := by simpa [target, ho] using hT
    obtain ⟨e, he, rfl, rfl⟩ := hs.entry_of_flags hw
    have hl : hasLock e = true := by simpa [Waiter.meets, hasLock] using hm
    cases l with
    | nil => simp at he
    | cons f t =>
      obtain rfl := hs.led.eq_head he hl
      rfl

end Tasks

section Interleaving

def ran (ops : List (Op ℕ)) : System (QueueKind.dualArena.Queue (MutexWaiter ℕ)) :=
  (run (after (call true)) (System.start new) ops).getD (System.start new)

theorem entries_start : entries (ran []).mutex.queue = some [] := rfl

theorem entries_lock (p : ℕ) (hp : p = 0 ∨ p = 1) :
    entries (ran [.lock p]).mutex.queue = some [⟨0, p, ⟨true, false⟩⟩] := by
  rcases hp with rfl | rfl <;> decide

theorem entries_outranked : entries (ran [.lock 0, .lock 1]).mutex.queue =
    some [⟨0, 0, ⟨true, true⟩⟩, ⟨48, 1, ⟨false, false⟩⟩] := by
  decide

theorem entries_waiting : entries (ran [.lock 1, .lock 0]).mutex.queue =
    some [⟨0, 1, ⟨true, false⟩⟩, ⟨48, 0, ⟨false, false⟩⟩] := by
  decide

theorem entries_handed_over : entries (ran [.lock 1, .lock 0, .drop 0]).mutex.queue =
    some [⟨48, 0, ⟨true, false⟩⟩] := by
  decide

/-- A holder has polled `evicted` when a request above it comes, and is woken. -/
theorem reachable_outranked : ∃ n, Tasks.Reachable (monitor true) (System.start new) n ∧
    n.sys = ran [.lock 0, .lock 1] ∧ n.notes = [] ∧
    (n.waiter 0).owner = .idle (.pending 0) := by
  have hc : (monitor true).call (ran []) (ran [.lock 0]) := ⟨.lock 0, .acquired 0, rfl, rfl⟩
  have hn : Tasks.Notes (monitor true) (ran []) (ran [.lock 0]) [] :=
    Tasks.notes_of_entries (flags_of_entries entries_start)
      (flags_of_entries (entries_lock 0 (by simp))) (by decide) (by decide)
  have hc' : (monitor true).call (ran [.lock 0]) (ran [.lock 0, .lock 1]) :=
    ⟨.lock 1, .pending 48, rfl, rfl⟩
  have hn' : Tasks.Notes (monitor true) (ran [.lock 0]) (ran [.lock 0, .lock 1])
      [(0, .wantsEvict)] :=
    Tasks.notes_of_entries (flags_of_entries (entries_lock 0 (by simp)))
      (flags_of_entries entries_outranked) (by decide) (by decide)
  have hf : (monitor true).flags (ran []) 0 = none ∧
      (monitor true).flags (ran [.lock 0]) 0 = some ⟨true, false⟩ := by decide
  have hgone : ∀ h, (monitor true).flags (ran [.lock 0]) h ≠ none →
      (monitor true).flags (ran [.lock 0, .lock 1]) h ≠ none := by
    intro h hw
    have hm := (flags_ne_none (entries_lock 0 (by simp))).mp hw
    exact (flags_ne_none entries_outranked).mpr (by simpa using Or.inl hm)
  obtain ⟨v, h₁, -, hv⟩ := Tasks.Reachable.call (n := Tasks.start (ran [])) .refl rfl hc
    (fun _ _ _ => rfl) hn
  have h₂ := h₁.polled (T := ⟨false, true⟩) (by simp [hf.2]) rfl (hv 0 _ hf.1 hf.2) rfl rfl
  obtain ⟨v', h₃, hv', -⟩ := h₂.call rfl hc' (fun h hw hw' => absurd hw' (hgone h hw)) hn'
  have hp : v' 0 = Tasks.polled true ⟨false, true⟩ := by
    rw [hv' 0 (by simp [hf.2])]
    simp
  refine ⟨_, h₃.notified rfl hp, rfl, rfl, ?_⟩
  simp [Tasks.notified, Tasks.polled]

/-- A request has been polled when the holder drops its guard, and is woken. -/
theorem reachable_handed_over : ∃ n, Tasks.Reachable (monitor true) (System.start new) n ∧
    n.sys = ran [.lock 1, .lock 0, .drop 0] ∧ n.notes = [] ∧
    (n.waiter 48).owner = .idle (.pending 0) := by
  have hc : (monitor true).call (ran []) (ran [.lock 1]) := ⟨.lock 1, .acquired 0, rfl, rfl⟩
  have hn : Tasks.Notes (monitor true) (ran []) (ran [.lock 1]) [] :=
    Tasks.notes_of_entries (flags_of_entries entries_start)
      (flags_of_entries (entries_lock 1 (by simp))) (by decide) (by decide)
  have hc' : (monitor true).call (ran [.lock 1]) (ran [.lock 1, .lock 0]) :=
    ⟨.lock 0, .pending 48, rfl, rfl⟩
  have hn' : Tasks.Notes (monitor true) (ran [.lock 1]) (ran [.lock 1, .lock 0]) [] :=
    Tasks.notes_of_entries (flags_of_entries (entries_lock 1 (by simp)))
      (flags_of_entries entries_waiting) (by decide) (by decide)
  have hc'' : (monitor true).call (ran [.lock 1, .lock 0]) (ran [.lock 1, .lock 0, .drop 0]) :=
    ⟨.drop 0, .unit, rfl, rfl⟩
  have hn'' : Tasks.Notes (monitor true) (ran [.lock 1, .lock 0])
      (ran [.lock 1, .lock 0, .drop 0]) [(48, .hasLock)] :=
    Tasks.notes_of_entries (flags_of_entries entries_waiting)
      (flags_of_entries entries_handed_over) (by decide) (by decide)
  have hf₀ : (monitor true).flags (ran []) 0 = none ∧
      (monitor true).flags (ran [.lock 1]) 0 = some ⟨true, false⟩ := by decide
  have hf : (monitor true).flags (ran [.lock 1]) 48 = none ∧
      (monitor true).flags (ran [.lock 1, .lock 0]) 48 = some ⟨false, false⟩ := by decide
  have hgone : ∀ h, (monitor true).flags (ran [.lock 1]) h ≠ none →
      (monitor true).flags (ran [.lock 1, .lock 0]) h ≠ none := by
    intro h hw
    have hm := (flags_ne_none (entries_lock 1 (by simp))).mp hw
    exact (flags_ne_none entries_waiting).mpr (by simpa using Or.inl hm)
  have hdrop : ∀ h, (monitor true).flags (ran [.lock 1, .lock 0]) h ≠ none →
      (monitor true).flags (ran [.lock 1, .lock 0, .drop 0]) h = none → h = 0 := by
    intro h hw hw'
    have hm := (flags_ne_none entries_waiting).mp hw
    rcases List.mem_cons.mp hm with rfl | hm
    · rfl
    · exact absurd hw' ((flags_ne_none entries_handed_over).mpr hm)
  obtain ⟨v, h₁, -, hv⟩ := Tasks.Reachable.call (n := Tasks.start (ran [])) .refl rfl hc
    (fun _ _ _ => rfl) hn
  obtain ⟨v', h₂, hv', hnew⟩ := h₁.call rfl hc' (fun h hw hw' => absurd hw' (hgone h hw)) hn'
  have h₃ := h₂.polled (T := ⟨true, false⟩) (by simp [hf.2]) rfl (hnew 48 _ hf.1 hf.2) rfl rfl
  have h₀ : v' 0 = .init true := (hv' 0 (by simp [hf₀.2])).trans (hv 0 _ hf₀.1 hf₀.2)
  obtain ⟨v'', h₄, hv'', -⟩ := h₃.call rfl hc'' (fun h hw hw' => by
    obtain rfl := hdrop h hw hw'
    simp [h₀, WaiterState.init]) hn''
  have hp : v'' 48 = Tasks.polled false ⟨true, false⟩ := by
    rw [hv'' 48 (by simp [hf.2])]
    simp
  refine ⟨_, h₄.notified rfl hp, rfl, rfl, ?_⟩
  simp [Tasks.notified, Tasks.polled]

end Interleaving

/-- Along every interleaving of calls, polls and notifications the mutex is in the state that some
run of atomic calls leaves. A future that is ready agrees with an atomic poll at that moment, and
no call waits for more than the lock of the queue. -/
theorem mutex_tasks_refine (k : QueueKind) {P : Type} [Priority P] (evict : Bool)
    {n : Tasks (System (k.Queue (MutexWaiter P)))}
    (hn : Tasks.Reachable (monitor evict) (System.start new) n) :
    (∃ ops : List (Op P), run (after (call evict)) (System.start new) ops = some n.sys) ∧
    (∀ h flags, (n.waiter h).owner = .idle (.ready flags) →
      (lookup n.sys.owned h = some ⟨h, .future⟩ → call evict n.sys (.poll h) =
        some (.acquired h, { n.sys with owned := relabel n.sys.owned h .guard })) ∧
      (lookup n.sys.owned h = some ⟨h, .guard⟩ →
        call evict n.sys (.evicted h) = some (.evicted true, n.sys))) ∧
    ∀ (op : Op P) (r : Result) (s' : System (k.Queue (MutexWaiter P))), n.notes = [] →
      op.locks = true → call evict n.sys op = some (r, s') →
      (∀ h ∈ handles n.sys.owned, h ∉ handles s'.owned → (n.waiter h).owner = .absent) →
      ∃ n', Tasks.Step (monitor evict) n n' ∧ n'.sys = s' := by
  have hi := reachable_inv hn
  obtain ⟨l, hs⟩ := hi.sys.holds
  refine ⟨hi.sys, fun h fl hr => ⟨fun ho => ?_, fun ho => ?_⟩, fun op r s' => call_steps hi⟩
  · obtain ⟨w, T, hw, hT, hm⟩ := ready_target hi hr (mem_handles (mem_of_lookup ho).1)
    obtain rfl : ⟨true, false⟩ = T := by simpa [target, ho] using hT
    exact hs.poll_locked ho hw (by simpa [Waiter.meets] using hm)
  · obtain ⟨w, T, hw, hT, hm⟩ := ready_target hi hr (mem_handles (mem_of_lookup ho).1)
    cases evict with
    | false => simp [target, ho] at hT
    | true =>
      obtain rfl : ⟨false, true⟩ = T := by simpa [target, ho] using hT
      obtain ⟨e, he, rfl, rfl⟩ := hs.entry_of_flags hw
      have he' : e.data.waiter.wantsEvict = true := by simpa [Waiter.meets] using hm
      simp [call, ho, LawfulQueue.getByHandle_spec hs.rep he, he']

theorem mutex_tasks_refine_handed_over :
    ∃ n : Tasks (System (QueueKind.dualArena.Queue (MutexWaiter ℕ))),
    n.sys = ran [.lock 1, .lock 0, .drop 0] ∧ (n.waiter 48).owner = .idle (.pending 0) ∧
    ∃ ops : List (Op ℕ), run (after (call true)) (System.start new) ops = some n.sys := by
  obtain ⟨n, hn, hs, -, hp⟩ := reachable_handed_over
  exact ⟨n, hs, hp, (mutex_tasks_refine QueueKind.dualArena true hn).1⟩

/-- At no moment of an interleaving two callers have the lock, and whenever the lock of the queue
is free, a future that waits at the head of the queue has been woken. -/
theorem tasks_exclusive (k : QueueKind) {P : Type} [Priority P] (evict : Bool)
    {n : Tasks (System (k.Queue (MutexWaiter P)))}
    (hn : Tasks.Reachable (monitor evict) (System.start new) n) :
    (∀ g h, HasLock n g → HasLock n h → g = h) ∧
    (n.notes = [] → ∀ h waker, head n.sys.mutex.queue = some (some h) →
      lookup n.sys.owned h = some ⟨h, .future⟩ →
      (n.waiter h).owner = .idle (.pending waker) → waker ∈ (n.waiter h).woken) := by
  have hi := reachable_inv hn
  obtain ⟨l, hs⟩ := hi.sys.holds
  constructor
  · intro g h hg hh
    exact Option.some.inj ((hasLock_head hi hg hs).symm.trans (hasLock_head hi hh hs))
  · intro hfree h waker hhead ho hp
    rw [LawfulQueue.head_spec hs.rep] at hhead
    cases l with
    | nil => simp at hhead
    | cons e t =>
      obtain rfl : e.handle = h := by simpa using hhead
      have hw : flags n.sys e.handle = some e.data.waiter := hs.flags_of_mem (by simp)
      have hl : e.data.waiter.hasLock = true := hs.led.1
      exact hi.woken hfree hw (t := ⟨true, false⟩) (by simp [monitor, target, ho])
        (by simp [Waiter.meets, hl]) hp

theorem tasks_exclusive_handed_over :
    ∃ n : Tasks (System (QueueKind.dualArena.Queue (MutexWaiter ℕ))),
      n.sys = ran [.lock 1, .lock 0, .drop 0] ∧ (n.waiter 48).owner = .idle (.pending 0) ∧
      0 ∈ (n.waiter 48).woken := by
  obtain ⟨n, hn, hs, hfree, hp⟩ := reachable_handed_over
  refine ⟨n, hs, hp, (tasks_exclusive QueueKind.dualArena true hn).2 hfree 48 0 ?_ ?_ hp⟩
  · rw [hs]
    decide
  · rw [hs]
    decide

/-- While the lock of the queue is free, a holder that waits for `evicted` has been woken if a
request above it is queued. -/
theorem tasks_evicted (k : QueueKind) {P : Type} [Priority P] [LawfulPriority P]
    {n : Tasks (System (k.Queue (MutexWaiter P)))}
    (hn : Tasks.Reachable (monitor true) (System.start new) n) (hfree : n.notes = [])
    {l : List (Entry (MutexWaiter P))} (hl : entries n.sys.mutex.queue = some l)
    {e f : Entry (MutexWaiter P)} (he : e ∈ l) (hf : f ∈ l)
    (hgt : Priority.compare f.data.priority e.data.priority = .gt)
    (ho : lookup n.sys.owned e.handle = some ⟨e.handle, .guard⟩) {waker : ℕ}
    (hp : (n.waiter e.handle).owner = .idle (.pending waker)) :
    waker ∈ (n.waiter e.handle).woken := by
  have hi := reachable_inv hn
  obtain ⟨ops, hr⟩ := hi.sys
  obtain ⟨s, l', hr', hs, hnot, -⟩ := run_notified (Q := k.Queue (MutexWaiter P)) ops
  obtain rfl := Option.some.inj (hr.symm.trans hr')
  obtain rfl := Option.some.inj (hl.symm.trans (LawfulQueue.entries_eq hs.rep))
  have hhead := hs.guard _ (mem_of_lookup ho).1 rfl
  cases l with
  | nil => simp at he
  | cons g t =>
    obtain rfl : g = e := by
      obtain rfl | he := List.mem_cons.mp he
      · rfl
      · have hne := (List.nodup_cons.mp (LawfulQueue.nodup hs.rep)).1
        have hge : g.handle = e.handle := by simpa using hhead
        exact absurd (hge ▸ mem_handles he) hne
    obtain rfl | hft := List.mem_cons.mp hf
    · simp [Std.ReflCmp.compare_self] at hgt
    have hevict : wantsEvict g = true :=
      hnot.holder g (by simp) hs.led.1 f hf (hs.led.2 f hft) hgt
    have hw : flags n.sys g.handle = some g.data.waiter := hs.flags_of_mem (by simp)
    exact hi.woken hfree hw (t := ⟨false, true⟩) (by simp [monitor, target, ho])
      (by simpa [Waiter.meets, wantsEvict] using hevict) hp

theorem tasks_evicted_outranked :
    ∃ n : Tasks (System (QueueKind.dualArena.Queue (MutexWaiter ℕ))),
      n.sys = ran [.lock 0, .lock 1] ∧ (n.waiter 0).owner = .idle (.pending 0) ∧
      0 ∈ (n.waiter 0).woken := by
  obtain ⟨n, hn, hs, hfree, hp⟩ := reachable_outranked
  refine ⟨n, hs, hp, tasks_evicted QueueKind.dualArena hn hfree (hs ▸ entries_outranked)
    (e := ⟨0, 0, ⟨true, true⟩⟩) (f := ⟨48, 1, ⟨false, false⟩⟩) (by simp) (by simp) (by decide)
    ?_ hp⟩
  rw [hs]
  decide

end PriorityLock.Mutex
