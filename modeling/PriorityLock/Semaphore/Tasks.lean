import PriorityLock.Semaphore.WithinTotal
import PriorityLock.Waiter.Tasks

/-! # Tasks around a semaphore

The owners of a semaphore poll the words of their entries while calls of others
change the queue under its lock. A future of `acquire_within_total` goes by the
flags that its last access has read, and may be rejected after its entry was
granted its permits.
-/

namespace PriorityLock.Semaphore

open Placement Transition PriorityQueue

variable {B : Build} {Q P : Type} [Priority P] [PriorityQueue Q (SemaphoreWaiter B P)]

def flags (s : System B Q) (h : Handle) : Option Waiter :=
  ((entries s.inner.queue).bind fun l => lookup l h).map fun e => e.data.waiter

/-- The flags of `WaiterFlagFut` in the two kinds of acquires and in `evicted`. -/
def target (s : System B Q) (h : Handle) : Option Waiter :=
  (lookup s.owned h).bind fun o => match o.data with
    | .future => some ⟨true, false⟩
    | .futureWithinTotal _ => some ⟨true, true⟩
    | .rejected _ => none
    | .permit => if B.evict then some ⟨false, true⟩ else none

/-- What becomes of a future that returns some flags. -/
def Owned.settle (flags : Waiter) : Owned B → Option (Owned B)
  | .future => some .permit
  | .futureWithinTotal count => some (if flags.hasLock then .permit else .rejected count)
  | _ => none

def Op.locks : Op B P → Bool
  | .poll _ | .evicted _ | .permits _ | .availablePermits | .totalPermits => false
  | _ => true

def monitor : Monitor (System B Q) where
  flags := flags
  target := target
  call s s' := ∃ op r, op.locks = true ∧ call s op = some (r, s')
  resolve h fl s s' := ∃ o d, lookup s.owned h = some ⟨h, o⟩ ∧ o.settle fl = some d ∧
    s' = { s with owned := relabel s.owned h d }

section Undecided

variable {s s' : System B Q} {h h' : Handle} {d : Owned B} {op : Op B P} {r : Result B}
  {inner : SemaphoreInner B Q}

def Owned.waiting : Owned B → Owned B
  | .rejected count => .futureWithinTotal count
  | o => o

/-- The same semaphore before its futures were rejected. -/
def System.undecided (s : System B Q) : System B Q :=
  ⟨s.inner, s.owned.map fun o => ⟨o.handle, o.data.waiting⟩⟩

omit [Priority P] [PriorityQueue Q (SemaphoreWaiter B P)]

@[simp] theorem undecided_inner : s.undecided.inner = s.inner := rfl

theorem lookup_undecided : lookup s.undecided.owned h =
    (lookup s.owned h).map fun o => ⟨o.handle, o.data.waiting⟩ := by
  rw [lookup, lookup, System.undecided, List.find?_map]
  rfl

theorem undecided_append : (⟨inner, s.owned ++ [⟨h, d⟩]⟩ : System B Q).undecided =
    ⟨inner, s.undecided.owned ++ [⟨h, d.waiting⟩]⟩ := by
  simp [System.undecided]

theorem undecided_without : (⟨inner, without s.owned h⟩ : System B Q).undecided =
    ⟨inner, without s.undecided.owned h⟩ := by
  simp only [System.undecided, without, List.filter_map, Function.comp_def]

theorem undecided_relabel : (⟨inner, relabel s.owned h d⟩ : System B Q).undecided =
    ⟨inner, relabel s.undecided.owned h d.waiting⟩ := by
  simp only [System.undecided, relabel, List.map_map, System.mk.injEq, true_and]
  apply List.map_congr_left
  intro o _
  by_cases ho : o.handle = h <;> simp [ho]

end Undecided

section Calls

variable {s s' : System B Q} {h h' : Handle} {d : Owned B} {op : Op B P} {r r₀ : Result B}

/-- A call moves at most one thing that callers own, and does the same before futures are
rejected. -/
def Independent (s s' : System B Q) : Prop :=
  Changed s.owned s'.owned ∧ ∃ (op : Op B P) (r : Result B),
    call s.undecided op = some (r, s'.undecided)

theorem independent_same (hc : some (r₀, s) = some (r, s')) : Independent s s' := by
  obtain ⟨-, rfl⟩ := Prod.mk.inj (Option.some.inj hc)
  exact ⟨.same, .availablePermits, _, rfl⟩

theorem independent_stay (op : Op B P) (r : Result B) {inner : SemaphoreInner B Q}
    (hop : call s.undecided op = some (r, ⟨inner, s.undecided.owned⟩)) :
    Independent s ⟨inner, s.owned⟩ :=
  ⟨.same, op, r, hop⟩

theorem independent_acquire (op : Op B P) {priority : P} {word : Usize B} (hd : d.waiting = d)
    (hc : s.acquire priority word d = some (r, s'))
    (hop : call s.undecided op = s.undecided.acquire priority word d) : Independent s s' := by
  obtain ⟨⟨⟨x, acquired⟩, inner⟩, hq, heq⟩ := Option.map_eq_some_iff.mp hc
  cases acquired <;> obtain ⟨rfl, rfl⟩ := Prod.mk.inj heq
  · refine ⟨.arrive x d, op, .pending x, hop.trans ?_⟩
    rw [undecided_append, hd]
    exact Option.map_eq_some_iff.mpr ⟨_, hq, rfl⟩
  · refine ⟨.arrive x Owned.permit, op, .permit x, hop.trans ?_⟩
    rw [undecided_append]
    exact Option.map_eq_some_iff.mpr ⟨_, hq, rfl⟩

theorem independent_abandon (op : Op B P) (r₂ : Result B) {r₁ : Result B}
    (hc : s.abandon h r₁ = some (r, s'))
    (hop : call s.undecided op = s.undecided.abandon h r₂) : Independent s s' := by
  obtain ⟨inner, hq, heq⟩ := Option.map_eq_some_iff.mp hc
  obtain ⟨rfl, rfl⟩ := Prod.mk.inj heq
  refine ⟨.depart h, op, r₂, hop.trans ?_⟩
  rw [undecided_without]
  exact Option.map_eq_some_iff.mpr ⟨_, hq, rfl⟩

theorem independent_release (op : Op B P) {r₁ : Result B} {inner : SemaphoreInner B Q}
    (hc : System.release ⟨inner, s.owned⟩ h r₁ = some (r, s'))
    (hop : call s.undecided op = System.release ⟨inner, s.undecided.owned⟩ h r₁) :
    Independent s s' := by
  obtain ⟨⟨x | x, inner'⟩, hq, heq⟩ := Option.map_eq_some_iff.mp hc <;>
    obtain ⟨rfl, rfl⟩ := Prod.mk.inj heq
  · refine ⟨.depart h, op, .panicked x, hop.trans ?_⟩
    rw [undecided_without]
    exact Option.map_eq_some_iff.mpr ⟨_, hq, rfl⟩
  · refine ⟨.depart h, op, r₁, hop.trans ?_⟩
    rw [undecided_without]
    exact Option.map_eq_some_iff.mpr ⟨_, hq, rfl⟩

theorem independent_split (op : Op B P) {f : P → P} {n : Usize B}
    (hc : (splitOff f s.inner h n).map s.splitResult = some (r, s'))
    (hop : call s.undecided op = (splitOff f s.inner h n).map s.undecided.splitResult) :
    Independent s s' := by
  obtain ⟨⟨e | x, inner⟩, hq, heq⟩ := Option.map_eq_some_iff.mp hc <;>
    obtain ⟨rfl, rfl⟩ := Prod.mk.inj heq
  · exact ⟨.same, op, .insufficient e, hop.trans (Option.map_eq_some_iff.mpr ⟨_, hq, rfl⟩)⟩
  · refine ⟨.arrive x Owned.permit, op, .permit x, hop.trans ?_⟩
    rw [undecided_append]
    exact Option.map_eq_some_iff.mpr ⟨_, hq, rfl⟩

theorem lookup_undecided_permit (ho : lookup s.owned h = some ⟨h', .permit⟩) :
    lookup s.undecided.owned h = some ⟨h', .permit⟩ := by
  rw [lookup_undecided, ho]
  rfl

theorem call_independent (hc : call s op = some (r, s')) (hop : op.locks = true) :
    Independent s s' := by
  cases op with
  | acquireMany priority n =>
    simp only [call] at hc
    split at hc
    · exact independent_same hc
    · next hn => exact independent_acquire (.acquireMany priority n) rfl hc (by simp [call, hn])
  | acquireWithinTotal priority n =>
    simp only [call] at hc
    split at hc
    · exact independent_same hc
    split at hc
    · exact independent_same hc
    split at hc
    · exact independent_same hc
    · next hB hn ht =>
      refine independent_acquire (.acquireWithinTotal priority n) rfl hc ?_
      simp [call, hB, hn, ht, System.undecided]
  | finish x =>
    rcases ho : lookup s.owned x with _ | ⟨y, _ | n | n | _⟩ <;> simp only [call, ho] at hc
    case some.rejected =>
      have ho' : lookup s.undecided.owned x = some ⟨y, .futureWithinTotal n⟩ := by
        rw [lookup_undecided, ho]
        rfl
      exact independent_abandon (.cancel x) .unit hc (by simp [call, ho'])
    all_goals exact independent_same hc
  | cancel x =>
    rcases ho : lookup s.owned x with _ | ⟨y, _ | n | n | _⟩ <;> simp only [call, ho] at hc
    case some.future =>
      have ho' : lookup s.undecided.owned x = some ⟨y, .future⟩ := by
        rw [lookup_undecided, ho]
        rfl
      exact independent_abandon (.cancel x) .unit hc (by simp [call, ho'])
    case some.futureWithinTotal =>
      have ho' : lookup s.undecided.owned x = some ⟨y, .futureWithinTotal n⟩ := by
        rw [lookup_undecided, ho]
        rfl
      exact independent_abandon (.cancel x) .unit hc (by simp [call, ho'])
    all_goals exact independent_same hc
  | drop x =>
    rcases ho : lookup s.owned x with _ | ⟨y, _ | _ | _ | _⟩ <;> simp only [call, ho] at hc
    case some.permit =>
      exact independent_release (.drop x) hc
        (by simp only [call, lookup_undecided_permit ho]; rfl)
    all_goals exact independent_same hc
  | mergeIntoForeign x =>
    rcases ho : lookup s.owned x with _ | ⟨y, _ | _ | _ | _⟩ <;> simp only [call, ho] at hc
    case some.permit =>
      exact independent_release (.mergeIntoForeign x) hc
        (by simp only [call, lookup_undecided_permit ho]; rfl)
    all_goals exact independent_same hc
  | forget x =>
    rcases ho : lookup s.owned x with _ | ⟨y, _ | _ | _ | _⟩ <;> simp only [call, ho] at hc
    case some.permit =>
      obtain ⟨inner, hq, heq⟩ := Option.map_eq_some_iff.mp hc
      obtain ⟨rfl, rfl⟩ := Prod.mk.inj heq
      refine ⟨.depart x, .forget x, .unit, ?_⟩
      rw [undecided_without]
      simp [call, lookup_undecided_permit ho, hq]
    all_goals exact independent_same hc
  | split x n =>
    rcases ho : lookup s.owned x with _ | ⟨y, _ | _ | _ | _⟩ <;> simp only [call, ho] at hc
    case some.permit =>
      split at hc
      · exact independent_same hc
      · next hn =>
        exact independent_split (.split x n) (f := id) hc
          (by simp only [call, lookup_undecided_permit ho, hn, if_false]; rfl)
    all_goals exact independent_same hc
  | splitWithPriority x n q =>
    rcases ho : lookup s.owned x with _ | ⟨y, _ | _ | _ | _⟩ <;> simp only [call, ho] at hc
    case some.permit =>
      split at hc
      · exact independent_same hc
      · next hn =>
        exact independent_split (.splitWithPriority x n q) (f := fun _ => q) hc
          (by simp only [call, lookup_undecided_permit ho, hn, if_false]; rfl)
    all_goals exact independent_same hc
  | merge x y =>
    rcases hx : lookup s.owned x with _ | ⟨x', _ | _ | _ | _⟩ <;> simp only [call, hx] at hc
    case some.permit =>
      rcases hy : lookup s.owned y with _ | ⟨y', _ | _ | _ | _⟩ <;> simp only [hy] at hc
      case some.permit =>
        split at hc
        · exact independent_same hc
        next hne =>
          obtain ⟨⟨ok, inner⟩, hq, heq⟩ := Option.bind_eq_some_iff.mp hc
          cases ok with
          | true =>
            obtain ⟨rfl, rfl⟩ := Prod.mk.inj (Option.some.inj heq)
            refine ⟨.depart y, .merge x y, .merged true, ?_⟩
            rw [undecided_without]
            simp [call, lookup_undecided_permit hx, lookup_undecided_permit hy, hne, hq]
          | false =>
            have hrel : System.release ⟨inner, s.owned⟩ y (.merged false) = some (r, s') := heq
            refine independent_release (.merge x y) hrel ?_
            simp [call, lookup_undecided_permit hx, lookup_undecided_permit hy, hne, hq]
      all_goals exact independent_same hc
    all_goals exact independent_same hc
  | mergeForeign x =>
    simp only [call] at hc
    split at hc <;> exact independent_same hc
  | tryAddPermits n =>
    obtain ⟨⟨x, inner⟩, hq, heq⟩ := Option.map_eq_some_iff.mp hc
    obtain ⟨rfl, rfl⟩ := Prod.mk.inj heq
    exact independent_stay (.tryAddPermits n) (.added x) (by simp [call, hq])
  | addPermits n =>
    obtain ⟨⟨x, inner⟩, hq, heq⟩ := Option.map_eq_some_iff.mp hc
    cases x with
    | none =>
      obtain ⟨rfl, rfl⟩ := Prod.mk.inj heq
      exact independent_stay (.addPermits n) (.panicked .mustAdd) (by simp [call, hq])
    | some m =>
      obtain ⟨rfl, rfl⟩ := Prod.mk.inj heq
      exact independent_stay (.addPermits n) (.count m) (by simp [call, hq])
  | forgetPermits n =>
    obtain ⟨⟨x, inner⟩, hq, heq⟩ := Option.map_eq_some_iff.mp hc
    obtain ⟨rfl, rfl⟩ := Prod.mk.inj heq
    exact independent_stay (.forgetPermits n) (.count x) (by simp [call, hq])
  | poll | evicted | permits | availablePermits | totalPermits => cases hop

end Calls

section Moves

variable {op : Op B P} {r : Result B} {p p' : Pool B P}

theorem Moves.grows (hm : Moves op r p p') (hp : p.WF) :
    Grows SemaphoreWaiter.waiter (p.held ++ p.pending) (p'.held ++ p'.pending) := by
  intro e he
  by_cases hA : e.handle ∈ p.arrivals
  · obtain ⟨d, hd, hde, hlock, hwants, -⟩ := hm.origin he hA
    refine Or.inr ⟨d, hd, hde, fun f hf => ?_⟩
    cases f with
    | hasLock => exact hlock hf
    | wantsEvict => exact hwants hf
  · refine Or.inl ⟨fun h => hA (hp.perm.mem_iff.mp h), ?_⟩
    have hwants : e.data.waiter.wantsEvict = false := by
      rcases List.mem_append.mp he with he | he
      · exact ((hm.held_origin he).of_new hp hA).2.1
      · cases hm.pending_origin he with
        | kept h =>
          exact absurd (hp.perm.mem_iff.mp (mem_handles (List.mem_append_right _ h))) hA
        | oversized h =>
          rw [flag_handle] at hA
          exact absurd (hp.perm.mem_iff.mp (mem_handles (List.mem_append_right _ h))) hA
        | fresh => rfl
    rw [Waiter.new, ← hwants]

end Moves

section Tasks

variable [LawfulQueue Q (SemaphoreWaiter B P)] {s s' : System B Q} {op : Op B P} {r : Result B}
  {n : Tasks (System B Q)} {h : Handle} {fl w : Waiter} {T : Waiter} {p : Pool B P}
  {capacity : Usize B} {e : Queued B P} {o d : Owned B}

omit [Priority P] [LawfulQueue Q (SemaphoreWaiter B P)] in
theorem flags_of_entries {l : List (Queued B P)} (hl : entries s.inner.queue = some l) :
    flags s = flagsIn SemaphoreWaiter.waiter l := by
  funext h
  rw [flags, hl, Option.bind_some, flagsIn]

omit [Priority P] [LawfulQueue Q (SemaphoreWaiter B P)] in
theorem flags_ne_none {l : List (Queued B P)} (hl : entries s.inner.queue = some l) :
    flags s h ≠ none ↔ h ∈ handles l := by
  rw [flags_of_entries hl]
  exact flagsIn_ne_none

theorem Holds.flags_eq (hs : Holds s p) :
    flags s = flagsIn SemaphoreWaiter.waiter (p.held ++ p.pending) :=
  flags_of_entries hs.entries_eq

theorem Holds.flags_of_mem (hs : Holds s p) (he : e ∈ p.held ++ p.pending) :
    flags s e.handle = some e.data.waiter := by
  rw [hs.flags_eq]
  exact flagsIn_of_mem hs.view.wf.nodup_handles he

theorem Holds.entry_of_flags (hs : Holds s p) (hw : flags s h = some w) :
    ∃ e ∈ p.held ++ p.pending, e.handle = h ∧ e.data.waiter = w := by
  rw [hs.flags_eq] at hw
  exact entry_of_flagsIn hw

theorem Holds.flags_ne_none (hs : Holds s p) : flags s h ≠ none ↔ h ∈ handles s.owned := by
  rw [Semaphore.flags_ne_none hs.entries_eq, hs.mem_owned]

omit [Priority P] [PriorityQueue Q (SemaphoreWaiter B P)]
  [LawfulQueue Q (SemaphoreWaiter B P)] in
@[simp] theorem handles_undecided : handles s.undecided.owned = handles s.owned := by
  simp [handles, System.undecided, Function.comp_def]

theorem Holds.of_undecided (hs : Holds s.undecided p) : Holds s p := by
  refine ⟨hs.view, hs.arrivals.trans handles_undecided, fun o ho hd => ?_⟩
  have hm : (⟨o.handle, o.data.waiting⟩ : Entry (Owned B)) ∈ s.undecided.owned :=
    List.mem_map.mpr ⟨o, ho, rfl⟩
  exact hs.permits ⟨o.handle, o.data.waiting⟩ hm (by simp [hd, Owned.waiting])

/-- What some run of calls leaves, but for the futures that have been rejected. -/
def Ran (capacity : Usize B) (s : System B Q) : Prop :=
  ∃ ops : List (Op B P), run (after call) (System.start (new capacity)) ops = some s.undecided

theorem Ran.holds (hs : Ran (P := P) capacity s) : ∃ p : Pool B P, Holds s p := by
  obtain ⟨ops, hr⟩ := hs
  obtain ⟨t, p, ht, hp⟩ := run_holds (Q := Q) capacity ops
  obtain rfl := Option.some.inj (hr.symm.trans ht)
  exact ⟨p, hp.of_undecided⟩

omit [LawfulQueue Q (SemaphoreWaiter B P)] in
theorem Ran.call (hs : Ran (P := P) capacity s)
    (hc : Semaphore.call s.undecided op = some (r, s'.undecided)) :
    Ran (P := P) capacity s' := by
  obtain ⟨ops, hr⟩ := hs
  exact ⟨ops ++ [op], (run_concat hr).trans (after_eq hc)⟩

theorem Holds.poll_locked (hs : Holds s p) (ho : lookup s.owned h = some ⟨h, o⟩)
    (hd : o.settle ⟨true, false⟩ = some .permit) (hw : flags s h = some w)
    (hl : w.hasLock = true) : Semaphore.call s (.poll h) =
      some (.permit h, { s with owned := PriorityLock.relabel s.owned h .permit }) := by
  obtain ⟨e, he, rfl, rfl⟩ := hs.entry_of_flags hw
  have hg := LawfulQueue.getByHandle_spec hs.view.rep he
  cases o with
  | future => simp [Semaphore.call, ho, hg, hl]
  | futureWithinTotal => simp [Semaphore.call, ho, hg, hl]
  | rejected | permit => cases hd

omit [Priority P] [PriorityQueue Q (SemaphoreWaiter B P)]
  [LawfulQueue Q (SemaphoreWaiter B P)] in
/-- A future of an entry is granted its permits, or is rejected with a flag of the total. -/
theorem settle_cases (ho : lookup s.owned h = some ⟨h, o⟩) (hT : target s h = some T)
    (hm : fl.meets T = true) (hd : o.settle fl = some d) :
    (fl.hasLock = true ∧ d = .permit ∧ o.waiting = o ∧ o.settle ⟨true, false⟩ = some .permit) ∨
      fl.hasLock = false ∧ fl.wantsEvict = true ∧ ∃ c, o = .futureWithinTotal c ∧
        d = .rejected c := by
  cases o with
  | future =>
    obtain rfl : ⟨true, false⟩ = T := by simpa [target, ho] using hT
    exact Or.inl ⟨by simpa [Waiter.meets] using hm, (Option.some.inj hd).symm, rfl, rfl⟩
  | futureWithinTotal c =>
    obtain rfl : ⟨true, true⟩ = T := by simpa [target, ho] using hT
    have hd := Option.some.inj hd
    cases hl : fl.hasLock with
    | true => exact Or.inl ⟨rfl, by simpa [hl] using hd.symm, rfl, rfl⟩
    | false =>
      exact Or.inr ⟨rfl, by simpa [Waiter.meets, hl] using hm, c, rfl, by simpa [hl] using hd.symm⟩
  | rejected | permit => cases hd

theorem lawful (capacity : Usize B) :
    Tasks.Lawful (monitor (B := B) (Q := Q)) (Ran (P := P) capacity) where
  call := by
    rintro s s' hJ ⟨op, r, hop, hc⟩
    obtain ⟨p, hs⟩ := hJ.holds
    obtain ⟨r', t, p', hc', hs', hm⟩ := hs.call op
    obtain ⟨rfl, rfl⟩ := Prod.mk.inj (Option.some.inj (hc.symm.trans hc'))
    obtain ⟨hchanged, op', r', hc'⟩ := call_independent hc hop
    refine ⟨hJ.call hc', fun h w hw hw' => ?_, fun h hw hw' => ?_⟩
    · exact (hm.grows hs.view.wf).new ((congrFun hs.flags_eq h).symm.trans hw)
        ((congrFun hs'.flags_eq h).symm.trans hw')
    · have hl := hchanged.lookup_eq (hs.flags_ne_none.mp hw) (hs'.flags_ne_none.mp hw')
      simp [monitor, target, hl]
  resolve := by
    rintro s s' h fl w T hJ hw hT hle hmeets ⟨o, d, ho, hd, rfl⟩
    obtain ⟨p, hs⟩ := hJ.holds
    refine ⟨?_, rfl, fun g hg => by simp [monitor, target, lookup_relabel hg]⟩
    rcases settle_cases ho hT hmeets hd with ⟨hl, rfl, hwait, hset⟩ | ⟨-, -, c, rfl, rfl⟩
    · obtain ⟨ops, hr⟩ := id hJ
      obtain ⟨t, q, ht, hq⟩ := run_holds (Q := Q) capacity ops
      obtain rfl := Option.some.inj (hr.symm.trans ht)
      have ho' : lookup s.undecided.owned h = some ⟨h, o⟩ := by
        rw [lookup_undecided, ho, Option.map_some, hwait]
      have hpoll := hq.poll_locked ho' hset hw (hle .hasLock hl)
      exact hJ.call (hpoll.trans (by rw [undecided_relabel]; rfl))
    · have ho' : lookup s.undecided.owned h = some ⟨h, .futureWithinTotal c⟩ := by
        rw [lookup_undecided, ho]
        rfl
      have hself : relabel s.undecided.owned h (.futureWithinTotal c) = s.undecided.owned :=
        relabel_self (by rw [handles_undecided]; exact hs.nodup_owned) ho'
      obtain ⟨ops, hr⟩ := hJ
      refine ⟨ops, hr.trans ?_⟩
      rw [undecided_relabel, Owned.waiting, hself]
      rfl

theorem reachable_inv
    (hn : Tasks.Reachable monitor (System.start (new capacity : SemaphoreInner B Q)) n) :
    Tasks.Inv monitor (Ran (P := P) capacity) n := by
  refine hn.inv (lawful capacity) ⟨[], rfl⟩ fun h => ?_
  have hs := Holds.start (Q := Q) (P := P) capacity
  simp [monitor, hs.flags_eq, flagsIn, lookup, Pool.start]

theorem ready_target (hi : Tasks.Inv monitor (Ran (P := P) capacity) n)
    (ho : (n.waiter h).owner = .idle (.ready fl)) (hm : h ∈ handles n.sys.owned) :
    ∃ w T, flags n.sys h = some w ∧ target n.sys h = some T ∧ fl.Le w ∧ fl.meets T = true := by
  obtain ⟨p, hs⟩ := hi.sys.holds
  obtain ⟨w, hw⟩ := Option.ne_none_iff_exists'.mp (hs.flags_ne_none.mpr hm)
  obtain ⟨T, hT, hle, hmeets⟩ := (hi.tracks h w hw).ready ho
  exact ⟨w, T, hw, hT, hle, hmeets⟩

theorem call_steps (hi : Tasks.Inv monitor (Ran (P := P) capacity) n) (hn : n.notes = [])
    (hop : op.locks = true) (hc : call n.sys op = some (r, s'))
    (hgone : ∀ h ∈ handles n.sys.owned, h ∉ handles s'.owned → (n.waiter h).owner = .absent) :
    ∃ n', Tasks.Step monitor n n' ∧ n'.sys = s' := by
  obtain ⟨p, hs⟩ := hi.sys.holds
  obtain ⟨r', t, p', hc', hs', hm⟩ := hs.call op
  obtain ⟨rfl, rfl⟩ := Prod.mk.inj (Option.some.inj (hc.symm.trans hc'))
  obtain ⟨notes, hnotes⟩ : ∃ notes, Tasks.Notes monitor n.sys s' notes :=
    Tasks.exists_notes (handles n.sys.owned) (fun h => hs.flags_ne_none.mp) fun h w w' hw hw' =>
      (hm.grows hs.view.wf).le hs.view.wf.nodup_handles ((congrFun hs.flags_eq h).symm.trans hw)
        ((congrFun hs'.flags_eq h).symm.trans hw')
  refine ⟨_, .call notes hn ⟨op, r, hop, hc⟩ (fun h hw hw' => ?_) hnotes, rfl⟩
  exact hgone h (hs.flags_ne_none.mp hw) fun hm => hs'.flags_ne_none.mpr hm hw'

/-- The caller has permits: it owns a permit, or its future is about to return one. -/
def HasPermit (n : Tasks (System B Q)) (h : Handle) : Prop :=
  lookup n.sys.owned h = some ⟨h, .permit⟩ ∨ ∃ o fl, lookup n.sys.owned h = some ⟨h, o⟩ ∧
    o.settle fl = some .permit ∧ (n.waiter h).owner = .idle (.ready fl)

theorem hasPermit_locked (hi : Tasks.Inv monitor (Ran (P := P) capacity) n) (hh : HasPermit n h)
    (hs : Holds n.sys p) : ∃ e ∈ p.held ++ p.pending, e.handle = h ∧ hasLock e = true := by
  rcases hh with ho | ⟨o, fl, ho, hd, hr⟩
  · obtain ⟨e, he, rfl⟩ := List.mem_map.mp (hs.held_of_lookup ho)
    exact ⟨e, List.mem_append_left _ he, rfl, hs.view.wf.locked e he⟩
  · obtain ⟨w, T, hw, hT, hle, hm⟩ := ready_target hi hr (mem_handles (mem_of_lookup ho).1)
    obtain ⟨e, he, rfl, rfl⟩ := hs.entry_of_flags hw
    rcases settle_cases ho hT hm hd with ⟨hl, -⟩ | ⟨-, -, c, -, hd'⟩
    · exact ⟨e, he, rfl, hle .hasLock hl⟩
    · cases hd'

theorem Holds.meets_target (hs : Holds s p)
    (hc : (∃ s', Semaphore.call s (.poll h) = some (.permit h, s')) ∨
      (∃ s', Semaphore.call s (.poll h) = some (.rejected, s')) ∨
      ∃ s', Semaphore.call s (.evicted h) = some (.evicted true, s')) :
    ∃ w T, flags s h = some w ∧ target s h = some T ∧ w.meets T = true := by
  rcases ho : lookup s.owned h with _ | ⟨x, _ | c | c | _⟩
  case some.future =>
    obtain ⟨e, he, rfl, hg⟩ := hs.entry (hs.mem_of_lookup ho)
    refine ⟨_, ⟨true, false⟩, hs.flags_of_mem he, by simp [target, ho], ?_⟩
    cases hl : e.data.waiter.hasLock <;> simp_all [Semaphore.call, Waiter.meets]
  case some.futureWithinTotal =>
    obtain ⟨e, he, rfl, hg⟩ := hs.entry (hs.mem_of_lookup ho)
    refine ⟨_, ⟨true, true⟩, hs.flags_of_mem he, by simp [target, ho], ?_⟩
    cases hl : e.data.waiter.hasLock <;> cases hw : e.data.waiter.wantsEvict <;>
      simp_all [Semaphore.call, Waiter.meets]
  case some.permit =>
    obtain ⟨e, he, rfl, hg⟩ := hs.entry (hs.mem_of_lookup ho)
    cases hB : B.evict with
    | false => simp [Semaphore.call, ho, hB] at hc
    | true =>
      refine ⟨_, ⟨false, true⟩, hs.flags_of_mem he, by simp [target, ho, hB], ?_⟩
      simpa [Semaphore.call, ho, hB, hg, Waiter.meets] using hc
  all_goals
    cases hB : B.evict <;> simp [Semaphore.call, ho, hB] at hc

theorem Holds.evicted_ready (hs : Holds s p) (ho : lookup s.owned h = some ⟨h, o⟩)
    (hT : target s h = some T) (hd : o.settle fl = none) (hw : flags s h = some w)
    (hm : w.meets T = true) :
    o = .permit ∧ Semaphore.call s (.evicted h) = some (.evicted true, s) := by
  obtain ⟨e, he, rfl, rfl⟩ := hs.entry_of_flags hw
  have hg := LawfulQueue.getByHandle_spec hs.view.rep he
  cases o with
  | future | futureWithinTotal => cases hd
  | rejected => simp [target, ho] at hT
  | permit =>
    refine ⟨rfl, ?_⟩
    cases hB : B.evict with
    | false => simp [target, ho, hB] at hT
    | true =>
      obtain rfl : ⟨false, true⟩ = T := by simpa [target, ho, hB] using hT
      have hev : e.data.waiter.wantsEvict = true := by simpa [Waiter.meets] using hm
      simp [Semaphore.call, hB, ho, hg, hev]

end Tasks

section Interleaving

def ran (ops : List (Op Build.full ℕ)) :
    System Build.full (QueueKind.dualArena.Queue (SemaphoreWaiter Build.full ℕ)) :=
  (run (after call) (System.start (new 3)) ops).getD (System.start (new 3))

theorem entries_start : entries (ran []).inner.queue = some [] := rfl

theorem entries_held : entries (ran [.acquireMany 0 2]).inner.queue =
    some [⟨0, 0, ⟨true, false⟩, 2⟩] := rfl

theorem entries_waiting :
    entries (ran [.acquireMany 0 2, .acquireWithinTotal 0 3]).inner.queue =
      some [⟨0, 0, ⟨true, false⟩, 2⟩,
        ⟨48, 0, ⟨false, false⟩, 3 ||| withinTotalBit Build.full⟩] := rfl

theorem entries_oversized :
    entries (ran [.acquireMany 0 2, .acquireWithinTotal 0 3, .forgetPermits 1]).inner.queue =
      some [⟨0, 0, ⟨true, false⟩, 2⟩,
        ⟨48, 0, ⟨false, true⟩, 3 ||| withinTotalBit Build.full⟩] := rfl

/-- A future of `acquire_within_total` has been polled when the total falls below its count, and
is woken. -/
theorem reachable_oversized : ∃ n, Tasks.Reachable monitor (System.start (new 3)) n ∧
    n.sys = ran [.acquireMany 0 2, .acquireWithinTotal 0 3, .forgetPermits 1] ∧ n.notes = [] ∧
    (n.waiter 48).owner = .idle (.pending 0) := by
  have hc : monitor.call (ran []) (ran [.acquireMany 0 2]) :=
    ⟨.acquireMany 0 2, .permit 0, rfl, rfl⟩
  have hn : Tasks.Notes monitor (ran []) (ran [.acquireMany 0 2]) [] :=
    Tasks.notes_of_entries (flags_of_entries entries_start) (flags_of_entries entries_held)
      (by decide) (by decide)
  have hc' : monitor.call (ran [.acquireMany 0 2])
      (ran [.acquireMany 0 2, .acquireWithinTotal 0 3]) :=
    ⟨.acquireWithinTotal 0 3, .pending 48, rfl, rfl⟩
  have hn' : Tasks.Notes monitor (ran [.acquireMany 0 2])
      (ran [.acquireMany 0 2, .acquireWithinTotal 0 3]) [] :=
    Tasks.notes_of_entries (flags_of_entries entries_held) (flags_of_entries entries_waiting)
      (by decide) (by decide)
  have hc'' : monitor.call (ran [.acquireMany 0 2, .acquireWithinTotal 0 3])
      (ran [.acquireMany 0 2, .acquireWithinTotal 0 3, .forgetPermits 1]) :=
    ⟨.forgetPermits 1, .count 1, rfl, rfl⟩
  have hn'' : Tasks.Notes monitor (ran [.acquireMany 0 2, .acquireWithinTotal 0 3])
      (ran [.acquireMany 0 2, .acquireWithinTotal 0 3, .forgetPermits 1]) [(48, .wantsEvict)] :=
    Tasks.notes_of_entries (flags_of_entries entries_waiting) (flags_of_entries entries_oversized)
      (by decide) (by decide)
  have hf : monitor.flags (ran [.acquireMany 0 2]) 48 = none ∧
      monitor.flags (ran [.acquireMany 0 2, .acquireWithinTotal 0 3]) 48 =
        some ⟨false, false⟩ := by decide
  have hs : monitor.flags (ran [.acquireMany 0 2, .acquireWithinTotal 0 3]) 48 ≠ none := by
    decide
  have hgone : ∀ h, monitor.flags (ran [.acquireMany 0 2]) h ≠ none →
      monitor.flags (ran [.acquireMany 0 2, .acquireWithinTotal 0 3]) h ≠ none := by
    intro h hw
    have hm := (flags_ne_none entries_held).mp hw
    exact (flags_ne_none entries_waiting).mpr (by simpa using Or.inl hm)
  have hgone' : ∀ h, monitor.flags (ran [.acquireMany 0 2, .acquireWithinTotal 0 3]) h ≠ none →
      monitor.flags (ran [.acquireMany 0 2, .acquireWithinTotal 0 3, .forgetPermits 1]) h ≠
        none := by
    intro h hw
    have hm := (flags_ne_none entries_waiting).mp hw
    exact (flags_ne_none entries_oversized).mpr (by simpa using hm)
  obtain ⟨v, h₁, -, -⟩ := Tasks.Reachable.call (n := Tasks.start (ran [])) .refl rfl hc
    (fun _ _ _ => rfl) hn
  obtain ⟨v', h₂, -, hnew⟩ := h₁.call rfl hc' (fun h hw hw' => absurd hw' (hgone h hw)) hn'
  have h₃ := h₂.polled (T := ⟨true, true⟩) hs rfl (hnew 48 _ hf.1 hf.2) rfl rfl
  obtain ⟨v'', h₄, hv, -⟩ := h₃.call rfl hc'' (fun h hw hw' => absurd hw' (hgone' h hw)) hn''
  have hp : v'' 48 = Tasks.polled false ⟨true, true⟩ := by
    rw [hv 48 hs]
    simp
  refine ⟨_, h₄.notified rfl hp, rfl, rfl, ?_⟩
  simp [Tasks.notified, Tasks.polled]

end Interleaving

/-- Along every interleaving of calls, polls and notifications the inner state is one that some run
of atomic calls leaves, with the same permits. A future that is ready agrees with an atomic poll at
that moment, or was flagged for the total before its entry got the lock. No call waits for more
than the lock of the inner state. -/
theorem semaphore_tasks_refine (k : QueueKind) {B : Build} {P : Type} [Priority P]
    (capacity : Usize B) {n : Tasks (System B (k.Queue (SemaphoreWaiter B P)))}
    (hn : Tasks.Reachable monitor (System.start (new capacity)) n) :
    (∃ (ops : List (Op B P)) (s : System B (k.Queue (SemaphoreWaiter B P))),
      run (after call) (System.start (new capacity)) ops = some s ∧ s.inner = n.sys.inner ∧
      handles s.owned = handles n.sys.owned ∧
      ∀ h, lookup s.owned h = some ⟨h, .permit⟩ ↔ lookup n.sys.owned h = some ⟨h, .permit⟩) ∧
    (∀ h o fl, lookup n.sys.owned h = some ⟨h, o⟩ → (n.waiter h).owner = .idle (.ready fl) →
      (o = .permit ∧ call n.sys (.evicted h) = some (.evicted true, n.sys)) ∨
      (fl.hasLock = true ∧ call n.sys (.poll h) =
        some (.permit h, { n.sys with owned := relabel n.sys.owned h .permit })) ∨
      (fl.hasLock = false ∧ ∃ c w, o = .futureWithinTotal c ∧ flags n.sys h = some w ∧
        w.wantsEvict = true)) ∧
    ∀ (op : Op B P) (r : Result B) (s' : System B (k.Queue (SemaphoreWaiter B P))),
      n.notes = [] → op.locks = true → call n.sys op = some (r, s') →
      (∀ h ∈ handles n.sys.owned, h ∉ handles s'.owned → (n.waiter h).owner = .absent) →
      ∃ n', Tasks.Step monitor n n' ∧ n'.sys = s' := by
  have hi := reachable_inv hn
  obtain ⟨p, hs⟩ := hi.sys.holds
  refine ⟨?_, fun h o fl ho hr => ?_, fun op r s' => call_steps hi⟩
  · obtain ⟨ops, hr⟩ := hi.sys
    refine ⟨ops, _, hr, rfl, handles_undecided, fun h => ?_⟩
    rw [lookup_undecided]
    rcases ho : lookup n.sys.owned h with _ | ⟨x, _ | _ | _ | _⟩ <;> simp [Owned.waiting]
  · obtain ⟨w, T, hw, hT, hle, hm⟩ := ready_target hi hr (mem_handles (mem_of_lookup ho).1)
    cases hd : o.settle fl with
    | none => exact Or.inl (hs.evicted_ready ho hT hd hw (hle.meets hm))
    | some d =>
      rcases settle_cases ho hT hm hd with ⟨hl, -, -, hset⟩ | ⟨hl, hev, c, rfl, -⟩
      · exact Or.inr (Or.inl ⟨hl, hs.poll_locked ho hset hw (hle .hasLock hl)⟩)
      · exact Or.inr (Or.inr ⟨hl, c, w, rfl, hw, hle .wantsEvict hev⟩)

theorem semaphore_tasks_refine_oversized :
    ∃ n : Tasks (System Build.full (QueueKind.dualArena.Queue (SemaphoreWaiter Build.full ℕ))),
      n.sys = ran [.acquireMany 0 2, .acquireWithinTotal 0 3, .forgetPermits 1] ∧
      (n.waiter 48).owner = .idle (.pending 0) ∧
      ∃ (ops : List (Op Build.full ℕ)) (s : System Build.full
          (QueueKind.dualArena.Queue (SemaphoreWaiter Build.full ℕ))),
        run (after call) (System.start (new 3)) ops = some s ∧ s.inner = n.sys.inner ∧
        handles s.owned = handles n.sys.owned ∧
        ∀ h, lookup s.owned h = some ⟨h, .permit⟩ ↔ lookup n.sys.owned h = some ⟨h, .permit⟩ := by
  obtain ⟨n, hn, hs, -, hp⟩ := reachable_oversized
  exact ⟨n, hs, hp, (semaphore_tasks_refine QueueKind.dualArena 3 hn).1⟩

/-- At every moment of an interleaving the total is what is available and what the entries with the
lock have, and whoever has permits has such an entry. -/
theorem tasks_conserve (k : QueueKind) {B : Build} (hB : B.semaphoreTotal = true) {P : Type}
    [Priority P] (capacity : Usize B) {n : Tasks (System B (k.Queue (SemaphoreWaiter B P)))}
    (hn : Tasks.Reachable monitor (System.start (new capacity)) n) :
    ∃ l : List (Queued B P), entries n.sys.inner.queue = some l ∧
      n.sys.inner.total.toNat = n.sys.inner.available.toNat + permits (l.filter hasLock) ∧
      ∀ h, HasPermit n h → ∃ e ∈ l, e.handle = h ∧ hasLock e = true := by
  have hi := reachable_inv hn
  obtain ⟨p, hs⟩ := hi.sys.holds
  refine ⟨_, hs.entries_eq, ?_, fun h hh => hasPermit_locked hi hh hs⟩
  rw [hs.filter_hasLock, hs.view.total, hs.view.available]
  exact hs.view.conserved hB

theorem tasks_conserve_oversized :
    ∃ n : Tasks (System Build.full (QueueKind.dualArena.Queue (SemaphoreWaiter Build.full ℕ))),
      n.sys = ran [.acquireMany 0 2, .acquireWithinTotal 0 3, .forgetPermits 1] ∧
      ∃ l : List (Queued Build.full ℕ), entries n.sys.inner.queue = some l ∧
        n.sys.inner.total.toNat = n.sys.inner.available.toNat + permits (l.filter hasLock) ∧
        ∀ h, HasPermit n h → ∃ e ∈ l, e.handle = h ∧ hasLock e = true := by
  obtain ⟨n, hn, hs, -, -⟩ := reachable_oversized
  exact ⟨n, hs, tasks_conserve QueueKind.dualArena rfl 3 hn⟩

/-- Whenever the lock of the inner state is free, a future that an atomic poll would complete has
been woken. -/
theorem tasks_woken (k : QueueKind) {B : Build} {P : Type} [Priority P] (capacity : Usize B)
    {n : Tasks (System B (k.Queue (SemaphoreWaiter B P)))}
    (hn : Tasks.Reachable monitor (System.start (new capacity)) n) (hfree : n.notes = [])
    {h : Handle} {waker : ℕ} (hp : (n.waiter h).owner = .idle (.pending waker))
    (hc : (∃ s', call n.sys (.poll h) = some (.permit h, s')) ∨
      (∃ s', call n.sys (.poll h) = some (.rejected, s')) ∨
      ∃ s', call n.sys (.evicted h) = some (.evicted true, s')) :
    waker ∈ (n.waiter h).woken := by
  have hi := reachable_inv hn
  obtain ⟨p, hs⟩ := hi.sys.holds
  obtain ⟨w, T, hw, hT, hm⟩ := hs.meets_target hc
  exact hi.woken hfree hw hT hm hp

theorem tasks_woken_oversized :
    ∃ n : Tasks (System Build.full (QueueKind.dualArena.Queue (SemaphoreWaiter Build.full ℕ))),
      n.sys = ran [.acquireMany 0 2, .acquireWithinTotal 0 3, .forgetPermits 1] ∧
      (n.waiter 48).owner = .idle (.pending 0) ∧ 0 ∈ (n.waiter 48).woken := by
  obtain ⟨n, hn, hs, hfree, hp⟩ := reachable_oversized
  refine ⟨n, hs, hp, tasks_woken QueueKind.dualArena 3 hn hfree hp (Or.inr (Or.inl ?_))⟩
  rw [hs]
  exact ⟨_, rfl⟩

end PriorityLock.Semaphore
