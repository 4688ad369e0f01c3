import PriorityLock.Lock.Entries
import PriorityLock.Lock.Numbered
import PriorityLock.Mutex.FairLock
import PriorityLock.Semaphore.Shape

/-! # A semaphore with one permit

While single permits are asked for, the permit of such a semaphore is available
or one entry has it and the others wait. These entries, read as requests, move
as those of a lock by priority do, so the semaphore behaves as the mutex.
-/

namespace PriorityLock.Semaphore

open Placement Transition PriorityQueue
open FairLock (Act Answer Interface Numbered Reading Implements Request)

section Pools

variable {B : Build} {P : Type} {op : Op B P} {r : Result B} {p p' : Pool B P}
  {e f : Queued B P} {h : Handle} {l : List (Queued B P)}

/-- The permit is available and nobody waits, or one entry has it. -/
inductive OnePermit : Pool B P → Prop

  | free {total : Usize B} {arrivals : List Handle} : OnePermit ⟨[], [], total, 1, arrivals⟩

  | taken {e : Queued B P} {pending : List (Queued B P)} {total : Usize B}
      {arrivals : List Handle} : e.data.rawCount = 1 →
      (∀ f ∈ pending, f.data.rawCount = 1 ∧ wantsEvict f = false) →
      OnePermit ⟨[e], pending, total, 0, arrivals⟩

theorem toNat_one (B : Build) : (1 : Usize B).toNat = 1 :=
  Nat.mod_eq_of_lt (Nat.one_lt_two_pow B.bits_pos.ne')

theorem four_le (hB : 2 < B.bits) : 2 ^ 2 ≤ 2 ^ (B.bits - 1) :=
  Nat.pow_le_pow_right Nat.two_pos (by omega)

theorem one_lt_maxPermits (hB : 2 < B.bits) : 1 < maxPermits B := by
  have hp := four_le hB
  rw [BitVec.lt_def, toNat_maxPermits, toNat_one]
  omega

theorem count_one (hB : 2 < B.bits) (he : e.data.rawCount = 1) : count e = 1 := by
  have hm : masked (1 : Usize B) = 1 := by
    have hp := four_le hB
    apply masked_of_lt
    rw [toNat_one]
    omega
  unfold count SemaphoreWaiter.count
  rw [he, hm]
  split <;> rfl

def reading (B : Build) (P : Type) : Reading (SemaphoreWaiter B P) (Owned B) P :=
  ⟨SemaphoreWaiter.priority, fun w => w.waiter.wantsEvict, (· = .permit)⟩

abbrev requests (owned : List (Entry (Owned B))) (l : List (Queued B P)) :
    List (Request Handle P) :=
  (reading B P).requests owned l

theorem OnePermit.held_eq {a b pending : List (Queued B P)} {total available : Usize B}
    {arrivals : List Handle} (hp : OnePermit ⟨a ++ e :: b, pending, total, available, arrivals⟩) :
    a = [] ∧ b = [] ∧ available = 0 ∧ e.data.rawCount = 1 ∧
      ∀ f ∈ pending, f.data.rawCount = 1 ∧ wantsEvict f = false := by
  generalize hl : a ++ e :: b = held at hp
  cases hp with
  | free => simp at hl
  | taken he hp =>
    rcases List.append_eq_singleton_iff.mp hl with ⟨rfl, hl⟩ | ⟨-, hl⟩
    · obtain ⟨rfl, rfl⟩ := List.cons.inj hl
      exact ⟨rfl, rfl, rfl, he, hp⟩
    · cases hl

theorem OnePermit.pending_eq {held a b : List (Queued B P)} {total available : Usize B}
    {arrivals : List Handle} (hp : OnePermit ⟨held, a ++ e :: b, total, available, arrivals⟩) :
    ∃ d, held = [d] ∧ available = 0 ∧ d.data.rawCount = 1 ∧
      ∀ f ∈ a ++ e :: b, f.data.rawCount = 1 ∧ wantsEvict f = false := by
  generalize hl : a ++ e :: b = pending at hp
  cases hp with
  | free => simp at hl
  | taken hd hp => exact ⟨_, rfl, rfl, hd, hp⟩

variable [Priority P]

theorem Activates.none_left {held pending held' pending' : List (Queued B P)}
    {available' : Usize B} (h : Activates held [] pending 0 held' pending' available')
    (hp : ∀ f ∈ pending, count f = 1 ∧ wantsEvict f = false) :
    held' = held ∧ pending' = pending ∧ available' = 0 := by
  cases h with
  | finish | stop => exact ⟨rfl, rfl, rfl⟩
  | skip hlt hby => simp [bypassed, (hp _ List.mem_cons_self).2] at hby
  | grant hle =>
    rw [(hp _ List.mem_cons_self).1, BitVec.le_def, toNat_one] at hle
    simp at hle

/-- A walk with one permit grants it to the first waiting entry. -/
theorem Activates.one_left {pending held' pending' : List (Queued B P)} {available' : Usize B}
    (h : Activates [] [] pending 1 held' pending' available')
    (hp : ∀ f ∈ pending, count f = 1 ∧ wantsEvict f = false) :
    pending = [] ∧ held' = [] ∧ pending' = [] ∧ available' = 1 ∨
      ∃ f t, pending = f :: t ∧ held' = [⟨f.handle, f.data.start⟩] ∧ pending' = t ∧
        available' = 0 := by
  cases h with
  | finish => exact Or.inl ⟨rfl, rfl, rfl, rfl⟩
  | stop hlt | skip hlt =>
    rw [(hp _ List.mem_cons_self).1, BitVec.lt_def] at hlt
    exact absurd hlt (lt_irrefl _)
  | @grant _ held₁ _ t _ _ f _ _ hle hs hact =>
    obtain ⟨hc, -⟩ := hp f List.mem_cons_self
    rw [hc, BitVec.sub_self] at hact
    obtain ⟨rfl, rfl, rfl⟩ := hact.none_left fun g hg => hp g (List.mem_cons_of_mem f hg)
    exact Or.inr ⟨f, _, rfl, List.perm_singleton.mp hs.perm, rfl, rfl⟩

theorem OnePermit.acquire (hp : OnePermit p) {priority : P}
    (hm : Moves (.acquireMany priority 1) r p p') (ha : p'.arrivals ≠ p.arrivals) :
    OnePermit p' ∧ ((∃ h, p.held = [] ∧ p.pending = [] ∧ r = .permit h ∧
        p'.held = [⟨h, priority, .new true, 1⟩] ∧ p'.pending = []) ∨
      ∃ h e, p.held = [e] ∧ r = .pending h ∧ p'.held = [flag (outranked priority) e] ∧
        Placed Priority.compareNew ⟨h, priority, .new false, 1⟩ p.pending p'.pending) := by
  cases hm with
  | acquire hreq hA hle hb hplace =>
    cases hreq
    cases hp with
    | free =>
      obtain rfl := List.perm_singleton.mp hplace.perm
      have h0 : (1 : Usize B) - 1 = 0 := BitVec.sub_self 1
      rw [h0]
      exact ⟨.taken rfl (by simp), Or.inl ⟨_, rfl, rfl, rfl, rfl, rfl⟩⟩
    | taken =>
      rw [BitVec.le_def, toNat_one] at hle
      simp at hle
  | enqueue hreq hA hle hplace =>
    cases hreq
    cases hp with
    | free =>
      obtain ⟨f, hf, -⟩ := hle (BitVec.le_refl _)
      cases hf
    | taken he hpend =>
      refine ⟨.taken (by simpa using he) ?_, Or.inr ⟨_, _, rfl, rfl, rfl, hplace⟩⟩
      intro f hf
      rcases List.mem_cons.mp (hplace.perm.mem_iff.mp hf) with rfl | hf
      · exact ⟨rfl, rfl⟩
      · exact hpend f hf
  | release hop | discard hop | leave hop | unblock hop => cases hop
  | split hop => simp at hop
  | add hop | addTotal hop => simp at hop
  | unchanged => exact absurd rfl ha

theorem OnePermit.drop (hB : 2 < B.bits) (hp : OnePermit p) (hw : p.WF)
    (hop : op = .cancel h ∨ op = .drop h) (hm : Moves op r p p') (hh : h ∈ p.arrivals)
    (ha : h ∉ p'.arrivals) (owned : List (Entry (Owned B))) :
    OnePermit p' ∧ requests owned (p'.held ++ p'.pending) =
      requests owned (without (p.held ++ p.pending) h) := by
  have hd : op.drops = some h := by rcases hop with rfl | rfl <;> rfl
  have hn := hw.nodup_handles
  cases hm with
  | @release _ _ _ _ _ e a b _ _ _ _ hop₁ hact =>
    obtain rfl := Option.some.inj (hd.symm.trans hop₁)
    obtain ⟨rfl, rfl, rfl, he, hpend⟩ := hp.held_eq
    have hc : 0 + count e = 1 := by
      rw [count_one hB he]
      exact BitVec.zero_add 1
    rw [hc] at hact
    change _ ∧ _ = requests owned (without ([] ++ e :: _) e.handle)
    rw [without_middle hn]
    rcases hact.one_left fun f hf => ⟨count_one hB (hpend f hf).1, (hpend f hf).2⟩ with
      ⟨rfl, rfl, rfl, rfl⟩ | ⟨f, t, rfl, rfl, rfl, rfl⟩
    · exact ⟨.free, rfl⟩
    · exact ⟨.taken (hpend f (by simp)).1 fun g hg => hpend g (by simp [hg]), rfl⟩
  | discard hop₁ hB₁ hc =>
    obtain ⟨rfl, rfl, rfl, he, -⟩ := hp.held_eq
    rw [count_one hB he, checkedAdd_eq_none, toNat_one] at hc
    have hlt := Nat.one_lt_two_pow B.bits_pos.ne'
    exact absurd hc (not_le_of_gt hlt)
  | @leave _ _ _ _ e held a b _ hop₁ =>
    obtain rfl := Option.some.inj (hd.symm.trans hop₁)
    obtain ⟨d, rfl, rfl, hd, hpend⟩ := hp.pending_eq
    have hw : without ([d] ++ (a ++ e :: b)) e.handle = [d] ++ (a ++ b) :=
      without_middle (a := d :: a) hn
    have hsub := (List.sublist_cons_self e b).append_left a
    rw [hw]
    exact ⟨.taken hd fun f hf => hpend f (hsub.subset hf), rfl⟩
  | @unblock _ _ _ _ _ e held b _ _ _ hop₁ hact =>
    obtain rfl := Option.some.inj (hd.symm.trans hop₁)
    obtain ⟨d, rfl, rfl, hd, hpend⟩ := hp.pending_eq (a := [])
    have hb : ∀ f ∈ b, f.data.rawCount = 1 ∧ wantsEvict f = false :=
      fun f hf => hpend f (List.mem_cons_of_mem e hf)
    obtain ⟨rfl, rfl, rfl⟩ := hact.none_left fun f hf => ⟨count_one hB (hb f hf).1, (hb f hf).2⟩
    rw [without_middle hn]
    exact ⟨.taken hd hb, rfl⟩
  | unchanged => exact absurd hh ha
  | acquire hreq | enqueue hreq => cases hreq <;> simp at hop
  | split hop₁ => rcases hop₁ with ⟨rfl, -⟩ | rfl <;> simp at hop
  | add hop₁ | addTotal hop₁ => rcases hop₁ with ⟨rfl, -⟩ | ⟨rfl, -⟩ <;> simp at hop
  | forget | forgetTotal | merge | forgetPermits | forgetPermitsTotal => simp at hop

/-- A single permit is not behind an equal priority that asks for less. -/
theorem compareNew_single [Decisive P] (he : hasLock e = false) (hf : hasLock f = false) :
    Priority.compareNew e f = Priority.compareNew e.data.priority f.data.priority := by
  have hne := Decisive.ne_eq e.data.priority f.data.priority
  rw [compareNew_pending he hf]
  cases h : Priority.compareNew e.data.priority f.data.priority <;> simp_all

theorem request_outranked {owned : List (Entry (Owned B))} {priority : P} (he : hasLock e = true) :
    (reading B P).request owned (flag (outranked priority) e) =
      FairLock.outranked B.evict priority ((reading B P).request owned e) := by
  have hl : e.data.waiter.hasLock = true := he
  cases hB : B.evict
  · simp [flag, outranked, FairLock.outranked, hB]
  · by_cases hp : Priority.compare priority e.data.priority = .gt
    · simp [flag, outranked, FairLock.outranked, reading, Reading.request, SemaphoreWaiter.evict,
        Waiter.evict, Waiter.addFlag, hB, hl, hp]
    · simp [flag, outranked, FairLock.outranked, reading, Reading.request, hB, hl, hp]

end Pools

section Interface

variable {B : Build} {Q P : Type} [Priority P] [PriorityQueue Q (SemaphoreWaiter B P)]

/-- What a result says to its caller, besides the handle. -/
def Result.answer : Result B → Answer
  | .permit _ => .acquired
  | .pending _ => .pending
  | .evicted ready => .evicted ready
  | .unit => .unit
  | _ => .refused

def Result.handle : Result B → Option Handle
  | .permit h | .pending h => some h
  | _ => none

def Op.act (h : Handle) : Act → Op B P
  | .poll => .poll h
  | .cancel => .cancel h
  | .drop => .drop h
  | .evicted => .evicted h

variable (B Q P) in
def interface : Interface (System B Q) P where
  lock s p := (call s (.acquireMany p 1)).bind fun (r, s') => r.handle.map fun h =>
    ((h, r.answer), s')
  act s k h := (call s (Op.act h k)).map fun (r, s') => (r.answer, s')

variable {s s' : System B Q} {r : Result B} {h : Handle}

theorem interface_lock {p : P} (hc : call s (.acquireMany p 1) = some (r, s'))
    (hr : r.handle = some h) : (interface B Q P).lock s p = some ((h, r.answer), s') := by
  change (call s (.acquireMany p 1)).bind _ = _
  rw [hc]
  simp [hr]

theorem interface_act {k : Act} (hc : call s (Op.act h k : Op B P) = some (r, s')) :
    (interface B Q P).act s k h = some (r.answer, s') := by
  simp [interface, hc]

end Interface

section Calls

variable {B : Build} {Q P : Type} [Priority P] [LawfulPriority P]
  [PriorityQueue Q (SemaphoreWaiter B P)] [LawfulQueue Q (SemaphoreWaiter B P)]
  {s : System B Q} {p : Pool B P}

/-- The entries of a semaphore with one permit, read as requests. -/
structure Single (s : System B Q) (p : Pool B P) : Prop where
  holds : Holds s p
  one : OnePermit p
  sorted : p.Sorted
  owned : ∀ o ∈ s.owned, o.data = .future ∨ o.data = .permit

def Reads (s : System B Q) (q : List (Request Handle P)) : Prop :=
  ∃ p, Single s p ∧ q = requests s.owned (p.held ++ p.pending)

omit [LawfulPriority P] in
theorem Reads.start : Reads (System.start (new 1 : SemaphoreInner B Q))
    ([] : List (Request Handle P)) :=
  ⟨Pool.start 1, ⟨Holds.start 1, .free, ⟨.nil, .nil⟩, by simp [System.start]⟩, rfl⟩

omit [LawfulPriority P] in
theorem Single.descending (hs : Single s p) : p.pending.Pairwise fun e f =>
    (Priority.compare e.data.priority f.data.priority).isGE := by
  have hu := hs.holds.view.wf.unlocked
  refine List.Pairwise.imp_of_mem ?_ hs.sorted.pending
  intro e f he hf hge
  rwa [compare_eq ((hu e he).trans (hu f hf).symm)] at hge

omit [LawfulPriority P] in
theorem Single.owned_concat {h : Handle} {d : Owned B} (hs : Single s p)
    (hd : d = .future ∨ d = .permit) :
    ∀ o ∈ s.owned ++ [⟨h, d⟩], o.data = .future ∨ o.data = .permit := by
  intro o ho
  rcases List.mem_append.mp ho with ho | ho
  · exact hs.owned o ho
  · rw [List.mem_singleton.mp ho]
    exact hd

theorem Single.lock [Decisive P] (hB : 2 < B.bits) (hs : Single s p) (priority : P) :
    ∃ h s', (interface B Q P).lock s priority = some ((h, (FairLock.lock B.evict priority h
        (requests s.owned (p.held ++ p.pending))).1), s') ∧
      h ∉ handles (p.held ++ p.pending) ∧
      Reads s' (FairLock.lock B.evict priority h (requests s.owned (p.held ++ p.pending))).2 := by
  obtain ⟨h, acquired, inner, p', hq, hv, ha, hheld, hm⟩ :=
    hs.holds.view.acquire (.many (one_lt_maxPermits hB) : Requests (.acquireMany priority 1) _ _ _)
  have hd := hm.sorted hs.sorted
  have hcall : Semaphore.call s (.acquireMany priority 1) = s.acquire priority 1 .future :=
    if_neg (BitVec.not_le.mpr (one_lt_maxPermits hB))
  have hnew : h ∉ p.arrivals := by
    have hn := hv.wf.nodup
    rw [ha, List.nodup_append_comm] at hn
    exact (List.nodup_cons.mp hn).1
  have ho : h ∉ handles s.owned := hs.holds.arrivals ▸ hnew
  have hl : h ∉ handles (p.held ++ p.pending) := fun hm =>
    hnew (hs.holds.view.wf.perm.mem_iff.mp hm)
  have hwf := hs.holds.view.wf
  obtain ⟨hone, ⟨x, hh, hp, hr, hh', hp'⟩ | ⟨x, e, hh, hr, hh', hplace⟩⟩ :=
    hs.one.acquire hm (by simp [ha])
  · cases acquired with
    | false => cases hr
    | true =>
      obtain rfl : h = x := Result.permit.inj hr
      have hc : Semaphore.call s (.acquireMany priority 1) =
          some (.permit h, ⟨inner, s.owned ++ [⟨h, .permit⟩]⟩) := by
        rw [hcall, System.acquire, hq]
        rfl
      refine ⟨h, _, ?_, hl, p', ⟨hs.holds.arrive (d := .permit) hm hv ha fun _ => hheld rfl, hone,
        hd, hs.owned_concat (Or.inr rfl)⟩, ?_⟩
      · rw [interface_lock hc rfl, hh, hp]
        rfl
      · rw [hh, hp, hh', hp']
        simp [Reading.requests, Reading.request, lookup_concat ho, reading, Waiter.new,
          FairLock.lock]
  · cases acquired with
    | true => cases hr
    | false =>
      obtain rfl : h = x := Result.pending.inj hr
      have hc : Semaphore.call s (.acquireMany priority 1) =
          some (.pending h, ⟨inner, s.owned ++ [⟨h, .future⟩]⟩) := by
        rw [hcall, System.acquire, hq]
        rfl
      refine ⟨h, _, ?_, hl, p', ⟨hs.holds.arrive hm hv ha (by simp), hone, hd,
        hs.owned_concat (Or.inl rfl)⟩, ?_⟩
      · rw [interface_lock hc rfl, hh]
        rfl
      · have he : hasLock e = true := hwf.locked e (by simp [hh])
        have hne : (flag (outranked priority) e).handle ≠ h := by
          rintro rfl
          simp [hh] at hl
        have hreq :
            (reading B P).request (s.owned ++ [⟨h, .future⟩]) (flag (outranked priority) e) =
            FairLock.outranked B.evict priority ((reading B P).request s.owned e) :=
          (Reading.request_concat hne).trans (request_outranked he)
        have hplace' := (reading B P).requests_placed (o := Owned.future) hplace
          (fun f hf => compareNew_single rfl (hwf.unlocked f hf)) hs.descending ho
          fun hm => hl (by simp [hm])
        rw [hh, hh']
        exact (congrArg₂ List.cons hreq hplace').symm

omit [LawfulPriority P] in
theorem Single.owned_without {h : Handle} (hs : Single s p) :
    ∀ o ∈ without s.owned h, o.data = .future ∨ o.data = .permit :=
  fun o ho => hs.owned o (mem_without.mp ho).1

theorem Single.depart {op : Op B P} {r : Result B} {p' : Pool B P} {h : Handle} {s' : System B Q}
    (hB : 2 < B.bits) (hs : Single s p) (hop : op = .cancel h ∨ op = .drop h) (hm : Moves op r p p')
    (hs' : Holds s' p') (ho : s'.owned = without s.owned h) (hh : h ∈ p.arrivals) :
    Reads s' (FairLock.leave h (requests s.owned (p.held ++ p.pending))) := by
  have ha : h ∉ p'.arrivals := by
    rw [hs'.arrivals, ho, handles_without]
    simp
  obtain ⟨hone, hr⟩ := hs.one.drop hB hs.holds.view.wf hop hm hh ha s'.owned
  refine ⟨p', ⟨hs', hone, hm.sorted hs.sorted, ?_⟩, ?_⟩
  · rw [ho]
    exact hs.owned_without
  · rw [hr, ho]
    exact Reading.requests_without.symm

omit [LawfulPriority P] in
theorem Single.poll {e : Queued B P} (hs : Single s p) (he : e ∈ p.held ++ p.pending)
    (hl : lookup s.owned e.handle = some ⟨e.handle, .future⟩) :
    (interface B Q P).Acts B.evict Reads s (requests s.owned (p.held ++ p.pending)) .poll
      e.handle := by
  obtain ⟨hh, hone, hsort, hown⟩ := id hs
  have hn := hh.view.wf.nodup_handles
  have hg := LawfulQueue.getByHandle_spec hh.view.rep he
  have hr : ((reading B P).request s.owned e).guard = false := by
    simp [Reading.request, hl, reading]
  cases hone with
  | free => cases he
  | @taken d pending total arrivals hd hpend =>
    rcases List.mem_cons.mp he with rfl | he
    · have hw : e.data.waiter.hasLock = true := hh.view.wf.locked e List.mem_cons_self
      have hc : Semaphore.call s (Op.act e.handle .poll : Op B P) =
          some (.permit e.handle, { s with owned := relabel s.owned e.handle .permit }) := by
        simp [Semaphore.call, Op.act, hl, hg, hw]
      refine Interface.acts (interface_act hc) (Reading.poll_first hr)
        ⟨_, ⟨hh.relabel (by simp), .taken hd hpend, hsort, ?_⟩, ?_⟩
      · intro o ho
        rcases mem_relabel ho with rfl | ho
        · exact Or.inr rfl
        · exact hown o ho
      · exact (Reading.requests_relabel (mem_handles (mem_of_lookup hl).1) rfl).symm
    · have hw : e.data.waiter.hasLock = false := hh.view.wf.unlocked e he
      have hc : Semaphore.call s (Op.act e.handle .poll : Op B P) =
          some (.pending e.handle, s) := by simp [Semaphore.call, Op.act, hl, hg, hw]
      exact Interface.acts (interface_act hc) (Reading.poll_behind hn he hr) ⟨_, hs, rfl⟩

omit [LawfulPriority P] in
theorem Single.release {e : Queued B P} {r : Result B} {s' : System B Q} (hB : 2 < B.bits)
    (hs : Single s p) (he : e ∈ p.held) (hc : s.release e.handle .unit = some (r, s')) :
    r = .unit := by
  obtain ⟨⟨⟨hr, -, ha, -, -⟩, -, -⟩, hone, -, -⟩ := hs
  cases hone with
  | free => cases he
  | taken hd =>
    obtain rfl := List.mem_singleton.mp he
    have hf : Fits B s.inner.available (count e) := by
      have hlt := Nat.one_lt_two_pow B.bits_pos.ne'
      rw [ha, count_one hB hd]
      refine Or.inr ?_
      rw [toNat_one]
      exact (Nat.zero_add 1).symm ▸ hlt
    obtain ⟨q', -, hq⟩ := dropPermit_spec (a := []) hr
    rw [if_pos hf] at hq
    rw [System.release, hq, Option.map_map] at hc
    obtain ⟨t, -, ht⟩ := Option.map_eq_some_iff.mp hc
    exact (Prod.mk.inj ht).1.symm

theorem Single.act (hB : 2 < B.bits) (hs : Single s p) (k : Act) {h : Handle}
    (hh : h ∈ handles (p.held ++ p.pending)) : (interface B Q P).Acts B.evict Reads s
      (requests s.owned (p.held ++ p.pending)) k h := by
  have ha := hs.holds.view.wf.perm.mem_iff.mp hh
  have hn := hs.holds.view.wf.nodup_handles
  obtain ⟨e, he, rfl⟩ := List.mem_map.mp hh
  obtain ⟨⟨x, d⟩, ho, hoe⟩ := List.mem_map.mp (hs.holds.arrivals ▸ ha)
  obtain rfl : x = e.handle := hoe
  have hl : lookup s.owned e.handle = some ⟨e.handle, d⟩ := lookup_of_mem hs.holds.nodup_owned ho
  have hf := (reading B P).find_requests s.owned hn he
  have hg := LawfulQueue.getByHandle_spec hs.holds.view.rep he
  have hr : ((reading B P).request s.owned e).guard = (d = .permit : Bool) := by
    simp [Reading.request, hl, reading]
  have hsame : Reads s (requests s.owned (p.held ++ p.pending)) := ⟨p, hs, rfl⟩
  rcases hs.owned _ ho with rfl | rfl
  · cases k with
    | poll => exact hs.poll he hl
    | cancel =>
      obtain ⟨r, s', p', hc, hs', hm⟩ := hs.holds.abandon (.cancel e.handle) ha rfl .unit
      obtain ⟨rfl, hown⟩ := System.abandon_eq hc
      have hc' : Semaphore.call s (Op.act e.handle .cancel : Op B P) = some (.unit, s') := by
        simp [Semaphore.call, Op.act, hl, hc]
      exact Interface.acts (interface_act hc') (by simp [FairLock.act, hf, hr, Result.answer])
        (hs.depart hB (Or.inl rfl) hm hs' hown ha)
    | drop =>
      have hc : Semaphore.call s (Op.act e.handle .drop : Op B P) = some (.refused, s) := by
        simp [Semaphore.call, Op.act, hl]
      exact Interface.acts (interface_act hc) (by simp [FairLock.act, hf, hr, Result.answer]) hsame
    | evicted =>
      have hc : Semaphore.call s (Op.act e.handle .evicted : Op B P) = some (.refused, s) := by
        cases hE : B.evict <;> simp [Semaphore.call, Op.act, hl, hE]
      exact Interface.acts (interface_act hc) (by simp [FairLock.act, hf, hr, Result.answer]) hsame
  · cases k with
    | drop =>
      have hheld := hs.holds.permits _ ho rfl
      obtain ⟨f, hf', hfe⟩ := List.mem_map.mp hheld
      obtain ⟨r, s', p', hc, hs', hm⟩ := hs.holds.release (.drop e.handle) hheld rfl .unit
      obtain rfl : r = .unit := hs.release hB hf' (hfe ▸ hc)
      have hc' : Semaphore.call s (Op.act e.handle .drop : Op B P) = some (.unit, s') := by
        simp [Semaphore.call, Op.act, hl, hc]
      exact Interface.acts (interface_act hc') (by simp [FairLock.act, hf, hr, Result.answer])
        (hs.depart hB (Or.inr rfl) hm hs' (System.release_owned hc) ha)
    | poll =>
      have hc : Semaphore.call s (Op.act e.handle .poll : Op B P) = some (.refused, s) := by
        simp [Semaphore.call, Op.act, hl]
      exact Interface.acts (interface_act hc) (by simp [FairLock.act, hf, hr, Result.answer]) hsame
    | cancel =>
      have hc : Semaphore.call s (Op.act e.handle .cancel : Op B P) = some (.refused, s) := by
        simp [Semaphore.call, Op.act, hl]
      exact Interface.acts (interface_act hc) (by simp [FairLock.act, hf, hr, Result.answer]) hsame
    | evicted =>
      cases hE : B.evict with
      | false =>
        have hc : Semaphore.call s (Op.act e.handle .evicted : Op B P) = some (.refused, s) := by
          simp [Semaphore.call, Op.act, hE]
        exact Interface.acts (interface_act hc) (by simp [FairLock.act, hf, hr, Result.answer])
          hsame
      | true =>
        have hc : Semaphore.call s (Op.act e.handle .evicted : Op B P) =
            some (.evicted e.data.waiter.wantsEvict, s) := by
          simp [Semaphore.call, Op.act, hE, hl, hg]
        exact Interface.acts (interface_act hc) (by simp [FairLock.act, hf, hr, Result.answer]; rfl)
          hsame

/-- A semaphore with one permit does on its handles what the lock does. -/
theorem implements [Decisive P] (hB : 2 < B.bits) : Implements (interface B Q P) B.evict Reads where
  nodup := by
    rintro s q ⟨p, hs, rfl⟩
    rw [Reading.clients_requests]
    exact hs.holds.view.wf.nodup_handles
  lock := by
    rintro s q priority ⟨p, hs, rfl⟩
    rw [Reading.clients_requests]
    exact hs.lock hB priority
  act := by
    rintro s q k h ⟨p, hs, rfl⟩ hh
    rw [Reading.clients_requests] at hh
    exact hs.act hB k hh

end Calls

/-- Over any builtin queues, whose handles may differ, a semaphore with one permit gives the answers
of a mutex to every sequence of calls. -/
theorem one_permit_mutex (k k' : QueueKind) {B : Build} (hB : 2 < B.bits) {P : Type} [Priority P]
    [LawfulPriority P] [Decisive P] (ops : List (FairLock.Op P)) :
    trace (Numbered.call (interface B (k.Queue (SemaphoreWaiter B P)) P))
        (Numbered.start (System.start (new 1))) ops =
      trace (Numbered.call (Mutex.interface (k'.Queue (MutexWaiter P)) P B.evict))
        (Numbered.start (Mutex.System.start Mutex.new)) ops :=
  ((implements hB).trace_eq Reads.start ops).trans
    ((Mutex.implements B.evict).trace_eq Mutex.Reads.start ops).symm

theorem one_permit_mutex_evicting :
    trace (Numbered.call (interface Build.full
        (QueueKind.dualArena.Queue (SemaphoreWaiter Build.full (LIFO ℕ))) (LIFO ℕ)))
        (Numbered.start (System.start (new 1)))
        [.lock ⟨1⟩, .lock ⟨2⟩, .act .evicted 0, .act .drop 0, .act .poll 1] =
      trace (Numbered.call (Mutex.interface (QueueKind.singleBox.Queue (MutexWaiter (LIFO ℕ)))
        (LIFO ℕ) true)) (Numbered.start (Mutex.System.start Mutex.new))
        [.lock ⟨1⟩, .lock ⟨2⟩, .act .evicted 0, .act .drop 0, .act .poll 1] :=
  one_permit_mutex .dualArena .singleBox (by decide) _

end PriorityLock.Semaphore
