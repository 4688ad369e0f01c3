import PriorityLock.Semaphore.Functions

/-! # The semaphore refines the pool

A system holds a pool when its callers own the pool's entries. A call on such a
system is defined, and leaves one that holds a moved pool.
-/

namespace PriorityLock.Semaphore

open Placement PriorityQueue

variable {B : Build} {Q P : Type} [Priority P] [PriorityQueue Q (SemaphoreWaiter B P)]
  [LawfulQueue Q (SemaphoreWaiter B P)] {q : Q} {s : SemaphoreInner B Q} {e : Queued B P}
  {a b c held pending rest skipped : List (Queued B P)}

/-- A system holds a pool: the callers own its entries, and permits are held. -/
structure Holds (s : System B Q) (p : Pool B P) : Prop where
  view : View s.inner p
  arrivals : p.arrivals = handles s.owned
  permits : ∀ o ∈ s.owned, o.data = .permit → o.handle ∈ handles p.held

section Calls

variable {op : Op B P} {r : Result B} {p p' : Pool B P} {h h' : Handle} {d : Owned B}
  {s : System B Q} {inner : SemaphoreInner B Q}

omit [LawfulQueue Q (SemaphoreWaiter B P)] in
theorem System.acquire_eq {priority : P} {word : Usize B} {s' : System B Q}
    (hc : s.acquire priority word d = some (r, s')) : ∃ x,
    r = .permit x ∧ s'.owned = s.owned ++ [⟨x, .permit⟩] ∨
      r = .pending x ∧ s'.owned = s.owned ++ [⟨x, d⟩] := by
  obtain ⟨⟨⟨x, acquired⟩, inner⟩, -, heq⟩ := Option.map_eq_some_iff.mp hc
  cases acquired with
  | true =>
    obtain ⟨rfl, rfl⟩ := Prod.mk.inj heq
    exact ⟨x, Or.inl ⟨rfl, rfl⟩⟩
  | false =>
    obtain ⟨rfl, rfl⟩ := Prod.mk.inj heq
    exact ⟨x, Or.inr ⟨rfl, rfl⟩⟩

omit [Priority P] [LawfulQueue Q (SemaphoreWaiter B P)] in
theorem System.abandon_eq {result : Result B} {s' : System B Q}
    (hc : s.abandon h result = some (r, s')) : r = result ∧ s'.owned = without s.owned h := by
  obtain ⟨inner, -, heq⟩ := Option.map_eq_some_iff.mp hc
  obtain ⟨rfl, rfl⟩ := Prod.mk.inj heq
  exact ⟨rfl, rfl⟩

omit [Priority P] [LawfulQueue Q (SemaphoreWaiter B P)] in
theorem System.release_owned {result : Result B} {s' : System B Q}
    (hc : s.release h result = some (r, s')) : s'.owned = without s.owned h := by
  obtain ⟨⟨panic | ⟨⟩, inner⟩, -, heq⟩ := Option.map_eq_some_iff.mp hc
  all_goals
    obtain ⟨-, rfl⟩ := Prod.mk.inj heq
    rfl

def Pool.start (capacity : Usize B) : Pool B P := ⟨[], [], capacity, capacity, []⟩

theorem Holds.start (capacity : Usize B) :
    Holds (System.start (new capacity : SemaphoreInner B Q)) (Pool.start capacity) where
  view := ⟨LawfulQueue.rep_default, rfl, rfl, ⟨by simp [Pool.start], by simp [Pool.start], .nil,
    .nil⟩, fun _ => by simp [Pool.Conserved, Pool.start]⟩
  arrivals := rfl
  permits := by simp [System.start]

theorem Holds.arrive (hs : Holds s p) (hm : Moves op r p p') (hv : View inner p')
    (ha : p'.arrivals = p.arrivals ++ [h]) (hd : d = .permit → h ∈ handles p'.held) :
    Holds ⟨inner, s.owned ++ [⟨h, d⟩]⟩ p' := by
  have ha' : p'.arrivals = handles (s.owned ++ [⟨h, d⟩]) := by simp [ha, hs.arrivals]
  refine ⟨hv, ha', ?_⟩
  intro o ho hp
  rcases List.mem_append.mp ho with ho' | ho'
  · exact hm.held_stays (hs.permits o ho' hp) (ha' ▸ mem_handles ho)
  · rw [List.mem_singleton.mp ho'] at hp ⊢
    exact hd hp

theorem Holds.depart (hs : Holds s p) (hm : Moves op r p p') (hv : View inner p')
    (ha : p'.arrivals = p.arrivals.filter (· ≠ h)) : Holds ⟨inner, without s.owned h⟩ p' := by
  have ha' : p'.arrivals = handles (without s.owned h) := by rw [ha, hs.arrivals, handles_without]
  refine ⟨hv, ha', ?_⟩
  intro o ho hp
  exact hm.held_stays (hs.permits o (mem_without.mp ho).1 hp) (ha' ▸ mem_handles ho)

theorem Holds.stay (hs : Holds s p) (hm : Moves op r p p') (hv : View inner p')
    (ha : p'.arrivals = p.arrivals) : Holds { s with inner } p' := by
  have ha' : p'.arrivals = handles s.owned := ha.trans hs.arrivals
  exact ⟨hv, ha', fun o ho hp => hm.held_stays (hs.permits o ho hp) (ha' ▸ mem_handles ho)⟩

theorem Holds.relabel (hs : Holds s p) (hd : d = .permit → h ∈ handles p.held) :
    Holds { s with owned := relabel s.owned h d } p := by
  refine ⟨hs.view, by rw [handles_relabel]; exact hs.arrivals, ?_⟩
  intro o ho hp
  rcases mem_relabel ho with rfl | ho
  · exact hd hp
  · exact hs.permits o ho hp

theorem Holds.held_of_lookup (hs : Holds s p) (ho : lookup s.owned h = some ⟨h', .permit⟩) :
    h ∈ handles p.held := by
  obtain ⟨hm, rfl⟩ := mem_of_lookup ho
  exact hs.permits _ hm rfl

theorem Holds.mem_of_lookup (hs : Holds s p) (ho : lookup s.owned h = some ⟨h', d⟩) :
    h ∈ p.arrivals := by
  obtain ⟨hm, rfl⟩ := PriorityLock.mem_of_lookup ho
  rw [hs.arrivals]
  exact mem_handles hm

theorem Holds.nodup_owned (hs : Holds s p) : (handles s.owned).Nodup := by
  rw [← hs.arrivals]
  exact hs.view.wf.nodup

theorem Holds.mem_owned (hs : Holds s p) :
    h ∈ handles s.owned ↔ h ∈ handles (p.held ++ p.pending) := by
  rw [← hs.arrivals]
  exact hs.view.wf.perm.mem_iff.symm

def Simulated (s : System B Q) (p : Pool B P) (op : Op B P) : Prop :=
  ∃ r s' p', call s op = some (r, s') ∧ Holds s' p' ∧ Moves op r p p'

theorem Holds.unchanged (hs : Holds s p) (hop : op.request = none) (r : Result B)
    (hc : call s op = some (r, s)) : Simulated s p op :=
  ⟨r, s, p, hc, hs, .same hop⟩

theorem Holds.acquire {priority : P} {n word : Usize B} (hs : Holds s p) (d : Owned B)
    (hd : d ≠ .permit) (hreq : Requests op priority n word) : ∃ r s' p',
    s.acquire priority word d = some (r, s') ∧ Holds s' p' ∧ Moves op r p p' ∧
      ∃ h, p'.arrivals = p.arrivals ++ [h] := by
  obtain ⟨h, acquired, inner, p', hq, hv, ha, hheld, hm⟩ := hs.view.acquire hreq
  cases acquired with
  | true =>
    exact ⟨.permit h, _, p', by simp [System.acquire, hq],
      hs.arrive (d := .permit) hm hv ha fun _ => hheld rfl, hm, h, ha⟩
  | false =>
    exact ⟨.pending h, _, p', by simp [System.acquire, hq],
      hs.arrive hm hv ha fun h => absurd h hd, hm, h, ha⟩

theorem Holds.release (hs : Holds s p) (op : Op B P) (hh : h ∈ handles p.held)
    (hop : op.drops = some h) (result : Result B) : ∃ r s' p',
    s.release h result = some (r, s') ∧ Holds s' p' ∧ Moves op r p p' := by
  obtain ⟨r, inner, p', hq, hv, ha, hm⟩ := hs.view.dropPermit hh hop
  rcases r with panic | ⟨⟩
  · have hm' : Moves op (.panicked panic) p p' := hm result
    exact ⟨_, _, p', by simp [System.release, hq], hs.depart hm' hv ha, hm'⟩
  · have hm' : Moves op result p p' := hm result
    exact ⟨_, _, p', by simp [System.release, hq], hs.depart hm' hv ha, hm'⟩

theorem Holds.abandon (hs : Holds s p) (op : Op B P) (hh : h ∈ p.arrivals)
    (hop : op.drops = some h) (result : Result B) : ∃ r s' p',
    s.abandon h result = some (r, s') ∧ Holds s' p' ∧ Moves op r p p' := by
  obtain ⟨inner, p', hq, hv, ha, hm⟩ := hs.view.dropWaiter hh hop result
  exact ⟨result, _, p', by simp [System.abandon, hq], hs.depart hm hv ha, hm⟩

theorem Holds.entry (hs : Holds s p) (hh : h ∈ p.arrivals) : ∃ e ∈ p.held ++ p.pending,
    e.handle = h ∧ getByHandle s.inner.queue h = some e.data := by
  obtain ⟨e, he, rfl⟩ := List.mem_map.mp (hs.view.wf.perm.mem_iff.mpr hh)
  exact ⟨e, he, rfl, LawfulQueue.getByHandle_spec hs.view.rep he⟩

theorem Holds.held_of_hasLock (hs : Holds s p) (he : e ∈ p.held ++ p.pending)
    (hl : hasLock e = true) : e.handle ∈ handles p.held := by
  rcases List.mem_append.mp he with he | he
  · exact mem_handles he
  · simp [hs.view.wf.unlocked e he] at hl

theorem Holds.poll_granted (hs : Holds s p) (he : e ∈ p.held ++ p.pending)
    (hl : hasLock e = true) (hc : Semaphore.call s (.poll e.handle) = some (.permit e.handle,
      { s with owned := PriorityLock.relabel s.owned e.handle .permit })) :
    Simulated s p (.poll e.handle) :=
  ⟨_, _, p, hc, hs.relabel fun _ => hs.held_of_hasLock he hl, .same rfl⟩

theorem Holds.poll (hs : Holds s p) (h : Handle) : Simulated s p (.poll h) := by
  rcases ho : lookup s.owned h with _ | ⟨h', _ | n | n | _⟩
  case some.future =>
    obtain ⟨e, he, rfl, hg⟩ := hs.entry (hs.mem_of_lookup ho)
    cases hl : e.data.waiter.hasLock with
    | true =>
      exact hs.poll_granted he hl (by simp [Semaphore.call, ho, hg, hl])
    | false => exact hs.unchanged rfl (.pending e.handle) (by simp [Semaphore.call, ho, hg, hl])
  case some.futureWithinTotal =>
    obtain ⟨e, he, rfl, hg⟩ := hs.entry (hs.mem_of_lookup ho)
    cases hl : e.data.waiter.hasLock with
    | true =>
      exact hs.poll_granted he hl (by simp [Semaphore.call, ho, hg, hl])
    | false =>
      cases hw : e.data.waiter.wantsEvict with
      | true =>
        exact ⟨.rejected,
          { s with owned := PriorityLock.relabel s.owned e.handle (.rejected n) }, p,
          by simp [Semaphore.call, ho, hg, hl, hw], hs.relabel (fun h => nomatch h), .same rfl⟩
      | false =>
        exact hs.unchanged rfl (.pending e.handle) (by simp [Semaphore.call, ho, hg, hl, hw])
  all_goals exact hs.unchanged rfl .refused (by simp [Semaphore.call, ho])

theorem Holds.split (hs : Holds s p) (op : Op B P) (hh : h ∈ handles p.held) (n : Usize B)
    {f : P → P} (hop : ∀ e ∈ p.held, e.handle = h →
      op = .split h n ∧ f e.data.priority = e.data.priority ∨
        op = .splitWithPriority h n (f e.data.priority)) : ∃ r s' p',
    (splitOff f s.inner h n).map s.splitResult = some (r, s') ∧ Holds s' p' ∧ Moves op r p p' ∧
      ((∃ e ∈ p.held, e.handle = h ∧ n < count e) →
        ∃ h' ∈ handles p'.held, p'.arrivals = p.arrivals ++ [h']) := by
  have hnone : op.request = none := by
    obtain ⟨e, he, rfl⟩ := List.mem_map.mp hh
    rcases hop e he rfl with ⟨rfl, -⟩ | rfl <;> rfl
  obtain ⟨r, inner, p', hq, hv, hr⟩ := hs.view.splitOff hh hop
  rcases r with err | h'
  · obtain ⟨rfl, hle⟩ := hr
    refine ⟨.insufficient err, ⟨inner, s.owned⟩, p', by simp [hq, System.splitResult],
      ⟨hv, hs.arrivals, hs.permits⟩, .same hnone, ?_⟩
    rintro ⟨e, he, rfl, hlt⟩
    exact absurd hlt (BitVec.not_lt.mpr (hle e he rfl))
  · obtain ⟨ha, hheld, hm⟩ := hr
    exact ⟨.permit h', _, p', by simp [hq, System.splitResult],
      hs.arrive (d := .permit) hm hv ha fun _ => hheld, hm, fun _ => ⟨h', hheld, ha⟩⟩

theorem Holds.merge (hs : Holds s p) (h o : Handle) : Simulated s p (.merge h o) := by
  rcases hh : lookup s.owned h with _ | ⟨h₁, _ | _ | _ | _⟩
  case some.permit =>
    rcases ho : lookup s.owned o with _ | ⟨h₂, _ | _ | _ | _⟩
    case some.permit =>
      by_cases hne : h = o
      · exact hs.unchanged rfl .refused (by simp [Semaphore.call, ho, hne])
      have hheld := hs.held_of_lookup hh
      have hheld' := hs.held_of_lookup ho
      obtain ⟨ok, inner, p', hq, hv, hr⟩ := hs.view.merge hheld hheld' hne
      cases ok with
      | true =>
        obtain ⟨ha, hm⟩ := hr
        exact ⟨.merged true, _, p', by simp [Semaphore.call, hh, ho, hne, hq],
          hs.depart hm hv ha, hm⟩
      | false =>
        -- the other permit is dropped on the way out
        obtain rfl := hr
        have hs' : Holds { s with inner } p' := ⟨hv, hs.arrivals, hs.permits⟩
        obtain ⟨r, s', p'', hr, hs'', hm⟩ := hs'.release (.merge h o) hheld' rfl (.merged false)
        exact ⟨r, s', p'', by simpa [Semaphore.call, hh, ho, hne, hq] using hr, hs'', hm⟩
    all_goals exact hs.unchanged rfl .refused (by simp [Semaphore.call, hh, ho])
  all_goals exact hs.unchanged rfl .refused (by simp [Semaphore.call, hh])

/-- Every call is defined, and moves the pool. -/
theorem Holds.call (hs : Holds s p) (op : Op B P) : Simulated s p op := by
  cases op with
  | acquireMany priority n =>
    by_cases hn : maxPermits B ≤ n
    · have hm : Moves (.acquireMany priority n) (.panicked (.tooMany n)) p p :=
        .unchanged fun _ _ h => ⟨by simp, Or.inl (by cases h; exact hn)⟩
      exact ⟨_, s, p, by simp [Semaphore.call, hn], hs, hm⟩
    · obtain ⟨r, s', p', hc, hs', hm, -⟩ :=
        hs.acquire .future (by simp) (.many (BitVec.not_le.mp hn))
      exact ⟨r, s', p', by simp [Semaphore.call, hn, hc], hs', hm⟩
  | acquireWithinTotal priority n =>
    cases hB : B.semaphoreTotal with
    | false =>
      have hm : Moves (.acquireWithinTotal priority n) .refused p p :=
        .unchanged fun _ _ _ => ⟨by simp, Or.inr (Or.inl hB)⟩
      exact ⟨_, s, p, by simp [Semaphore.call, hB], hs, hm⟩
    | true =>
      by_cases hn : maxPermits B ≤ n
      · have hm : Moves (.acquireWithinTotal priority n) (.panicked (.tooMany n)) p p :=
          .unchanged fun _ _ h => ⟨by simp, Or.inl (by cases h; exact hn)⟩
        exact ⟨_, s, p, by simp [Semaphore.call, hB, hn], hs, hm⟩
      by_cases ht : s.inner.total < n
      · have ht' : p.total < n := by
          rw [← hs.view.total]
          exact ht
        have hm : Moves (.acquireWithinTotal priority n) (.insufficient ⟨s.inner.total, n⟩) p p :=
          .unchanged fun _ _ h => ⟨by simp, Or.inr (Or.inr (by cases h; exact ht'))⟩
        exact ⟨_, s, p, by simp [Semaphore.call, hB, hn, ht], hs, hm⟩
      · obtain ⟨r, s', p', hc, hs', hm, -⟩ :=
          hs.acquire (.futureWithinTotal n) (by simp) (.withinTotal hB (BitVec.not_le.mp hn))
        exact ⟨r, s', p', by simp [Semaphore.call, hB, hn, ht, hc], hs', hm⟩
  | poll h => exact hs.poll h
  | finish h =>
    rcases ho : lookup s.owned h with _ | ⟨h', _ | n | n | _⟩
    case some.rejected =>
      obtain ⟨r, s', p', hc, hs', hm⟩ := hs.abandon (.finish h) (hs.mem_of_lookup ho) rfl
        (.insufficient ⟨BitVec.allOnes B.bits, n⟩)
      exact ⟨r, s', p', by simp [Semaphore.call, ho, hc], hs', hm⟩
    all_goals exact hs.unchanged rfl .refused (by simp [Semaphore.call, ho])
  | cancel h =>
    rcases ho : lookup s.owned h with _ | ⟨h', _ | n | n | _⟩
    case some.future | some.futureWithinTotal =>
      obtain ⟨r, s', p', hc, hs', hm⟩ := hs.abandon (.cancel h) (hs.mem_of_lookup ho) rfl .unit
      exact ⟨r, s', p', by simp [Semaphore.call, ho, hc], hs', hm⟩
    all_goals exact hs.unchanged rfl .refused (by simp [Semaphore.call, ho])
  | drop h =>
    rcases ho : lookup s.owned h with _ | ⟨h', _ | _ | _ | _⟩
    case some.permit =>
      obtain ⟨r, s', p', hc, hs', hm⟩ := hs.release (.drop h) (hs.held_of_lookup ho) rfl .unit
      exact ⟨r, s', p', by simp [Semaphore.call, ho, hc], hs', hm⟩
    all_goals exact hs.unchanged rfl .refused (by simp [Semaphore.call, ho])
  | forget h =>
    rcases ho : lookup s.owned h with _ | ⟨h', _ | _ | _ | _⟩
    case some.permit =>
      obtain ⟨inner, p', hq, hv, ha, hm⟩ := hs.view.forget (hs.held_of_lookup ho)
      exact ⟨.unit, _, p', by simp [Semaphore.call, ho, hq], hs.depart hm hv ha, hm⟩
    all_goals exact hs.unchanged rfl .refused (by simp [Semaphore.call, ho])
  | split h n =>
    rcases ho : lookup s.owned h with _ | ⟨h', _ | _ | _ | _⟩
    case some.permit =>
      by_cases hn : n = 0
      · exact hs.unchanged rfl (.panicked (.notPositive n)) (by simp [Semaphore.call, ho, hn])
      · obtain ⟨r, s', p', hc, hs', hm, -⟩ := hs.split (.split h n) (f := id)
          (hs.held_of_lookup ho) n fun _ _ _ => Or.inl ⟨rfl, rfl⟩
        exact ⟨r, s', p', by simp only [Semaphore.call, ho, hn, if_false]; exact hc, hs', hm⟩
    all_goals exact hs.unchanged rfl .refused (by simp [Semaphore.call, ho])
  | splitWithPriority h n priority =>
    rcases ho : lookup s.owned h with _ | ⟨h', _ | _ | _ | _⟩
    case some.permit =>
      by_cases hn : n = 0
      · exact hs.unchanged rfl (.panicked (.notPositive n)) (by simp [Semaphore.call, ho, hn])
      · obtain ⟨r, s', p', hc, hs', hm, -⟩ := hs.split (.splitWithPriority h n priority)
          (f := fun _ => priority) (hs.held_of_lookup ho) n fun _ _ _ => Or.inr rfl
        exact ⟨r, s', p', by simp only [Semaphore.call, ho, hn, if_false]; exact hc, hs', hm⟩
    all_goals exact hs.unchanged rfl .refused (by simp [Semaphore.call, ho])
  | merge h o => exact hs.merge h o
  | mergeForeign h =>
    rcases ho : lookup s.owned h with _ | ⟨h', _ | _ | _ | _⟩
    case some.permit => exact hs.unchanged rfl (.merged false) (by simp [Semaphore.call, ho])
    all_goals exact hs.unchanged rfl .refused (by simp [Semaphore.call, ho])
  | mergeIntoForeign h =>
    rcases ho : lookup s.owned h with _ | ⟨h', _ | _ | _ | _⟩
    case some.permit =>
      obtain ⟨r, s', p', hc, hs', hm⟩ :=
        hs.release (.mergeIntoForeign h) (hs.held_of_lookup ho) rfl (.merged false)
      exact ⟨r, s', p', by simp [Semaphore.call, ho, hc], hs', hm⟩
    all_goals exact hs.unchanged rfl .refused (by simp [Semaphore.call, ho])
  | tryAddPermits n =>
    obtain ⟨r, inner, p', hq, hv, ha, hm, -⟩ := hs.view.tryAddPermits n
    exact ⟨.added r, _, p', by simp [Semaphore.call, hq], hs.stay hm hv ha, hm⟩
  | addPermits n =>
    obtain ⟨r, inner, p', hq, hv, ha, -, hm⟩ := hs.view.tryAddPermits n
    cases r with
    | none => exact ⟨_, _, p', by simp [Semaphore.call, hq], hs.stay hm hv ha, hm⟩
    | some m => exact ⟨_, _, p', by simp [Semaphore.call, hq], hs.stay hm hv ha, hm⟩
  | forgetPermits m =>
    obtain ⟨n, inner, p', hq, hv, ha, hm⟩ := hs.view.forgetPermits m
    exact ⟨.count n, _, p', by simp [Semaphore.call, hq], hs.stay hm hv ha, hm⟩
  | evicted h =>
    cases hE : B.evict with
    | false => exact hs.unchanged rfl .refused (by simp [Semaphore.call, hE])
    | true =>
      rcases ho : lookup s.owned h with _ | ⟨h', _ | _ | _ | _⟩
      case some.permit =>
        obtain ⟨e, he, rfl, hg⟩ := hs.entry (hs.mem_of_lookup ho)
        exact hs.unchanged rfl (.evicted e.data.waiter.wantsEvict)
          (by simp [Semaphore.call, hE, ho, hg])
      all_goals exact hs.unchanged rfl .refused (by simp [Semaphore.call, hE, ho])
  | permits h =>
    rcases ho : lookup s.owned h with _ | ⟨h', _ | _ | _ | _⟩
    case some.permit =>
      obtain ⟨e, he, rfl, hg⟩ := hs.entry (hs.mem_of_lookup ho)
      exact hs.unchanged rfl (.count e.data.count) (by simp [Semaphore.call, ho, hg])
    all_goals exact hs.unchanged rfl .refused (by simp [Semaphore.call, ho])
  | availablePermits => exact hs.unchanged rfl (.count s.inner.available) rfl
  | totalPermits =>
    cases hB : B.semaphoreTotal with
    | false => exact hs.unchanged rfl .refused (by simp [Semaphore.call, hB])
    | true => exact hs.unchanged rfl (.count s.inner.total) (by simp [Semaphore.call, hB])

end Calls

end PriorityLock.Semaphore
