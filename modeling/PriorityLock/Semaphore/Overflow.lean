import PriorityLock.Semaphore.Guards
import PriorityLock.Semaphore.Stalls
import PriorityLock.Transition.History

/-! # Releases at the end of the range

Without a total the permits of a semaphore may outgrow a word. A permit that is
dropped checks its addition and panics instead; a future that was granted its
permits and is dropped before it returns them adds without a check.
-/

namespace PriorityLock.Semaphore

open Placement Transition PriorityQueue

variable {B : Build} {Q P : Type} {op : Op B P} {r result : Result B} {p p' : Pool B P}
  {e : Queued B P} {l l' : List (Queued B P)} {h : Handle} {available : Usize B}

section Moves

/-- Once an entry has left, what is available and what waiters are granted make up a sum. -/
def GivenBack (available : Usize B) (l l' : List (Queued B P)) (h : Handle) (sum : ℕ) : Prop :=
  ∃ granted : List (Queued B P), granted.Sublist (waiting l) ∧
    (l'.filter hasLock).Perm
      (granted.map (fun g => ⟨g.handle, g.data.start⟩) ++ without (l.filter hasLock) h) ∧
    available.toNat + permits granted = sum

theorem permits_start (l : List (Queued B P)) :
    permits (l.map fun g => ⟨g.handle, g.data.start⟩) = permits l := by
  rw [permits, List.map_map]
  rfl

theorem GivenBack.unique {m n : ℕ} (h₁ : GivenBack available l l' h m)
    (h₂ : GivenBack available l l' h n) : m = n := by
  obtain ⟨g₁, -, hp₁, rfl⟩ := h₁
  obtain ⟨g₂, -, hp₂, rfl⟩ := h₂
  have hsum := permits_perm (hp₁.symm.trans hp₂)
  simp only [permits_append, permits_start] at hsum
  omega

variable [Priority P]

/-- The entries that a walk grants their permits join those that have some. -/
theorem Activates.granted {held skipped rest held' pending' : List (Queued B P)}
    {available' : Usize B}
    (h : Activates held skipped rest available held' pending' available') :
    ∃ granted : List (Queued B P), granted.Sublist rest ∧
      held'.Perm (granted.map (fun g => ⟨g.handle, g.data.start⟩) ++ held) ∧
      available'.toNat + Semaphore.permits granted = available.toNat := by
  induction h with
  | finish | stop => exact ⟨[], List.nil_sublist _, .refl _, rfl⟩
  | skip _ _ _ ih =>
    obtain ⟨g, hg, hp, ha⟩ := ih
    exact ⟨g, hg.cons _, hp, ha⟩
  | @grant _ _ _ _ _ _ e _ _ hle hs _ ih =>
    obtain ⟨g, hg, hp, ha⟩ := ih
    refine ⟨e :: g, hg.cons_cons e, ?_, ?_⟩
    · exact hp.trans ((hs.perm.append_left _).trans List.perm_middle)
    · have hsub := toNat_sub_of_le hle
      have hle' := BitVec.le_def.mp hle
      rw [permits_cons]
      omega

theorem Moves.givenBack (hm : Moves op r p p') (hp : p.WF) (he : e ∈ p.held)
    (hop : op.drops = some e.handle) (hA : e.handle ∉ p'.arrivals) (hr : r ≠ .merged true)
    (hnp : ∀ panic, r ≠ .panicked panic) :
    GivenBack p'.available (p.held ++ p.pending) (p'.held ++ p'.pending) e.handle
      (p.available + count e).toNat := by
  have hp' := hm.wf hp
  have hheld := hp.nodup_held
  have hwait : ∀ f ∈ p.pending, f.handle ≠ e.handle := fun f hf hfe =>
    hp.disjoint (hfe ▸ mem_handles he) (mem_handles hf)
  rw [GivenBack, waiting_eq hp.locked hp.unlocked, filter_hasLock hp.locked hp.unlocked,
    filter_hasLock hp'.locked hp'.unlocked]
  cases hm with
  | acquire hreq | enqueue hreq => cases hreq <;> simp [Op.drops] at hop
  | @release _ _ _ _ _ f a b _ _ _ _ hop' hact =>
    obtain rfl : f = e :=
      List.inj_on_of_nodup_map hheld (by simp) he (Option.some.inj (hop'.symm.trans hop))
    obtain ⟨g, hg, hperm, ha⟩ := hact.granted
    exact ⟨g, hg, by rwa [without_middle hheld], ha⟩
  | discard => exact absurd rfl (hnp _)
  | leave hop' | unblock hop' =>
    exact absurd (Option.some.inj (hop'.symm.trans hop)) (hwait _ (by simp))
  | forget | forgetTotal | forgetPermits | forgetPermitsTotal => simp [Op.drops] at hop
  | split hop' => rcases hop' with ⟨rfl, -⟩ | rfl <;> simp [Op.drops] at hop
  | add hop' | addTotal hop' => rcases hop' with ⟨rfl, -⟩ | ⟨rfl, -⟩ <;> simp [Op.drops] at hop
  | merge => exact absurd rfl hr
  | unchanged => exact absurd (hp.perm.mem_iff.mp (by simp [mem_handles he])) hA

end Moves

section Calls

variable [PriorityQueue Q (SemaphoreWaiter B P)] {s s' : System B Q}

def abandons (owned : List (Entry (Owned B))) : Op B P → Option Handle
  | .cancel h => match lookup owned h with
    | some ⟨_, .future⟩ | some ⟨_, .futureWithinTotal _⟩ => some h
    | _ => none
  | .finish h => match lookup owned h with
    | some ⟨_, .rejected _⟩ => some h
    | _ => none
  | _ => none

/-- A call that is not refused drops an entry, and gives back its permits. -/
structure Releases (op : Op B P) (r : Result B) (h : Handle) : Prop where
  drops : op.drops = some h
  done : r ≠ .refused
  kept : r ≠ .merged true

variable [Priority P]

theorem abandons_spec (ha : abandons s.owned op = some h) (hc : call s op = some (r, s')) :
    Releases op r h ∧ (∀ panic, r ≠ .panicked panic) ∧ s'.owned = without s.owned h := by
  cases op with
  | cancel h₁ =>
    rcases ho : lookup s.owned h₁ with _ | ⟨h₂, _ | _ | _ | _⟩
    case some.future | some.futureWithinTotal =>
      obtain rfl : h₁ = h := by simpa [abandons, ho] using ha
      have hq : s.abandon h₁ .unit = some (r, s') := by simpa [call, ho] using hc
      obtain ⟨rfl, hs'⟩ := System.abandon_eq hq
      exact ⟨⟨rfl, by simp, by simp⟩, by simp, hs'⟩
    all_goals simp [abandons, ho] at ha
  | finish h₁ =>
    rcases ho : lookup s.owned h₁ with _ | ⟨h₂, _ | _ | n | _⟩
    case some.rejected =>
      obtain rfl : h₁ = h := by simpa [abandons, ho] using ha
      have hq : s.abandon h₁ (.insufficient ⟨BitVec.allOnes B.bits, n⟩) = some (r, s') := by
        simpa [call, ho] using hc
      obtain ⟨rfl, hs'⟩ := System.abandon_eq hq
      exact ⟨⟨rfl, by simp, by simp⟩, by simp, hs'⟩
    all_goals simp [abandons, ho] at ha
  | _ => simp [abandons] at ha

variable [LawfulQueue Q (SemaphoreWaiter B P)]

theorem Holds.releases_permit (hs : Holds s p) (hc : Semaphore.call s op = some (r, s'))
    (hrel : Releases op r h) (ha : abandons s.owned op = none) : ∃ s₁ result, Holds s₁ p ∧
    s₁.owned = s.owned ∧ s₁.release h result = some (r, s') ∧
      ∀ panic, result ≠ .panicked panic := by
  obtain ⟨hop, hr, hr'⟩ := hrel
  cases op with
  | cancel h₁ =>
    rcases ho : lookup s.owned h₁ with _ | ⟨h₂, _ | _ | _ | _⟩
    case some.future | some.futureWithinTotal => simp [abandons, ho] at ha
    all_goals
      simp only [Semaphore.call, ho, Option.some.injEq, Prod.mk.injEq] at hc
      exact absurd hc.1.symm hr
  | finish h₁ =>
    rcases ho : lookup s.owned h₁ with _ | ⟨h₂, _ | _ | _ | _⟩
    case some.rejected => simp [abandons, ho] at ha
    all_goals
      simp only [Semaphore.call, ho, Option.some.injEq, Prod.mk.injEq] at hc
      exact absurd hc.1.symm hr
  | drop h₁ | mergeIntoForeign h₁ =>
    obtain rfl : h₁ = h := by simpa [Op.drops] using hop
    rcases ho : lookup s.owned h₁ with _ | ⟨h₂, _ | _ | _ | _⟩
    case some.permit =>
      simp only [Semaphore.call, ho] at hc
      exact ⟨s, _, hs, rfl, hc, by simp⟩
    all_goals
      simp only [Semaphore.call, ho, Option.some.injEq, Prod.mk.injEq] at hc
      exact absurd hc.1.symm hr
  | merge h₁ o =>
    obtain rfl : o = h := by simpa [Op.drops] using hop
    rcases hh : lookup s.owned h₁ with _ | ⟨h₂, _ | _ | _ | _⟩
    case some.permit =>
      rcases ho : lookup s.owned o with _ | ⟨h₃, _ | _ | _ | _⟩
      case some.permit =>
        by_cases hne : h₁ = o
        · simp only [Semaphore.call, ho, hne, if_true, Option.some.injEq, Prod.mk.injEq] at hc
          exact absurd hc.1.symm hr
        obtain ⟨ok, inner, p', hq, hv, hmerge⟩ :=
          hs.view.merge (hs.held_of_lookup hh) (hs.held_of_lookup ho) hne
        cases ok with
        | true =>
          simp only [Semaphore.call, hh, ho, hne, hq, if_false, if_true, Option.bind_some,
            Option.some.injEq, Prod.mk.injEq] at hc
          exact absurd hc.1.symm hr'
        | false =>
          obtain rfl := hmerge
          exact ⟨{ s with inner }, .merged false, ⟨hv, hs.arrivals, hs.permits⟩, rfl,
            by simpa [Semaphore.call, hh, ho, hne, hq] using hc, by simp⟩
      all_goals
        simp only [Semaphore.call, hh, ho, Option.some.injEq, Prod.mk.injEq] at hc
        exact absurd hc.1.symm hr
    all_goals
      simp only [Semaphore.call, hh, Option.some.injEq, Prod.mk.injEq] at hc
      exact absurd hc.1.symm hr
  | _ => simp [Op.drops] at hop

end Calls

section Runs

variable [PriorityQueue Q (SemaphoreWaiter B P)] {s s' : System B Q} [Priority P]

/-- Each release of a call gives back the count of the entry exactly, or panics once its guard is
gone and discards it: nobody is kept out, no lock is poisoned, and the semaphore can be used. -/
def ReleasesExactly (s : Shared B Q) (op : Op B P) : Prop :=
  ∃ l r s' l', entries s.lock.value.queue = some l ∧ callGuarded s op = some (r, s') ∧
    entries s'.lock.value.queue = some l' ∧
    ∀ e ∈ l, hasLock e = true → Releases op r e.handle →
      GivenBack s'.lock.value.available l l' e.handle
          (s.lock.value.available.toNat + (count e).toNat) ∨
        r = .panicked (.overflow (count e) s.lock.value.available) ∧
          s'.lock.value.available = s.lock.value.available ∧ l' = without l e.handle ∧
          s'.lock.Free ∧ ∀ ops, ∃ t, run (after callGuarded) s' ops = some t

/-- A future that a call drops after it was granted its permits leaves room for them. -/
def AbandonsFit (s : Shared B Q) (op : Op B P) : Prop :=
  ∃ l, entries s.lock.value.queue = some l ∧ ∀ e ∈ l, hasLock e = true →
    abandons s.owned op = some e.handle →
      s.lock.value.available.toNat + (count e).toNat < 2 ^ B.bits

variable [LawfulQueue Q (SemaphoreWaiter B P)]

/-- A permit that is dropped fits, or is discarded with a panic. -/
theorem Holds.release_cases (hs : Holds s p) (he : e ∈ p.held)
    (hc : s.release e.handle result = some (r, s')) :
    Fits B p.available (count e) ∧ r = result ∨
      r = .panicked (.overflow (count e) p.available) ∧ s'.inner.available = p.available ∧
        entries s'.inner.queue = some (without (p.held ++ p.pending) e.handle) := by
  have hnd := hs.view.wf.nodup_handles
  have hr := hs.view.rep
  obtain ⟨a, b, hab⟩ := List.append_of_mem (List.mem_append_left p.pending he)
  rw [hab] at hr hnd
  rw [hab, without_middle hnd, ← hs.view.available]
  obtain ⟨q', hr', hd⟩ := dropPermit_spec hr
  by_cases hf : Fits B s.inner.available (count e)
  · rw [if_pos hf] at hd
    rw [System.release, hd, Option.map_map] at hc
    obtain ⟨t, -, ht⟩ := Option.map_eq_some_iff.mp hc
    exact Or.inl ⟨hf, (Prod.mk.inj ht).1.symm⟩
  · rw [if_neg hf] at hd
    simp only [System.release, hd, Option.map_some, Option.some.injEq, Prod.mk.injEq] at hc
    obtain ⟨rfl, rfl⟩ := hc
    exact Or.inr ⟨rfl, rfl, LawfulQueue.entries_eq hr'⟩

theorem Holds.givenBack (hs : Holds s p) (hs' : Holds s' p') (hm : Moves op r p p')
    (he : e ∈ p.held) (hrel : Releases op r e.handle) (ho : s'.owned = without s.owned e.handle)
    (hnp : ∀ panic, r ≠ .panicked panic) : GivenBack s'.inner.available (p.held ++ p.pending)
      (p'.held ++ p'.pending) e.handle (s.inner.available + count e).toNat := by
  have hA : e.handle ∉ p'.arrivals := by
    rw [hs'.arrivals, ho, handles_without]
    simp
  rw [hs.view.available, hs'.view.available]
  exact hm.givenBack hs.view.wf he hrel.drops hA hrel.kept hnp

theorem Holds.releasesExactly_iff (hs : Holds s p) (hB : B.semaphoreTotal = false) :
    ReleasesExactly s.shared op ↔ AbandonsFit s.shared op := by
  obtain ⟨r, s', p', hc, hs', hm⟩ := hs.call op
  have hg : callGuarded s.shared op = some (r, s'.shared) := by
    rw [callGuarded_shared, hc]
    rfl
  have hown : s.shared.owned = s.owned := rfl
  have hin : ∀ t : System B Q, t.shared.lock.value = t.inner := fun _ => rfl
  constructor
  · rintro ⟨l, r₁, t, l', hl, hc₁, hl', h⟩
    obtain ⟨rfl, rfl⟩ := Prod.mk.inj (Option.some.inj (hg.symm.trans hc₁))
    obtain rfl := Option.some.inj (hs.entries_eq.symm.trans hl)
    obtain rfl := Option.some.inj (hs'.entries_eq.symm.trans hl')
    refine ⟨_, hl, fun e he hlock ha => ?_⟩
    obtain ⟨hrel, hnp, ho⟩ := abandons_spec ha hc
    have hsum := hs.givenBack hs' hm (hs.mem_held he hlock) hrel ho hnp
    rcases h e he hlock hrel with hexact | ⟨hp, -⟩
    · -- a sum that is exact is the value of a word
      rw [hin, hin] at hexact
      rw [hin, ← hsum.unique hexact]
      exact BitVec.isLt _
    · exact absurd hp (hnp _)
  · rintro ⟨l, hl, h⟩
    obtain rfl := Option.some.inj (hs.entries_eq.symm.trans hl)
    refine ⟨_, r, s'.shared, _, hl, hg, hs'.entries_eq, fun e he hlock hrel => ?_⟩
    have hheld := hs.mem_held he hlock
    rw [hin, hin]
    rcases ha : abandons s.owned op with _ | h'
    · obtain ⟨s₁, result, hs₁, ho, hc₁, hnp⟩ := hs.releases_permit hc hrel ha
      have ho' := System.release_owned hc₁
      rw [ho] at ho'
      rcases hs₁.release_cases hheld hc₁ with ⟨hf, rfl⟩ | ⟨hr, hav, hl'⟩
      · left
        have hlt := hf.resolve_left (by simp [hB])
        have hsum := hs.givenBack hs' hm hheld hrel ho' hnp
        rwa [hs.view.available, toNat_add_of_lt hlt, ← hs.view.available] at hsum
      · right
        rw [hs.view.available]
        refine ⟨hr, hav, Option.some.inj (hs'.entries_eq.symm.trans hl'), RwLock.free_new _,
          fun ops => ?_⟩
        obtain ⟨t, ht, -⟩ := hs'.run ops
        rw [run_guarded, ht]
        exact ⟨t.shared, rfl⟩
    · obtain ⟨hrel', hnp, ho⟩ := abandons_spec ha hc
      obtain rfl : e.handle = h' := Option.some.inj (hrel.drops.symm.trans hrel'.drops)
      left
      have hsum := hs.givenBack hs' hm hheld hrel ho hnp
      rw [hown, hin] at h
      rwa [toNat_add_of_lt (h e he hlock ha)] at hsum

end Runs

/-- In a build without a total every release of a run is exact or panics without a guard, if and
only if each future that the run drops after it was granted its permits leaves room for them. -/
theorem releases_exact_iff (k : QueueKind) {B : Build} (hB : B.semaphoreTotal = false) {P : Type}
    [Priority P] (capacity : Usize B) (ops : List (Op B P)) :
    EachStep (after callGuarded) (Shared.start (new capacity) :
        Shared B (k.Queue (SemaphoreWaiter B P))) ReleasesExactly ops ↔
      EachStep (after callGuarded) (Shared.start (new capacity) :
        Shared B (k.Queue (SemaphoreWaiter B P))) AbandonsFit ops := by
  apply eachStep_congr
  intro os o
  obtain ⟨s, p, hr, hs⟩ := run_holds (Q := k.Queue (SemaphoreWaiter B P)) capacity os
  refine ⟨s.shared, ?_, hs.releasesExactly_iff hB⟩
  have hrun := run_guarded (System.start (new capacity) :
    System B (k.Queue (SemaphoreWaiter B P))) os
  rwa [hr] at hrun

theorem releases_exact_iff_panic :
    EachStep (after callGuarded) (Shared.start (new 1) :
        Shared Build.plain (QueueKind.dualArena.Queue (SemaphoreWaiter Build.plain ℕ)))
        ReleasesExactly [.acquireMany 0 1, .addPermits (BitVec.allOnes 64), .drop 0] ↔
      EachStep (after callGuarded) (Shared.start (new 1) :
        Shared Build.plain (QueueKind.dualArena.Queue (SemaphoreWaiter Build.plain ℕ)))
        AbandonsFit [.acquireMany 0 1, .addPermits (BitVec.allOnes 64), .drop 0] :=
  releases_exact_iff _ rfl _ _

/-- A future that was granted one permit is dropped while all permits are available: none is
left. -/
theorem granted_future_wraps :
    ∃ (s : Shared Build.plain (QueueKind.dualArena.Queue (SemaphoreWaiter Build.plain ℕ)))
      (l : List (Queued Build.plain ℕ))
      (s' : Shared Build.plain (QueueKind.dualArena.Queue (SemaphoreWaiter Build.plain ℕ))),
      run (after callGuarded) (Shared.start (new 1))
        [.acquireMany 0 1, .acquireMany 0 1, .drop 0, .addPermits (BitVec.allOnes 64)] = some s ∧
      entries s.lock.value.queue = some l ∧
      (∃ e ∈ l, hasLock e = true ∧ e.handle = 48 ∧ count e = 1) ∧ ⟨48, .future⟩ ∈ s.owned ∧
      s.lock.value.available = BitVec.allOnes 64 ∧
      callGuarded s (.cancel 48) = some (.unit, s') ∧
      entries s'.lock.value.queue = some [] ∧ s'.lock.value.available = 0 :=
  ⟨_, _, _, rfl, rfl, ⟨_, .head _, rfl, rfl, rfl⟩, .head _, rfl, rfl, rfl, rfl⟩

end PriorityLock.Semaphore
