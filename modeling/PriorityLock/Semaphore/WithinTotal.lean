import PriorityLock.Semaphore.Justification

/-! # Requests within the total

A waiting entry of `acquire_within_total` is flagged exactly if the total fell
below its count while it waited. No other waiting entry is flagged, holders are
not flagged when the total falls, and an error is returned only then.
-/

namespace PriorityLock.Semaphore

open Placement Transition PriorityQueue

variable {B : Build} {Q P : Type} [Priority P] [PriorityQueue Q (SemaphoreWaiter B P)]
  {s s' s₀ : System B Q} {p p' : Pool B P} {op : Op B P} {r : Result B} {e : Queued B P}
  {os : List (Op B P)} {h : Handle}

section Owners

variable {o : Entry (Owned B)} {inner : SemaphoreInner B Q}

/-- A poll that sees its future's entry flagged before it got the lock. -/
def Rejects (s : System B Q) (o : Entry (Owned B)) : Prop :=
  ∃ n w, o.data = .rejected n ∧ ⟨o.handle, .futureWithinTotal n⟩ ∈ s.owned ∧
    getByHandle s.inner.queue o.handle = some w ∧ w.waiter.hasLock = false ∧
    w.waiter.wantsEvict = true

theorem acquire_owned {priority : P} {word : Usize B} {d : Owned B}
    (hc : s.acquire priority word d = some (r, s')) (ho : o ∈ s'.owned) :
    o ∈ s.owned ∨ o.data = .permit ∨ r = .pending o.handle ∧ o.data = d := by
  obtain ⟨x, ⟨rfl, hx⟩ | ⟨rfl, hx⟩⟩ := System.acquire_eq hc
  all_goals
    rw [hx] at ho
    rcases List.mem_append.mp ho with ho | ho
  · exact Or.inl ho
  · rw [List.mem_singleton.mp ho]
    exact Or.inr (Or.inl rfl)
  · exact Or.inl ho
  · rw [List.mem_singleton.mp ho]
    exact Or.inr (Or.inr ⟨rfl, rfl⟩)

/-- What a caller owns after a call it has owned before, or the call has made it. -/
theorem call_owned (hc : call s op = some (r, s')) (ho : o ∈ s'.owned) :
    o ∈ s.owned ∨ o.data = .permit ∨ Rejects s o ∨
      op.request.isSome ∧ r = .pending o.handle ∧ o.data = op.future := by
  have hrefuse : ∀ {r₀}, some (r₀, s) = some (r, s') → o ∈ s.owned := fun h =>
    (Prod.mk.inj (Option.some.inj h)).2 ▸ ho
  have hwithout : ∀ {h}, s'.owned = without s.owned h → o ∈ s.owned := fun h =>
    (mem_without.mp (h ▸ ho)).1
  by_cases hop : op.request.isSome
  · obtain ⟨rfl, -⟩ | ⟨priority, word, ha⟩ := call_request hop hc
    · exact Or.inl ho
    · rcases acquire_owned ha ho with h | h | h
      · exact Or.inl h
      · exact Or.inr (Or.inl h)
      · exact Or.inr (Or.inr (Or.inr ⟨hop, h⟩))
  cases op with
  | acquireMany | acquireWithinTotal => exact absurd rfl hop
  | poll x =>
    rcases hx : lookup s.owned x with _ | ⟨y, _ | n | _ | _⟩ <;> simp only [call, hx] at hc
    case some.future =>
      obtain ⟨w, -, heq⟩ := Option.map_eq_some_iff.mp hc
      split at heq <;> obtain ⟨-, rfl⟩ := Prod.mk.inj heq
      · rcases mem_relabel ho with rfl | ho
        · exact Or.inr (Or.inl rfl)
        · exact Or.inl ho
      · exact Or.inl ho
    case some.futureWithinTotal =>
      obtain ⟨hy, rfl⟩ := mem_of_lookup hx
      obtain ⟨w, hg, heq⟩ := Option.map_eq_some_iff.mp hc
      split at heq
      · obtain ⟨-, rfl⟩ := Prod.mk.inj heq
        rcases mem_relabel ho with rfl | ho
        · exact Or.inr (Or.inl rfl)
        · exact Or.inl ho
      next hl =>
        split at heq <;> obtain ⟨-, rfl⟩ := Prod.mk.inj heq
        · next hw =>
          rcases mem_relabel ho with rfl | ho
          · exact Or.inr (Or.inr (Or.inl ⟨n, w, rfl, hy, hg, Bool.eq_false_iff.mpr hl, hw⟩))
          · exact Or.inl ho
        · exact Or.inl ho
    all_goals exact Or.inl (hrefuse hc)
  | finish x =>
    simp only [call] at hc
    split at hc
    · exact Or.inl (hwithout (System.abandon_eq hc).2)
    · exact Or.inl (hrefuse hc)
  | cancel x =>
    simp only [call] at hc
    split at hc
    · exact Or.inl (hwithout (System.abandon_eq hc).2)
    · exact Or.inl (hwithout (System.abandon_eq hc).2)
    · exact Or.inl (hrefuse hc)
  | drop x | mergeIntoForeign x =>
    simp only [call] at hc
    split at hc
    · exact Or.inl (hwithout (System.release_owned hc))
    · exact Or.inl (hrefuse hc)
  | forget x =>
    simp only [call] at hc
    split at hc
    · obtain ⟨inner, -, heq⟩ := Option.map_eq_some_iff.mp hc
      obtain ⟨-, rfl⟩ := Prod.mk.inj heq
      exact Or.inl (hwithout rfl)
    · exact Or.inl (hrefuse hc)
  | split x n | splitWithPriority x n q =>
    simp only [call] at hc
    split at hc
    · split at hc
      · exact Or.inl (hrefuse hc)
      obtain ⟨⟨y | y, inner⟩, -, heq⟩ := Option.map_eq_some_iff.mp hc <;>
        obtain ⟨-, rfl⟩ := Prod.mk.inj heq
      · exact Or.inl ho
      · rcases List.mem_append.mp ho with ho | ho
        · exact Or.inl ho
        · rw [List.mem_singleton.mp ho]
          exact Or.inr (Or.inl rfl)
    · exact Or.inl (hrefuse hc)
  | merge x y =>
    simp only [call] at hc
    split at hc
    · split at hc
      · exact Or.inl (hrefuse hc)
      obtain ⟨⟨ok, inner⟩, -, heq⟩ := Option.bind_eq_some_iff.mp hc
      cases ok with
      | true =>
        obtain ⟨-, rfl⟩ := Prod.mk.inj (Option.some.inj heq)
        exact Or.inl (hwithout rfl)
      | false =>
        have hrel : System.release ⟨inner, s.owned⟩ y (.merged false) = some (r, s') := heq
        have hown := System.release_owned hrel
        exact Or.inl (hwithout hown)
    · exact Or.inl (hrefuse hc)
  | mergeForeign x =>
    simp only [call] at hc
    split at hc <;> exact Or.inl (hrefuse hc)
  | tryAddPermits n | forgetPermits n =>
    obtain ⟨⟨x, inner⟩, -, heq⟩ := Option.map_eq_some_iff.mp hc
    obtain ⟨-, rfl⟩ := Prod.mk.inj heq
    exact Or.inl ho
  | addPermits n =>
    obtain ⟨⟨_ | x, inner⟩, -, heq⟩ := Option.map_eq_some_iff.mp hc <;>
      obtain ⟨-, rfl⟩ := Prod.mk.inj heq <;> exact Or.inl ho
  | evicted x | permits x =>
    simp only [call] at hc
    split at hc
    · obtain ⟨w, -, heq⟩ := Option.map_eq_some_iff.mp hc
      obtain ⟨-, rfl⟩ := Prod.mk.inj heq
      exact Or.inl ho
    · exact Or.inl (hrefuse hc)
  | availablePermits => exact Or.inl (hrefuse hc)
  | totalPermits =>
    simp only [call] at hc
    split at hc <;> exact Or.inl (hrefuse hc)

theorem call_recounts (hc : call s op = some (r, s')) (hop : op.recounts = some h) :
    s' = s ∨ ⟨h, .permit⟩ ∈ s.owned := by
  have hpermit : ∀ {x}, lookup s.owned h = some ⟨x, .permit⟩ → ⟨h, .permit⟩ ∈ s.owned := by
    intro x hx
    obtain ⟨hm, rfl⟩ := mem_of_lookup hx
    exact hm
  cases op with
  | split x n | splitWithPriority x n q =>
    obtain rfl := Option.some.inj hop
    simp only [call] at hc
    split at hc
    · next hx => exact Or.inr (hpermit hx)
    · exact Or.inl (Prod.mk.inj (Option.some.inj hc)).2.symm
  | merge x y =>
    obtain rfl := Option.some.inj hop
    simp only [call] at hc
    split at hc
    · next hx hy => exact Or.inr (hpermit hx)
    · exact Or.inl (Prod.mk.inj (Option.some.inj hc)).2.symm
  | _ => cases hop

theorem call_short {priority : P} {n : Usize B} (ht : s.inner.total < n)
    (hc : call s (.acquireWithinTotal priority n) = some (r, s')) : s' = s := by
  simp only [call, ht, if_true] at hc
  split at hc
  · exact (Prod.mk.inj (Option.some.inj hc)).2.symm
  split at hc <;> exact (Prod.mk.inj (Option.some.inj hc)).2.symm

theorem call_insufficient {err : InsufficientPermitsError B}
    (hc : call s op = some (.insufficient err, s')) :
    (op.request.isSome → ∃ priority, op = .acquireWithinTotal priority err.requested ∧
        s.inner.total < err.requested) ∧
      ∀ h, op = .finish h → ⟨h, .rejected err.requested⟩ ∈ s.owned := by
  constructor
  · intro hop
    obtain ⟨-, hr | ⟨n, hr⟩ | ⟨err, hr, ht, priority, hq⟩⟩ | ⟨priority, word, ha⟩ :=
      call_request hop hc
    · cases hr
    · cases hr
    · cases hr
      exact ⟨priority, hq, ht⟩
    · obtain ⟨x, ⟨hr, -⟩ | ⟨hr, -⟩⟩ := System.acquire_eq ha <;> cases hr
  · rintro h rfl
    simp only [call] at hc
    split at hc
    · next x n hx =>
      obtain ⟨hm, rfl⟩ := mem_of_lookup hx
      obtain ⟨inner, -, heq⟩ := Option.map_eq_some_iff.mp hc
      cases heq
      exact hm
    · cases hc

end Owners

section Invariant

variable [LawfulQueue Q (SemaphoreWaiter B P)] {o : Entry (Owned B)}

def HasWaiter (h : Handle) (s : System B Q) : Prop :=
  Has s fun e => e.handle = h ∧ hasLock e = false

def Short (n : Usize B) (s : System B Q) : Prop := s.inner.total < n

/-- A call of `acquire_within_total` gets a future for a count. -/
def Asks (h : Handle) (n : Usize B) (s : System B Q) (op : Op B P) : Prop :=
  ∃ priority s', op = .acquireWithinTotal priority n ∧ call s op = some (.pending h, s')

/-- The flags of waiting entries, and what the futures of `acquire_within_total` ask for. -/
structure WithinTotal (s₀ : System B Q) (os : List (Op B P)) (s : System B Q) (p : Pool B P) :
    Prop where
  flagged : ∀ e ∈ p.pending, within e = true → (wantsEvict e = true ↔
    Since (after call) s₀ (HasWaiter e.handle) (Short (count e)) os)
  plain : ∀ e ∈ p.pending, within e = false → wantsEvict e = false
  counts : ∀ o ∈ s.owned, ∀ n, o.data = .futureWithinTotal n ∨ o.data = .rejected n →
    ∃ e ∈ p.held ++ p.pending, e.handle = o.handle ∧ within e = true ∧ count e = n
  rejected : ∀ o ∈ s.owned, ∀ n, o.data = .rejected n →
    Since (after call) s₀ (HasEntry o.handle) (fun t => HasWaiter o.handle t ∧ Short n t) os
  asked : ∀ o ∈ s.owned, ∀ n, o.data = .futureWithinTotal n ∨ o.data = .rejected n →
    SinceAfter (after call) s₀ (HasEntry o.handle) (Asks o.handle n) os

theorem Holds.hasWaiter (hs : Holds s p) (he : e ∈ p.pending) : HasWaiter e.handle s :=
  hs.has_iff.mpr ⟨e, List.mem_append_right _ he, rfl, hs.view.wf.unlocked e he⟩

theorem WithinTotal.step_flagged (hB : B.semaphoreTotal = true) (hw : WithinTotal s₀ os s p)
    (hr : run (after call) s₀ os = some s) (hs : Holds s p) (hs' : Holds s' p')
    (hc : Semaphore.call s op = some (r, s')) (hm : Moves op r p p') (he : e ∈ p'.pending)
    (hin : within e = true) : wantsEvict e = true ↔
      Since (after call) s₀ (HasWaiter e.handle) (Short (count e)) (os ++ [op]) := by
  rw [since_concat hr (after_eq hc)]
  have hnow := hs'.hasWaiter he
  cases hm.pending_origin he with
  | kept h hle =>
    constructor
    · exact fun hwe => ⟨hnow, Or.inr ((hw.flagged e h hin).mp hwe)⟩
    · rintro ⟨-, hshort | hold⟩
      · have ht : s.inner.total ≤ s'.inner.total := by
          rw [hs.view.total, hs'.view.total]
          exact hle hB
        have hshort' : Short (count e) s :=
          Nat.lt_of_le_of_lt (BitVec.le_def.mp ht) (BitVec.lt_def.mp hshort)
        exact (hw.flagged e h hin).mpr (since_now hr (hs.hasWaiter h) hshort')
      · exact (hw.flagged e h hin).mpr hold
  | @oversized d h =>
    rw [within_flag] at hin
    have hd := hw.flagged d h hin
    rw [wantsEvict_oversized hB, hd, count_flag, flag_handle, Short, hs'.view.total]
    rw [flag_handle] at hnow
    constructor
    · rintro (hold | ⟨-, hshort⟩)
      · exact ⟨hnow, Or.inr hold⟩
      · exact ⟨hnow, Or.inl hshort⟩
    · rintro ⟨-, hshort | hold⟩
      · exact Or.inr ⟨hin, hshort⟩
      · exact Or.inl hold
  | @fresh x priority n word hA hreq ht =>
    refine iff_of_false (by simp [wantsEvict, Waiter.new]) ?_
    rintro ⟨-, hshort | hold⟩
    · obtain rfl := hreq.within.mp hin
      rw [hreq.count, Short, hs'.view.total, ht, ← hs.view.total] at hshort
      have hA' := hs'.view.wf.pending_mem he
      rw [hs'.arrivals, call_short hshort hc, ← hs.arrivals] at hA'
      exact hA hA'
    · obtain ⟨d, hd, hdx, -⟩ := hs.has_iff.mp (hold.now hr)
      have hmem := hs.view.wf.perm.mem_iff.mp (mem_handles hd)
      rw [hdx] at hmem
      exact hA hmem

omit [LawfulQueue Q (SemaphoreWaiter B P)] in
theorem WithinTotal.step_plain (hB : B.semaphoreTotal = true) (hw : WithinTotal s₀ os s p)
    (hm : Moves op r p p') (he : e ∈ p'.pending) (hin : within e = false) :
    wantsEvict e = false := by
  cases hm.pending_origin he with
  | kept h => exact hw.plain e h hin
  | @oversized d h =>
    rw [within_flag] at hin
    have hd := hw.plain d h hin
    exact Bool.eq_false_iff.mpr fun hwe => by simp [wantsEvict_oversized hB, hd, hin] at hwe
  | fresh => rfl

theorem Holds.count_stays {d : Queued B P} (hs : Holds s p) (hs' : Holds s' p')
    (hc : Semaphore.call s op = some (r, s')) (hm : Moves op r p p') (ho : o ∈ s.owned)
    (hperm : o.data ≠ .permit) (hd : d ∈ p.held ++ p.pending) (hdo : d.handle = o.handle)
    (he : e ∈ p'.held ++ p'.pending) (heo : e.handle = o.handle) :
    e.data.rawCount = d.data.rawCount := by
  have hA : e.handle ∈ p.arrivals := by
    rw [heo, ← hdo]
    exact hs.view.wf.perm.mem_iff.mp (mem_handles hd)
  obtain ⟨g, hg, hge, -, -, hraw⟩ := hm.origin he hA
  obtain rfl := hs.eq_of_handle hg hd (hge.trans (heo.trans hdo.symm))
  by_cases hop : op.recounts = some e.handle
  · rcases call_recounts hc hop with rfl | hown
    · have hl := Option.some.inj (hs.entries_eq.symm.trans hs'.entries_eq)
      have hee := hs.eq_of_handle (hl ▸ he) hd (heo.trans hdo.symm)
      rw [hee]
    · have hsame := List.inj_on_of_nodup_map hs.nodup_owned hown ho heo
      exact absurd (congrArg Entry.data hsame).symm hperm
  · exact hraw hop

theorem Holds.owner (hs : Holds s p) (ho : o ∈ s.owned) :
    ∃ e ∈ p.held ++ p.pending, e.handle = o.handle := by
  obtain ⟨e, he, heo⟩ := List.mem_map.mp (hs.mem_owned.mp (mem_handles ho))
  exact ⟨e, he, heo⟩

theorem WithinTotal.step_counts (hw : WithinTotal s₀ os s p) (hs : Holds s p) (hs' : Holds s' p')
    (hc : Semaphore.call s op = some (r, s')) (hm : Moves op r p p') (ho : o ∈ s'.owned)
    {n : Usize B} (hn : o.data = .futureWithinTotal n ∨ o.data = .rejected n) :
    ∃ e ∈ p'.held ++ p'.pending, e.handle = o.handle ∧ within e = true ∧ count e = n := by
  obtain ⟨e, he, heo⟩ := hs'.owner ho
  have hkept : ∀ o₀ ∈ s.owned, o₀.handle = o.handle →
      o₀.data = .futureWithinTotal n ∨ o₀.data = .rejected n →
      ∃ e ∈ p'.held ++ p'.pending, e.handle = o.handle ∧ within e = true ∧ count e = n := by
    intro o₀ ho₀ hh hn₀
    obtain ⟨d, hd, hdo, hin, hcount⟩ := hw.counts o₀ ho₀ n hn₀
    have hne : o₀.data ≠ .permit := by rcases hn₀ with h | h <;> simp [h]
    obtain ⟨hce, hie⟩ := count_of_rawCount
      (hs.count_stays hs' hc hm ho₀ hne hd hdo he (heo.trans hh.symm))
    exact ⟨e, he, heo, hie.trans hin, hce.trans hcount⟩
  rcases call_owned hc ho with ho | hp | hrej | ⟨hop, rfl, hd⟩
  · exact hkept o ho rfl hn
  · simp [hp] at hn
  · obtain ⟨m, w, hd, hown, -⟩ := hrej
    obtain rfl : m = n := by simpa [hd] using hn
    exact hkept _ hown rfl (Or.inl rfl)
  · have hne : p'.arrivals ≠ p.arrivals := by
      rw [hs.arrivals, hs'.arrivals]
      exact call_pending hop hc
    obtain ⟨⟨priority, m⟩, hop⟩ := Option.isSome_iff_exists.mp hop
    rcases hm.acquires hop (Or.inl hne) with ⟨x, hr, -⟩ | ⟨x, hr, hwaits⟩
    · cases hr
    obtain rfl : o.handle = x := by simpa using hr
    obtain ⟨m', word, hreq, hplace⟩ := hwaits.pending
    have hmem := List.mem_append_right p'.held (hplace.perm.mem_iff.mpr List.mem_cons_self)
    have hwithin : op = .acquireWithinTotal priority n := by
      cases op <;> simp_all [Op.future, Op.request]
    obtain ⟨-, rfl⟩ := hreq.unique (q := priority) (m := n) (by simp [hwithin, Op.request])
    exact ⟨_, hmem, rfl, hreq.within.mpr hwithin, hreq.count⟩

theorem WithinTotal.step_rejected (hw : WithinTotal s₀ os s p)
    (hr : run (after call) s₀ os = some s) (hs : Holds s p) (hs' : Holds s' p')
    (hc : Semaphore.call s op = some (r, s')) (ho : o ∈ s'.owned) {n : Usize B}
    (hn : o.data = .rejected n) : Since (after call) s₀ (HasEntry o.handle)
      (fun t => HasWaiter o.handle t ∧ Short n t) (os ++ [op]) := by
  obtain ⟨e, he, heo⟩ := hs'.owner ho
  refine (since_concat hr (after_eq hc)).mpr ⟨heo ▸ hs'.hasEntry he, Or.inr ?_⟩
  rcases call_owned hc ho with ho | hp | hrej | ⟨-, -, hd⟩
  · exact hw.rejected o ho n hn
  · simp [hp] at hn
  · obtain ⟨m, w, hd, hown, hg, hlock, hevict⟩ := hrej
    obtain rfl : m = n := by simpa [hd] using hn
    obtain ⟨d, hmem, hdo, hin, hcount⟩ := hw.counts _ hown m (Or.inl rfl)
    have hdw : d.data = w := by
      have hgd := LawfulQueue.getByHandle_spec hs.view.rep hmem
      rw [hdo] at hgd
      exact Option.some.inj (hgd.symm.trans hg)
    have hpend : d ∈ p.pending := by
      refine (List.mem_append.mp hmem).resolve_left fun hheld => ?_
      have hl := hs.view.wf.locked d hheld
      simp [hasLock, hdw, hlock] at hl
    have hsince := (hw.flagged d hpend hin).mp (by simp [wantsEvict, hdw, hevict])
    rw [hdo, hcount] at hsince
    refine hsince.imp ?_ fun t ht hshort => ⟨ht, hshort⟩
    rintro t ⟨l, hl, f, hf, hfo, -⟩
    exact ⟨l, hl, f, hf, hfo⟩
  · rw [hd] at hn
    cases op <;> simp [Op.future] at hn

theorem WithinTotal.step_asked (hw : WithinTotal s₀ os s p) (hr : run (after call) s₀ os = some s)
    (hs' : Holds s' p') (hc : Semaphore.call s op = some (r, s')) (ho : o ∈ s'.owned)
    {n : Usize B} (hn : o.data = .futureWithinTotal n ∨ o.data = .rejected n) :
    SinceAfter (after call) s₀ (HasEntry o.handle) (Asks o.handle n) (os ++ [op]) := by
  obtain ⟨e, he, heo⟩ := hs'.owner ho
  refine sinceAfter_concat hr (after_eq hc) (heo ▸ hs'.hasEntry he) ?_
  rcases call_owned hc ho with ho | hp | hrej | ⟨-, rfl, hd⟩
  · exact Or.inr (hw.asked o ho n hn)
  · simp [hp] at hn
  · obtain ⟨m, w, hd, hown, -⟩ := hrej
    obtain rfl : m = n := by simpa [hd] using hn
    exact Or.inr (hw.asked _ hown m (Or.inl rfl))
  · left
    rw [hd] at hn
    cases op with
    | acquireWithinTotal priority m =>
      obtain rfl : m = n := by simpa [Op.future] using hn
      exact ⟨priority, s', rfl, hc⟩
    | _ => simp [Op.future] at hn

theorem WithinTotal.step (hB : B.semaphoreTotal = true) (hw : WithinTotal s₀ os s p)
    (hr : run (after call) s₀ os = some s) (hs : Holds s p) (hs' : Holds s' p')
    (hc : Semaphore.call s op = some (r, s')) (hm : Moves op r p p') :
    WithinTotal s₀ (os ++ [op]) s' p' where
  flagged _ he hin := hw.step_flagged hB hr hs hs' hc hm he hin
  plain _ he hin := hw.step_plain hB hm he hin
  counts _ ho _ hn := hw.step_counts hs hs' hc hm ho hn
  rejected _ ho _ hn := hw.step_rejected hr hs hs' hc ho hn
  asked _ ho _ hn := hw.step_asked hr hs' hc ho hn

end Invariant

section Forget

def Op.forgets : Op B P → Bool
  | .forget _ | .forgetPermits _ => true
  | _ => false

/-- Holders are left alone when the total falls: none has more than it. -/
theorem Moves.forgets (hB : B.semaphoreTotal = true) (hm : Moves op r p p')
    (hop : op.forgets = true) (hc : p'.Conserved) : ∀ e ∈ p'.held, e ∈ p.held := by
  have hflag : ∀ {e : Queued B P}, flag (Semaphore.oversized p'.total) e ∈ p'.held →
      flag (Semaphore.oversized p'.total) e = e := by
    intro e he
    have hle := hc.count_le he
    rw [count_flag] at hle
    exact flag_oversized_of_le hB hle
  intro e he
  cases hm with
  | acquire hreq | enqueue hreq => cases hreq <;> cases hop
  | release hdrop | discard hdrop | leave hdrop | unblock hdrop =>
    cases op <;> simp [Op.drops, Op.forgets] at hdrop hop
  | forget hB' => simp [hB] at hB'
  | forgetTotal =>
    rcases List.mem_append.mp he with he | he
    · exact List.mem_append_left _ he
    · obtain ⟨d, hd, rfl⟩ := List.mem_map.mp he
      rw [hflag (List.mem_append_right _ he)]
      exact List.mem_append_right _ (List.mem_cons_of_mem _ hd)
  | split hsplit => rcases hsplit with ⟨rfl, -⟩ | rfl <;> cases hop
  | merge => cases hop
  | add hadd | addTotal hadd => rcases hadd with ⟨rfl, -⟩ | ⟨rfl, -⟩ <;> cases hop
  | forgetPermits | unchanged => exact he
  | forgetPermitsTotal =>
    obtain ⟨d, hd, rfl⟩ := List.mem_map.mp he
    rw [hflag he]
    exact hd

end Forget

/-- What `acquire_within_total` keeps after a run, and in one more call. -/
structure Bounded (s₀ : System B Q) (os : List (Op B P)) (s : System B Q) (l : List (Queued B P))
    (op : Op B P) (r : Result B) (l' : List (Queued B P)) : Prop where
  flagged : ∀ e ∈ waiting l, within e = true → (wantsEvict e = true ↔
    Since (after call) s₀ (HasWaiter e.handle) (Short (count e)) os)
  oversized : ∀ e ∈ waiting l, within e = true → s.inner.total < count e → wantsEvict e = true
  plain : ∀ e ∈ waiting l, within e = false → wantsEvict e = false
  holders : op.forgets = true → ∀ e ∈ l', hasLock e = true → e ∈ l
  refused : ∀ err, r = .insufficient err → op.request.isSome →
    ∃ priority, op = .acquireWithinTotal priority err.requested ∧ s.inner.total < err.requested
  asked : ∀ err h, r = .insufficient err → op = .finish h →
    SinceAfter (after call) s₀ (HasEntry h) (Asks h err.requested) os
  finished : ∀ err h, r = .insufficient err → op = .finish h → Since (after call) s₀ (HasEntry h)
    (fun t => HasWaiter h t ∧ Short err.requested t) os

/-- With a total, in every run: a waiting entry of `acquire_within_total` is flagged if and only
if the total was below its count as it waited, other waiting entries are not, holders are left
alone when the total falls, and an error is returned only if the total was below the count. -/
theorem within_total_exact (k : QueueKind) {B : Build} (hB : B.semaphoreTotal = true) {P : Type}
    [Priority P] (capacity : Usize B) (ops : List (Op B P)) (op : Op B P) :
    ∃ (s : System B (k.Queue (SemaphoreWaiter B P))) (l : List (Queued B P)) (r : Result B)
      (s' : System B (k.Queue (SemaphoreWaiter B P))) (l' : List (Queued B P)),
      run (after call) (System.start (new capacity)) ops = some s ∧
      entries s.inner.queue = some l ∧ call s op = some (r, s') ∧
      entries s'.inner.queue = some l' ∧
      Bounded (System.start (new capacity)) ops s l op r l' := by
  have hstart : WithinTotal
      (System.start (new capacity) : System B (k.Queue (SemaphoreWaiter B P))) []
      (System.start (new capacity)) (Pool.start capacity) :=
    ⟨by simp [Pool.start], by simp [Pool.start], by simp [System.start], by simp [System.start],
      by simp [System.start]⟩
  have hstep : ∀ os (s : System B (k.Queue (SemaphoreWaiter B P))) op,
      run (after call) (System.start (new capacity)) os = some s →
      (∃ p, Holds s p ∧ WithinTotal (System.start (new capacity)) os s p) →
      ∃ s', after call s op = some s' ∧
        ∃ p, Holds s' p ∧ WithinTotal (System.start (new capacity)) (os ++ [op]) s' p := by
    rintro os s op hr ⟨p, hs, hw⟩
    obtain ⟨r, s', p', hc, hs', hm⟩ := hs.call op
    exact ⟨s', after_eq hc, p', hs', hw.step hB hr hs hs' hc hm⟩
  obtain ⟨s, hr, p, hs, hw⟩ := run_history ⟨_, Holds.start capacity, hstart⟩ hstep ops
  obtain ⟨r, s', p', hc, hs', hm⟩ := hs.call op
  refine ⟨s, _, r, s', _, hr, hs.entries_eq, hc, hs'.entries_eq, ?_⟩
  constructor
  · rw [hs.waiting]
    exact hw.flagged
  · rw [hs.waiting]
    exact fun e he hin ht => (hw.flagged e he hin).mpr (since_now hr (hs.hasWaiter he) ht)
  · rw [hs.waiting]
    exact hw.plain
  · intro hop e he hl
    exact List.mem_append_left _
      (hm.forgets hB hop (hs'.view.conserved hB) e (hs'.mem_held he hl))
  · rintro err rfl hop
    exact (call_insufficient hc).1 hop
  · rintro err h rfl hop
    exact hw.asked _ ((call_insufficient hc).2 h hop) _ (Or.inr rfl)
  · rintro err h rfl hop
    exact hw.rejected _ ((call_insufficient hc).2 h hop) _ rfl

theorem within_total_exact_rejected :
    ∃ (s : System Build.full (QueueKind.dualArena.Queue (SemaphoreWaiter Build.full ℕ)))
      (l : List (Queued Build.full ℕ)) (r : Result Build.full)
      (s' : System Build.full (QueueKind.dualArena.Queue (SemaphoreWaiter Build.full ℕ)))
      (l' : List (Queued Build.full ℕ)),
      run (after call) (System.start (new 5))
        [.acquireMany 0 1, .acquireWithinTotal 1 5, .forget 0, .poll 48] = some s ∧
      entries s.inner.queue = some l ∧ call s (.finish 48) = some (r, s') ∧
      entries s'.inner.queue = some l' ∧
      Bounded (System.start (new 5))
        [.acquireMany 0 1, .acquireWithinTotal 1 5, .forget 0, .poll 48] s l (.finish 48) r l' :=
  within_total_exact _ rfl _ _ _

end PriorityLock.Semaphore
