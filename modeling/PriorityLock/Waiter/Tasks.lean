import Mathlib.Logic.Function.Basic
import PriorityLock.Queue.Basic
import PriorityLock.Waiter.Storage

/-! # Tasks around a lock

Calls change a system under a lock and notify waiters of its entries on the way,
so that the lock is held until their `add_flag` calls have returned. The owners
of the entries poll and drop their futures meanwhile, without the lock and one
atomic step at a time.
-/

namespace PriorityLock

namespace Waiter

variable {w w' : Waiter} {T : Waiter}

def Le (w w' : Waiter) : Prop := ∀ f, w.has f = true → w'.has f = true

theorem Le.meets (h : w.Le w') (hm : w.meets T = true) : w'.meets T = true := by
  obtain ⟨f, hf, hT⟩ := meets_iff.mp hm
  exact meets_iff.mpr ⟨f, h f hf, hT⟩

theorem eq_of_has (h : ∀ f, w.has f = true ↔ w'.has f = true) : w = w' := by
  rcases w with ⟨a, b⟩
  rcases w' with ⟨c, d⟩
  have hl := h .hasLock
  have he := h .wantsEvict
  simp only [has] at hl he
  rw [Bool.eq_iff_iff.mpr hl, Bool.eq_iff_iff.mpr he]

end Waiter

namespace WaiterState

variable {s s' : WaiterState} {f : Flag} {fl : Waiter}

section Parties

def OwnerStep (s s' : WaiterState) : Prop :=
  Step s s' ∧ s'.notifier = s.notifier ∧ s'.completed = s.completed

def AddFlagStep (f : Flag) (s s' : WaiterState) : Prop :=
  Step s s' ∧ s'.owner = s.owner ∧
    (adding s'.notifier = some f ∨ s'.notifier = .idle ∧ s'.completed = f :: s.completed)

def Leaving : OwnerPc → Prop
  | .absent | .clear .drop | .dropCell .drop _ | .spin .drop _ => True
  | _ => False

/-- The owner has read these flags and still goes by them. -/
def Carries : OwnerPc → Waiter → Prop
  | .idle (.ready fl'), fl | .dropCell _ fl', fl | .spin _ fl', fl => fl' = fl
  | _, _ => False

/-- The flags that the owner has read are still set. -/
def Current (s : WaiterState) : Prop := ∀ fl, Carries s.owner fl → fl.Le s.word.flags

theorem Step.le (h : Step s s') : s.word.flags.Le s'.word.flags := by
  intro g hg
  rcases h.flags with he | ⟨-, f, he⟩
  · rwa [he]
  · rw [he]
    exact Waiter.has_addFlag.mpr (Or.inr hg)

theorem OwnerStep.flags_eq (h : OwnerStep s s') : s'.word.flags = s.word.flags := by
  obtain ⟨hs, hn, hc⟩ := h
  cases hs with
  | addFlag flag hi =>
    rw [hi] at hn
    cases hn
  | addFlag_unset flag => simp [finished] at hc
  | _ => rfl

theorem AddFlagStep.has (h : AddFlagStep f s s') {g : Flag} (hg : s'.word.flags.has g = true) :
    s.word.flags.has g = true ∨ f = g := by
  obtain ⟨hs, -, hf⟩ := h
  cases hs with
  | addFlag flag hi hp =>
    obtain rfl : flag = f := by simpa [adding] using hf
    exact (Waiter.has_addFlag.mp hg).symm
  | addFlag_unset flag hi hp =>
    obtain rfl : flag = f := by simpa [adding, finished] using hf
    exact (Waiter.has_addFlag.mp hg).symm
  | _ => exact Or.inl hg

theorem cleared_carries {call : ClearCall} {flags : Waiter}
    (h : Carries (s.cleared flags call) fl) : flags = fl := by
  rcases s.cleared_cases flags call with ⟨hc, -⟩ | ⟨waker, -, hc⟩ | hc <;> rw [hc] at h
  · exact h
  · exact h.elim
  · exact h.elim

/-- The flags that the owner carries on with are those it has just read or has carried. -/
theorem Step.carries (h : Step s s') (hc : Carries s'.owner fl) :
    Carries s.owner fl ∨ fl = s.word.flags := by
  cases h with
  | clear ho =>
    dsimp only at hc
    split at hc
    · exact Or.inr hc.symm
    · split at hc
      · exact Or.inr (cleared_carries hc).symm
      · exact Or.inr hc.symm
  | dropCell ho hk =>
    left
    rw [ho]
    exact cleared_carries hc
  | spin ho =>
    left
    rw [ho]
    dsimp only at hc
    split at hc
    · exact cleared_carries hc
    · exact hc
  | publish ho =>
    dsimp only at hc
    split at hc <;> exact hc.elim
  | create | poll | drop | store => exact hc.elim
  | _ => exact Or.inl hc

theorem Current.step (hc : s.Current) (h : Step s s') : s'.Current := by
  intro fl hfl f hf
  rcases h.carries hfl with hold | rfl
  · exact h.le f (hc fl hold f hf)
  · exact h.le f hf

theorem Step.target_eq (h : Step s s') (ha : s.owner ≠ .absent) : s'.target = s.target := by
  cases h with
  | create addr target ho => exact absurd ho ha
  | _ => rfl

theorem leaving_clear {call : ClearCall} : Leaving (.clear call) ↔ call = .drop := by
  cases call <;> simp [Leaving]

theorem leaving_dropCell {call : ClearCall} : Leaving (.dropCell call fl) ↔ call = .drop := by
  cases call <;> simp [Leaving]

theorem leaving_spin {call : ClearCall} : Leaving (.spin call fl) ↔ call = .drop := by
  cases call <;> simp [Leaving]

theorem Step.leaving (h : Step s s') (hl : Leaving s.owner) (ha : s.owner ≠ .absent) :
    Leaving s'.owner := by
  cases h with
  | create addr target ho => exact absurd ho ha
  | poll ho | drop ho | store ho | publish ho => simp [ho, Leaving] at hl
  | clear ho =>
    rw [ho] at hl
    obtain rfl := leaving_clear.mp hl
    dsimp only
    split
    · trivial
    · split <;> trivial
  | dropCell ho =>
    rw [ho] at hl
    obtain rfl := leaving_dropCell.mp hl
    trivial
  | spin ho =>
    rw [ho] at hl
    obtain rfl := leaving_spin.mp hl
    dsimp only
    split <;> trivial
  | _ => exact hl

structure Good (s : WaiterState) : Prop where
  inv : s.Inv
  guarded : s.Guarded
  current : s.Current

theorem good_init (b : Bool) : (init b).Good :=
  ⟨inv_init b, guarded_init b, fun _ hf => hf.elim⟩

theorem Good.step (h : s.Good) (hs : Step s s') : s'.Good :=
  ⟨h.inv.step hs, h.guarded.step h.inv hs, h.current.step hs⟩

/-- Once no notifier is at work, a pending poll has been woken if a flag of its target is set. -/
theorem Inv.woken (h : s.Inv) (hn : s.notifier = .idle) (hm : s.word.flags.meets s.target = true)
    {k : ℕ} (hk : s.owner = .idle (.pending k)) : k ∈ s.woken := by
  obtain ⟨f, hf, hT⟩ := Waiter.meets_iff.mp hm
  rcases h.pending k hk with hw | ⟨-, hr | hi⟩
  · exact hw
  · obtain ⟨g, hg⟩ := hr.2.2 f hT hf
    rw [hn] at hg
    cases hg
  · simp [InHand, hn] at hi

end Parties

end WaiterState

section Entries

variable {D : Type} {waiter : D → Waiter} {l l' : List (Entry D)} {h : Handle} {w w' : Waiter}

def flagsIn (waiter : D → Waiter) (l : List (Entry D)) (h : Handle) : Option Waiter :=
  (lookup l h).map fun e => waiter e.data

theorem flagsIn_ne_none : flagsIn waiter l h ≠ none ↔ h ∈ handles l := by
  rw [flagsIn]
  cases hl : lookup l h with
  | none => simp [not_mem_of_lookup hl]
  | some e =>
    obtain ⟨hm, rfl⟩ := mem_of_lookup hl
    simp [mem_handles hm]

theorem entry_of_flagsIn (hw : flagsIn waiter l h = some w) :
    ∃ e ∈ l, e.handle = h ∧ waiter e.data = w := by
  obtain ⟨e, he, rfl⟩ := Option.map_eq_some_iff.mp hw
  obtain ⟨hm, rfl⟩ := mem_of_lookup he
  exact ⟨e, hm, rfl, rfl⟩

theorem flagsIn_of_mem (hn : (handles l).Nodup) {e : Entry D} (he : e ∈ l) :
    flagsIn waiter l e.handle = some (waiter e.data) := by
  rw [flagsIn, lookup_of_mem hn he]
  rfl

/-- Entries get flags and lose none, and new ones have none but that of the lock. -/
def Grows (waiter : D → Waiter) (l l' : List (Entry D)) : Prop :=
  ∀ f ∈ l', (f.handle ∉ handles l ∧ waiter f.data = .new (waiter f.data).hasLock) ∨
    ∃ e ∈ l, e.handle = f.handle ∧ (waiter e.data).Le (waiter f.data)

theorem Grows.le (hg : Grows waiter l l') (hn : (handles l).Nodup)
    (hw : flagsIn waiter l h = some w) (hw' : flagsIn waiter l' h = some w') : w.Le w' := by
  obtain ⟨e, he, rfl, rfl⟩ := entry_of_flagsIn hw
  obtain ⟨f, hf, hfe, rfl⟩ := entry_of_flagsIn hw'
  rcases hg f hf with ⟨hnew, -⟩ | ⟨g, hgm, hgf, hle⟩
  · exact absurd (hfe ▸ mem_handles he) hnew
  · obtain rfl := List.inj_on_of_nodup_map hn hgm he (hgf.trans hfe)
    exact hle

theorem Grows.new (hg : Grows waiter l l') (hw : flagsIn waiter l h = none)
    (hw' : flagsIn waiter l' h = some w) : w = .new w.hasLock := by
  obtain ⟨f, hf, rfl, rfl⟩ := entry_of_flagsIn hw'
  rcases hg f hf with ⟨-, hnew⟩ | ⟨g, hgm, hgf, -⟩
  · exact hnew
  · exact absurd hw (flagsIn_ne_none.mpr (hgf ▸ mem_handles hgm))

end Entries

/-- A system whose entries have waiters, and what its callers do. -/
structure Monitor (σ : Type) where
  /-- The flags of an entry. -/
  flags : σ → Handle → Option Waiter
  /-- What the future of an entry's owner waits for. -/
  target : σ → Handle → Option Waiter
  /-- A call under the lock. -/
  call : σ → σ → Prop
  /-- The owner of an entry goes on with the flags that its future has returned. -/
  resolve : Handle → Waiter → σ → σ → Prop

/-- The system, the waiters of its entries, and the `add_flag` calls that the holder of the lock
has not finished. -/
structure Tasks (σ : Type) where
  sys : σ
  waiter : Handle → WaiterState
  notes : List (Handle × Flag)

namespace Tasks

variable {σ : Type} {M : Monitor σ} {J : σ → Prop} {s s' : σ} {n n' : Tasks σ} {h : Handle}
  {w : Waiter}

def start (s : σ) : Tasks σ := ⟨s, fun _ => .init false, []⟩

/-- The `add_flag` calls of a call under the lock: they lead from the flags before it to those
after it, and are made on entries that are there before and after. -/
structure Notes (M : Monitor σ) (s s' : σ) (notes : List (Handle × Flag)) : Prop where
  stay : ∀ x ∈ notes, M.flags s x.1 ≠ none ∧ M.flags s' x.1 ≠ none
  flags : ∀ h w w', M.flags s h = some w → M.flags s' h = some w' →
    ∀ f, w'.has f = true ↔ w.has f = true ∨ (h, f) ∈ notes

/-- The waiters after a call, which brings those of new entries. -/
def joined (M : Monitor σ) (s s' : σ) (waiter : Handle → WaiterState) (h : Handle) : WaiterState :=
  match M.flags s h, M.flags s' h with
  | none, some w => .init w.hasLock
  | _, _ => waiter h

inductive Step (M : Monitor σ) : Tasks σ → Tasks σ → Prop where

  | call {n : Tasks σ} {s' : σ} (notes : List (Handle × Flag)) : n.notes = [] → M.call n.sys s' →
      (∀ h, M.flags n.sys h ≠ none → M.flags s' h = none → (n.waiter h).owner = .absent) →
      Notes M n.sys s' notes → Step M n ⟨s', joined M n.sys s' n.waiter, notes⟩

  | own {n : Tasks σ} {h : Handle} {w : WaiterState} : M.flags n.sys h ≠ none →
      (n.waiter h).OwnerStep w →
      ((n.waiter h).owner = .absent → M.target n.sys h = some w.target) →
      Step M n { n with waiter := Function.update n.waiter h w }

  | resolve {n : Tasks σ} {h : Handle} {flags : Waiter} {s' : σ} :
      (n.waiter h).owner = .idle (.ready flags) → M.flags n.sys h ≠ none →
      M.resolve h flags n.sys s' →
      Step M n { n with
        sys := s'
        waiter := Function.update n.waiter h { n.waiter h with owner := .clear .drop } }

  | notify {n : Tasks σ} {h : Handle} {f : Flag} {rest : List (Handle × Flag)} {w : WaiterState} :
      n.notes = (h, f) :: rest → (n.waiter h).AddFlagStep f w →
      Step M n { n with
        waiter := Function.update n.waiter h w
        notes := if w.notifier = .idle then rest else n.notes }

def Reachable (M : Monitor σ) (s : σ) (n : Tasks σ) : Prop :=
  Relation.ReflTransGen (Step M) (start s) n

def gained (M : Monitor σ) (s s' : σ) (x : Handle × Flag) : Bool :=
  (M.flags s x.1).isSome && (M.flags s' x.1).any fun w => w.has x.2

/-- Flags that are only added can be added one by one. -/
theorem exists_notes (hs : List Handle) (hmem : ∀ h, M.flags s h ≠ none → h ∈ hs)
    (hle : ∀ h w w', M.flags s h = some w → M.flags s' h = some w' → w.Le w') :
    ∃ notes, Notes M s s' notes := by
  refine ⟨(hs.flatMap fun h => [(h, .hasLock), (h, .wantsEvict)]).filter (gained M s s'), ?_, ?_⟩
  · intro x hx
    obtain ⟨ho, hn⟩ := Bool.and_eq_true_iff.mp (List.mem_filter.mp hx).2
    constructor
    · exact Option.isSome_iff_ne_none.mp ho
    · intro he
      simp [he] at hn
  · intro h w w' hw hw' f
    have hh : h ∈ hs := hmem h (by simp [hw])
    have hall : (h, f) ∈ hs.flatMap fun h => [(h, Flag.hasLock), (h, Flag.wantsEvict)] := by
      rw [List.mem_flatMap]
      exact ⟨h, hh, by cases f <;> simp⟩
    rw [List.mem_filter]
    constructor
    · intro hf
      exact Or.inr ⟨hall, by simp [gained, hw, hw', hf]⟩
    · rintro (hf | ⟨-, hg⟩)
      · exact hle h w w' hw hw' f hf
      · simpa [gained, hw, hw'] using hg

theorem notes_of_entries {D : Type} {waiter : D → Waiter} {l l' : List (Entry D)}
    {notes : List (Handle × Flag)} (hs : M.flags s = flagsIn waiter l)
    (hs' : M.flags s' = flagsIn waiter l')
    (hstay : ∀ x ∈ notes, x.1 ∈ handles l ∧ x.1 ∈ handles l')
    (hflags : ∀ e ∈ l, ∀ f ∈ l', e.handle = f.handle → ∀ g ∈ [Flag.hasLock, .wantsEvict],
      ((waiter f.data).has g = true ↔ (waiter e.data).has g = true ∨ (e.handle, g) ∈ notes)) :
    Notes M s s' notes := by
  constructor
  · intro x hx
    rw [hs, hs']
    exact ⟨flagsIn_ne_none.mpr (hstay x hx).1, flagsIn_ne_none.mpr (hstay x hx).2⟩
  · intro h w w' hw hw' g
    rw [hs] at hw
    rw [hs'] at hw'
    obtain ⟨e, he, rfl, rfl⟩ := entry_of_flagsIn hw
    obtain ⟨f, hf, hfe, rfl⟩ := entry_of_flagsIn hw'
    exact hflags e he f hf hfe.symm g (by cases g <;> simp)

section Invariant

/-- What the calls and the owners' polls have to keep. -/
structure Lawful (M : Monitor σ) (J : σ → Prop) : Prop where
  call : ∀ {s s'}, J s → M.call s s' → J s' ∧
    (∀ h w, M.flags s h = none → M.flags s' h = some w → w = .new w.hasLock) ∧
    ∀ h, M.flags s h ≠ none → M.flags s' h ≠ none → M.target s' h = M.target s h
  resolve : ∀ {s s' h fl w T}, J s → M.flags s h = some w → M.target s h = some T → fl.Le w →
    fl.meets T = true → M.resolve h fl s s' →
    J s' ∧ M.flags s' = M.flags s ∧ ∀ h' ≠ h, M.target s' h' = M.target s h'

/-- A waiter's word has the flags of its entry but for those about to be added, and only the first
`add_flag` call may have begun. -/
structure Tracks (target : Option Waiter) (notes : List (Handle × Flag)) (h : Handle) (w : Waiter)
    (v : WaiterState) : Prop where
  good : v.Good
  flags : ∀ f, w.has f = true ↔ v.word.flags.has f = true ∨ (h, f) ∈ notes
  busy : v.notifier ≠ .idle → ∃ f rest, notes = (h, f) :: rest ∧
    WaiterState.adding v.notifier = some f
  target : WaiterState.Leaving v.owner ∨ target = some v.target

structure Inv (M : Monitor σ) (J : σ → Prop) (n : Tasks σ) : Prop where
  sys : J n.sys
  notes : ∀ x ∈ n.notes, M.flags n.sys x.1 ≠ none
  tracks : ∀ h w, M.flags n.sys h = some w → Tracks (M.target n.sys h) n.notes h w (n.waiter h)

variable {v v' : WaiterState} {T : Option Waiter} {f : Flag} {notes rest : List (Handle × Flag)}

theorem Tracks.idle (ht : Tracks T [] h w v) : v.notifier = .idle := by
  by_contra hb
  obtain ⟨f, rest, he, -⟩ := ht.busy hb
  cases he

theorem Tracks.flags_eq (ht : Tracks T [] h w v) : v.word.flags = w :=
  Waiter.eq_of_has fun f => by simpa using (ht.flags f).symm

theorem Tracks.own (ht : Tracks T notes h w v) (hs : v.OwnerStep v')
    (ha : v.owner = .absent → T = some v'.target) : Tracks T notes h w v' := by
  obtain ⟨hstep, hn, -⟩ := id hs
  constructor
  · exact ht.good.step hstep
  · rw [hs.flags_eq]
    exact ht.flags
  · rw [hn]
    exact ht.busy
  · by_cases ho : v.owner = .absent
    · exact Or.inr (ha ho)
    · rw [hstep.target_eq ho]
      exact ht.target.imp_left fun hl => hstep.leaving hl ho

theorem Tracks.notify (ht : Tracks T ((h, f) :: rest) h w v) (hs : v.AddFlagStep f v') :
    Tracks T (if v'.notifier = .idle then rest else (h, f) :: rest) h w v' := by
  obtain ⟨hstep, ho, hn⟩ := id hs
  have hgood := ht.good.step hstep
  have htarget : WaiterState.Leaving v'.owner ∨ T = some v'.target := by
    rw [ho]
    rcases ht.target with hl | hT
    · exact Or.inl hl
    by_cases ha : v.owner = .absent
    · exact Or.inl (by rw [ha]; trivial)
    · rw [hstep.target_eq ha]
      exact Or.inr hT
  have hall : ∀ g, w.has g = true ↔ v'.word.flags.has g = true ∨ (h, g) ∈ (h, f) :: rest := by
    intro g
    rw [ht.flags g]
    constructor
    · exact Or.imp_left (hstep.le g)
    · rintro (hg | hg)
      · rcases hs.has hg with hold | rfl
        · exact Or.inl hold
        · exact Or.inr List.mem_cons_self
      · exact Or.inr hg
  by_cases hi : v'.notifier = .idle
  · rw [if_pos hi]
    have hf : v'.word.flags.has f = true := by
      rcases hn with hn | ⟨-, hn⟩
      · rw [hi] at hn
        cases hn
      · exact hgood.inv.set_completed f (by simp [hn])
    refine ⟨hgood, fun g => ?_, fun hb => absurd hi hb, htarget⟩
    rw [hall g, List.mem_cons, Prod.mk.injEq]
    constructor
    · rintro (hg | ⟨-, rfl⟩ | hg)
      · exact Or.inl hg
      · exact Or.inl hf
      · exact Or.inr hg
    · exact Or.imp_right Or.inr
  · rw [if_neg hi]
    refine ⟨hgood, hall, fun _ => ⟨f, rest, rfl, ?_⟩, htarget⟩
    exact hn.resolve_right fun hc => hi hc.1

theorem Tracks.other {g : Handle} (hne : h ≠ g) (ht : Tracks T ((g, f) :: rest) h w v) :
    Tracks T rest h w v := by
  refine ⟨ht.good, fun x => ?_, fun hb => ?_, ht.target⟩
  · rw [ht.flags x]
    simp [hne]
  · obtain ⟨x, rest', he, -⟩ := ht.busy hb
    cases he
    exact absurd rfl hne

theorem inv_start (hJ : J s) (hs : ∀ h, M.flags s h = none) : Inv M J (start s) where
  sys := hJ
  notes := nofun
  tracks h w hf := by
    rw [start, hs h] at hf
    cases hf

theorem Inv.call (hM : Lawful M J) (hi : Inv M J n) (hn : n.notes = []) (hc : M.call n.sys s')
    (hnotes : Notes M n.sys s' notes) : Inv M J ⟨s', joined M n.sys s' n.waiter, notes⟩ := by
  obtain ⟨hJ, hnew, htarget⟩ := hM.call hi.sys hc
  refine ⟨hJ, fun x hx => (hnotes.stay x hx).2, fun h w (hw : M.flags s' h = some w) => ?_⟩
  cases hs : M.flags n.sys h with
  | none =>
    have hv : joined M n.sys s' n.waiter h = .init w.hasLock := by simp [joined, hs, hw]
    have hnot : ∀ f, (h, f) ∉ notes := fun f hm => (hnotes.stay _ hm).1 hs
    dsimp only
    rw [hv]
    refine ⟨WaiterState.good_init _, fun f => ?_, fun hb => absurd rfl hb, Or.inl trivial⟩
    rw [hnew h w hs hw]
    simp [hnot, WaiterState.init, Waiter.new]
  | some w₀ =>
    have hv : joined M n.sys s' n.waiter h = n.waiter h := by simp [joined, hs]
    have ht := hi.tracks h w₀ hs
    rw [hn] at ht
    dsimp only
    rw [hv]
    refine ⟨ht.good, fun f => ?_, fun hb => absurd ht.idle hb, ?_⟩
    · rw [hnotes.flags h w₀ w hs hw f, ht.flags_eq]
    · rw [htarget h (by simp [hs]) (by simp [hw])]
      exact ht.target

/-- A future that is ready has read flags of its target that are still set. -/
theorem Tracks.ready (ht : Tracks T notes h w v) {fl : Waiter} (ho : v.owner = .idle (.ready fl)) :
    ∃ t, T = some t ∧ fl.Le w ∧ fl.meets t = true := by
  rcases ht.target with hl | hT
  · rw [ho] at hl
    exact hl.elim
  · refine ⟨v.target, hT, fun f hf => ?_, ht.good.inv.ready fl ho⟩
    have hcur := ht.good.current fl (by rw [ho]; rfl)
    exact (ht.flags f).mpr (Or.inl (hcur f hf))

theorem Inv.update (hi : Inv M J n) {v : WaiterState}
    (hv : ∀ w, M.flags n.sys h = some w → Tracks (M.target n.sys h) n.notes h w v) :
    Inv M J { n with waiter := Function.update n.waiter h v } := by
  refine ⟨hi.sys, hi.notes, fun g w hw => ?_⟩
  dsimp only
  rcases eq_or_ne g h with rfl | hne
  · rw [Function.update_self]
    exact hv w hw
  · rw [Function.update_of_ne hne]
    exact hi.tracks g w hw

theorem Inv.step (hM : Lawful M J) (hi : Inv M J n) (hs : Step M n n') : Inv M J n' := by
  cases hs with
  | call notes hn hc hgone hnotes => exact hi.call hM hn hc hnotes
  | own hf hs ha => exact hi.update fun w hw => (hi.tracks _ w hw).own hs ha
  | @resolve h flags s' ho hf hr =>
    obtain ⟨w, hw⟩ := Option.ne_none_iff_exists'.mp hf
    have ht := hi.tracks h w hw
    obtain ⟨t, hT, hle, hm⟩ := ht.ready ho
    obtain ⟨hJ, hflags, htarget⟩ := hM.resolve hi.sys hw hT hle hm hr
    have hdrop := WaiterState.Step.drop ho
    refine ⟨hJ, fun x hx => by rw [hflags]; exact hi.notes x hx, fun g u hu => ?_⟩
    rw [hflags] at hu
    dsimp only
    rcases eq_or_ne g h with rfl | hne
    · rw [Function.update_self]
      have hg := hi.tracks g u hu
      exact ⟨hg.good.step hdrop, hg.flags, hg.busy, Or.inl trivial⟩
    · rw [Function.update_of_ne hne, htarget g hne]
      exact hi.tracks g u hu
  | @notify h f rest v hn hs =>
    refine ⟨hi.sys, fun x hx => ?_, fun g w hw => ?_⟩
    · dsimp only at hx
      split at hx
      · exact hi.notes x (hn ▸ List.mem_cons_of_mem _ hx)
      · exact hi.notes x hx
    · have ht := hi.tracks g w hw
      rw [hn] at ht
      dsimp only
      rcases eq_or_ne g h with rfl | hne
      · rw [Function.update_self, hn]
        exact ht.notify hs
      · rw [Function.update_of_ne hne, hn]
        split
        · exact ht.other hne
        · exact ht

theorem Reachable.inv (hM : Lawful M J) (hJ : J s) (hs : ∀ h, M.flags s h = none)
    (h : Reachable M s n) : Inv M J n := by
  induction h with
  | refl => exact inv_start hJ hs
  | tail _ hstep ih => exact ih.step hM hstep

/-- While the lock is free, a pending future whose entry has a flag that it waits for has been
woken. -/
theorem Inv.woken (hi : Inv M J n) (hn : n.notes = []) (hf : M.flags n.sys h = some w)
    {t : Waiter} (hT : M.target n.sys h = some t) (hm : w.meets t = true) {k : ℕ}
    (hk : (n.waiter h).owner = .idle (.pending k)) : k ∈ (n.waiter h).woken := by
  have ht := hi.tracks h w hf
  rw [hn] at ht
  rcases ht.target with hl | htarget
  · rw [hk] at hl
    exact hl.elim
  · obtain rfl := Option.some.inj (hT.symm.trans htarget)
    exact ht.good.inv.woken ht.idle (ht.flags_eq ▸ hm) hk

end Invariant

section Runs

open Relation

variable {v v' : WaiterState} {T : Waiter} {f : Flag} {notes rest : List (Handle × Flag)}

theorem Reachable.call (hn : Reachable M s n) (hfree : n.notes = []) (hc : M.call n.sys s')
    (hgone : ∀ h, M.flags n.sys h ≠ none → M.flags s' h = none → (n.waiter h).owner = .absent)
    (hnotes : Notes M n.sys s' notes) : ∃ waiter, Reachable M s ⟨s', waiter, notes⟩ ∧
      (∀ h, M.flags n.sys h ≠ none → waiter h = n.waiter h) ∧
      ∀ h w, M.flags n.sys h = none → M.flags s' h = some w → waiter h = .init w.hasLock := by
  refine ⟨_, hn.tail (.call notes hfree hc hgone hnotes), fun h hs => ?_, fun h w hs hs' => ?_⟩
  · obtain ⟨w, hw⟩ := Option.ne_none_iff_exists'.mp hs
    simp [joined, hw]
  · simp [joined, hs, hs']

/-- While nobody else is at work, an owner takes any steps on futures of its entry. -/
theorem Reachable.own (hn : Reachable M s n) (hf : M.flags n.sys h ≠ none)
    (hT : M.target n.sys h = some T)
    (hv : ReflTransGen (fun v v' => v.OwnerStep v' ∧ v'.target = T) (n.waiter h) v) :
    Reachable M s { n with waiter := Function.update n.waiter h v } := by
  induction hv with
  | refl => simpa using hn
  | @tail v v' _ hs ih =>
    have hstep : Step M { n with waiter := Function.update n.waiter h v }
        { n with waiter := Function.update (Function.update n.waiter h v) h v' } := by
      refine Step.own (n := { n with waiter := Function.update n.waiter h v }) hf ?_ ?_
      · simpa using hs.1
      · intro _
        rw [hs.2]
        exact hT
    rw [Function.update_idem] at hstep
    exact ih.tail hstep

theorem Reachable.notify (hn : Reachable M s n) (hnotes : n.notes = (h, f) :: rest)
    (hv : ReflTransGen (fun v v' => v.AddFlagStep f v' ∧ v'.notifier ≠ .idle) (n.waiter h) v)
    (hs : v.AddFlagStep f v') (hi : v'.notifier = .idle) :
    Reachable M s { n with waiter := Function.update n.waiter h v', notes := rest } := by
  have hbusy : Reachable M s { n with waiter := Function.update n.waiter h v } := by
    clear hs
    induction hv with
    | refl => simpa using hn
    | @tail v v' _ hs ih =>
      have hstep := Step.notify (M := M)
        (n := { n with waiter := Function.update n.waiter h v }) (w := v') hnotes
        (by simpa using hs.1)
      rw [if_neg hs.2, Function.update_idem] at hstep
      exact ih.tail hstep
  have hstep := Step.notify (M := M) (n := { n with waiter := Function.update n.waiter h v })
    (w := v') hnotes (by simpa using hs)
  rw [if_pos hi, Function.update_idem] at hstep
  exact hbusy.tail hstep

/-- A waiter whose owner has polled its first future once. -/
def polled (hasLock : Bool) (target : Waiter) : WaiterState :=
  { WaiterState.init hasLock with
    word := ⟨.new hasLock, true, 8⟩
    cell := some 0
    addr := 8
    target := target
    owner := .idle (.pending 0)
    nextWaker := 1 }

/-- A waiter whose owner has then been notified. -/
def notified (hasLock : Bool) (target : Waiter) (f : Flag) : WaiterState :=
  { polled hasLock target with
    word := ⟨(Waiter.new hasLock).addFlag f, true, 0⟩
    cell := none
    woken := [0]
    completed := [f] }

theorem Reachable.polled {b : Bool} (hn : Reachable M s n) (hf : M.flags n.sys h ≠ none)
    (hT : M.target n.sys h = some T) (hv : n.waiter h = .init b) (hself : T.meets T = true)
    (hm : (Waiter.new b).meets T = false) :
    Reachable M s { n with waiter := Function.update n.waiter h (polled b T) } := by
  have hcov : (Waiter.new b).covers T = false := by
    by_contra hc
    simp [Waiter.meets_of_covers (by simpa using hc) hself] at hm
  let v : WaiterState := { WaiterState.init b with addr := 8, target := T }
  have hcreate : WaiterState.Step (.init b) { v with owner := .idle .unpolled } :=
    .create 8 T rfl (by decide) hself
  have hpoll : WaiterState.Step { v with owner := .idle .unpolled }
      { v with owner := .clear (.first 0), nextWaker := 1 } := .poll rfl
  have hclear : WaiterState.Step { v with owner := .clear (.first 0), nextWaker := 1 }
      { v with owner := .store 0, nextWaker := 1 } := by
    have hs := WaiterState.Step.clear
      (s := { v with owner := .clear (.first 0), nextWaker := 1 }) rfl
    simpa [v, WaiterState.init, WaiterState.cleared, hcov] using hs
  have hstore : WaiterState.Step { v with owner := .store 0, nextWaker := 1 }
      { v with cell := some 0, owner := .publish 0, nextWaker := 1 } := .store rfl
  have hpublish : WaiterState.Step { v with cell := some 0, owner := .publish 0, nextWaker := 1 }
      (Tasks.polled b T) := by
    have hs := WaiterState.Step.publish
      (s := { v with cell := some 0, owner := .publish 0, nextWaker := 1 }) rfl
    simpa [v, WaiterState.init, hm, Tasks.polled] using hs
  refine hn.own hf hT ?_
  rw [hv]
  exact ReflTransGen.refl
    |>.tail ⟨⟨hcreate, rfl, rfl⟩, rfl⟩
    |>.tail ⟨⟨hpoll, rfl, rfl⟩, rfl⟩
    |>.tail ⟨⟨hclear, rfl, rfl⟩, rfl⟩
    |>.tail ⟨⟨hstore, rfl, rfl⟩, rfl⟩
    |>.tail ⟨⟨hpublish, rfl, rfl⟩, rfl⟩

/-- A notifier takes the waker of a pending poll and wakes it. -/
theorem Reachable.notified {b : Bool} (hn : Reachable M s n) (hnotes : n.notes = (h, f) :: rest)
    (hv : n.waiter h = Tasks.polled b T) :
    Reachable M s
      { n with waiter := Function.update n.waiter h (Tasks.notified b T f), notes := rest } := by
  let v (ptr : ℕ) (c : Bool) (pc : NotifierPc) : WaiterState := { Tasks.polled b T with
    word := ⟨(Waiter.new b).addFlag f, c, ptr⟩, notifier := pc }
  have hadd : WaiterState.Step (Tasks.polled b T) (v 8 true (.mask f)) :=
    .addFlag f rfl (by simp [Tasks.polled])
  have hmask : WaiterState.Step (v 8 true (.mask f)) (v 0 false (.read f 8 true)) :=
    .mask rfl (by simp [v])
  have hread : WaiterState.Step (v 0 false (.read f 8 true))
      { v 0 false (.restore f (some 0)) with cell := none } :=
    @WaiterState.Step.read _ f true 0 rfl nofun rfl
  have hrestore : WaiterState.Step { v 0 false (.restore f (some 0)) with cell := none }
      { v 0 true (.wake f 0) with cell := none } := .restore rfl
  have hwake : WaiterState.Step { v 0 true (.wake f 0) with cell := none }
      (Tasks.notified b T f) := .wake rfl
  refine hn.notify hnotes ?_ ⟨hwake, rfl, .inr ⟨rfl, rfl⟩⟩ rfl
  rw [hv]
  exact ReflTransGen.refl
    |>.tail ⟨⟨hadd, rfl, .inl rfl⟩, nofun⟩
    |>.tail ⟨⟨hmask, rfl, .inl rfl⟩, nofun⟩
    |>.tail ⟨⟨hread, rfl, .inl rfl⟩, nofun⟩
    |>.tail ⟨⟨hrestore, rfl, .inl rfl⟩, nofun⟩

end Runs

end Tasks

end PriorityLock
