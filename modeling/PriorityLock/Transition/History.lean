import Mathlib.Data.List.Induction
import PriorityLock.Transition.Runs

/-! # Histories of runs

What happened along a run is told by its prefixes: a property has held since a
moment or since a step of the run. Each of these statements is extended by one
operation at a time, and every step of a run can be asked for what it does.
-/

namespace PriorityLock.Transition

variable {σ ω ρ : Type} {step : σ → ω → Option σ} {s₀ s s' : σ} {os before later : List ω} {o : ω}
  {P A : σ → Prop} {E : σ → ω → Prop}

theorem run_append (s : σ) (os os' : List ω) :
    run step s (os ++ os') = (run step s os).bind fun s' => run step s' os' := by
  induction os generalizing s with
  | nil => rfl
  | cons o os ih =>
    rw [List.cons_append, run_cons, run_cons]
    cases step s o with
    | none => rfl
    | some s' => exact ih s'

theorem run_concat (hr : run step s₀ os = some s) : run step s₀ (os ++ [o]) = step s o := by
  rw [run_append, hr, Option.bind_some, run_cons]
  cases step s o <;> rfl

/-- A property holds at every moment from a prefix of a run on. -/
def Throughout (step : σ → ω → Option σ) (s₀ : σ) (P : σ → Prop) (before later : List ω) : Prop :=
  ∀ mid, mid <+: later → ∃ s, run step s₀ (before ++ mid) = some s ∧ P s

/-- At some moment of a run it was so, and a property has held since then. -/
def Since (step : σ → ω → Option σ) (s₀ : σ) (P A : σ → Prop) (os : List ω) : Prop :=
  ∃ before later, os = before ++ later ∧ (∃ s, run step s₀ before = some s ∧ A s) ∧
    Throughout step s₀ P before later

/-- At some step of a run it happened, and a property has held since just before it. -/
def SinceStep (step : σ → ω → Option σ) (s₀ : σ) (P : σ → Prop) (E : σ → ω → Prop)
    (os : List ω) : Prop :=
  ∃ before o later, os = before ++ o :: later ∧ (∃ s, run step s₀ before = some s ∧ E s o) ∧
    Throughout step s₀ P before (o :: later)

/-- At some step of a run it happened, and a property has held since just after it. -/
def SinceAfter (step : σ → ω → Option σ) (s₀ : σ) (P : σ → Prop) (E : σ → ω → Prop)
    (os : List ω) : Prop :=
  ∃ before o later, os = before ++ o :: later ∧ (∃ s, run step s₀ before = some s ∧ E s o) ∧
    Throughout step s₀ P (before ++ [o]) later

theorem throughout_nil : Throughout step s₀ P before [] ↔
    ∃ s, run step s₀ before = some s ∧ P s := by
  constructor
  · intro h
    simpa using h [] List.prefix_rfl
  · intro h mid hm
    obtain rfl := List.prefix_nil.mp hm
    simpa using h

theorem throughout_concat : Throughout step s₀ P before (later ++ [o]) ↔
    Throughout step s₀ P before later ∧
      ∃ s, run step s₀ (before ++ later ++ [o]) = some s ∧ P s := by
  constructor
  · intro h
    constructor
    · exact fun mid hm => h mid (hm.trans (List.prefix_append later [o]))
    · simpa using h (later ++ [o]) List.prefix_rfl
  · rintro ⟨h, h'⟩ mid hm
    rcases List.prefix_concat_iff.mp hm with rfl | hm
    · simpa using h'
    · exact h mid hm

theorem Throughout.now (h : Throughout step s₀ P before later)
    (hr : run step s₀ (before ++ later) = some s) : P s := by
  obtain ⟨t, ht, hp⟩ := h later List.prefix_rfl
  rw [hr] at ht
  exact Option.some.inj ht ▸ hp

theorem Since.now (h : Since step s₀ P A os) (hr : run step s₀ os = some s) : P s := by
  obtain ⟨before, later, rfl, -, ht⟩ := h
  exact ht.now hr

theorem SinceStep.now (h : SinceStep step s₀ P E os) (hr : run step s₀ os = some s) : P s := by
  obtain ⟨before, o, later, rfl, -, ht⟩ := h
  exact ht.now hr

theorem Since.imp {P' A' : σ → Prop} (h : Since step s₀ P A os) (hP : ∀ s, P s → P' s)
    (hA : ∀ s, P s → A s → A' s) : Since step s₀ P' A' os := by
  obtain ⟨before, later, rfl, ⟨s, hr, ha⟩, ht⟩ := h
  have hs : P s := by
    obtain ⟨t, hrt, hp⟩ := ht [] List.nil_prefix
    rw [List.append_nil, hr] at hrt
    exact Option.some.inj hrt ▸ hp
  refine ⟨before, later, rfl, ⟨s, hr, hA s hs ha⟩, fun mid hm => ?_⟩
  obtain ⟨t, hrt, hp⟩ := ht mid hm
  exact ⟨t, hrt, hP t hp⟩

theorem since_now (hr : run step s₀ os = some s) (hP : P s) (hA : A s) : Since step s₀ P A os :=
  ⟨os, [], by simp, ⟨s, hr, hA⟩, throughout_nil.mpr ⟨s, hr, hP⟩⟩

theorem since_concat (hr : run step s₀ os = some s) (hs : step s o = some s') :
    Since step s₀ P A (os ++ [o]) ↔ P s' ∧ (A s' ∨ Since step s₀ P A os) := by
  have hr' : run step s₀ (os ++ [o]) = some s' := (run_concat hr).trans hs
  constructor
  · rintro ⟨before, later, h, hA, ht⟩
    have hp : P s' := ht.now (h ▸ hr')
    refine ⟨hp, ?_⟩
    rcases List.eq_nil_or_concat' later with rfl | ⟨later, x, rfl⟩
    · obtain ⟨t, hrt, ha⟩ := hA
      rw [List.append_nil] at h
      rw [← h, hr'] at hrt
      exact Or.inl (Option.some.inj hrt ▸ ha)
    · rw [← List.append_assoc] at h
      obtain ⟨rfl, -⟩ := List.append_inj' h rfl
      exact Or.inr ⟨before, later, rfl, hA, (throughout_concat.mp ht).1⟩
  · rintro ⟨hp, ha | ⟨before, later, rfl, hA, ht⟩⟩
    · exact ⟨os ++ [o], [], by simp, ⟨s', hr', ha⟩, throughout_nil.mpr ⟨s', hr', hp⟩⟩
    · exact ⟨before, later ++ [o], by simp, hA, throughout_concat.mpr ⟨ht, s', hr', hp⟩⟩

theorem sinceStep_concat (hr : run step s₀ os = some s) (hs : step s o = some s') :
    SinceStep step s₀ P E (os ++ [o]) ↔ P s' ∧ (P s ∧ E s o ∨ SinceStep step s₀ P E os) := by
  have hr' : run step s₀ (os ++ [o]) = some s' := (run_concat hr).trans hs
  constructor
  · rintro ⟨before, x, later, h, hE, ht⟩
    have hp : P s' := ht.now (h ▸ hr')
    refine ⟨hp, ?_⟩
    rcases List.eq_nil_or_concat' later with rfl | ⟨later, y, rfl⟩
    · obtain ⟨rfl, hx⟩ := List.append_inj' h rfl
      obtain rfl : o = x := by simpa using hx
      obtain ⟨t, hrt, he⟩ := hE
      obtain rfl : s = t := Option.some.inj (hr.symm.trans hrt)
      have hn := ht [] (by simp)
      rw [List.append_nil, hr] at hn
      obtain ⟨t, hst, hps⟩ := hn
      exact Or.inl ⟨Option.some.inj hst ▸ hps, he⟩
    · rw [← List.cons_append, ← List.append_assoc] at h
      obtain ⟨rfl, -⟩ := List.append_inj' h rfl
      exact Or.inr ⟨before, x, later, rfl, hE, (throughout_concat.mp ht).1⟩
  · rintro ⟨hp, ⟨hps, he⟩ | ⟨before, x, later, rfl, hE, ht⟩⟩
    · refine ⟨os, o, [], rfl, ⟨s, hr, he⟩, ?_⟩
      rw [← List.nil_append [o], throughout_concat, throughout_nil]
      exact ⟨⟨s, hr, hps⟩, s', by simpa using hr', hp⟩
    · exact ⟨before, x, later ++ [o], by simp, hE, throughout_concat.mpr ⟨ht, s', hr', hp⟩⟩

theorem sinceAfter_concat (hr : run step s₀ os = some s) (hs : step s o = some s') (hP : P s')
    (h : E s o ∨ SinceAfter step s₀ P E os) : SinceAfter step s₀ P E (os ++ [o]) := by
  have hr' : run step s₀ (os ++ [o]) = some s' := (run_concat hr).trans hs
  rcases h with he | ⟨before, x, later, rfl, hE, ht⟩
  · exact ⟨os, o, [], rfl, ⟨s, hr, he⟩, throughout_nil.mpr ⟨s', hr', hP⟩⟩
  · refine ⟨before, x, later ++ [o], by simp, hE, throughout_concat.mpr ⟨ht, s', ?_, hP⟩⟩
    simpa using hr'

/-- An invariant of states with their history, kept by every step, holds after every run. -/
theorem run_history {inv : List ω → σ → Prop} (hstart : inv [] s₀)
    (hstep : ∀ os s o, run step s₀ os = some s → inv os s →
      ∃ s', step s o = some s' ∧ inv (os ++ [o]) s') (os : List ω) :
    ∃ s, run step s₀ os = some s ∧ inv os s := by
  induction os using List.reverseRecOn with
  | nil => exact ⟨s₀, rfl, hstart⟩
  | append_singleton os o ih =>
    obtain ⟨s, hr, hi⟩ := ih
    obtain ⟨s', hs, hi'⟩ := hstep os s o hr hi
    exact ⟨s', (run_concat hr).trans hs, hi'⟩

section Steps

variable {E' C : σ → ω → Prop} {R : List ω → σ → Prop}

/-- Every step of a run does something. -/
def EachStep (step : σ → ω → Option σ) (s₀ : σ) (E : σ → ω → Prop) (os : List ω) : Prop :=
  ∀ before o later, os = before ++ o :: later → ∃ s, run step s₀ before = some s ∧ E s o

/-- Every state of a run, with what led to it, has a property. -/
def Always (step : σ → ω → Option σ) (s₀ : σ) (R : List ω → σ → Prop) (os : List ω) : Prop :=
  ∀ before, before <+: os → ∃ s, run step s₀ before = some s ∧ R before s

theorem eachStep_nil : EachStep step s₀ E [] := by
  intro before o later h
  simp at h

theorem eachStep_concat (hr : run step s₀ os = some s) :
    EachStep step s₀ E (os ++ [o]) ↔ EachStep step s₀ E os ∧ E s o := by
  constructor
  · intro h
    constructor
    · rintro before x later rfl
      exact h before x (later ++ [o]) (by simp)
    · obtain ⟨t, ht, he⟩ := h os o [] rfl
      obtain rfl : s = t := Option.some.inj (hr.symm.trans ht)
      exact he
  · rintro ⟨h, he⟩ before x later hos
    rcases List.eq_nil_or_concat' later with rfl | ⟨later, y, rfl⟩
    · obtain ⟨rfl, hx⟩ := List.append_inj' hos rfl
      obtain rfl : o = x := by simpa using hx
      exact ⟨s, hr, he⟩
    · rw [← List.cons_append, ← List.append_assoc] at hos
      exact h before x later (List.append_inj' hos rfl).1

theorem always_nil : Always step s₀ R [] ↔ R [] s₀ := by
  constructor
  · intro h
    obtain ⟨s, hr, hs⟩ := h [] List.prefix_rfl
    exact Option.some.inj hr ▸ hs
  · intro h before hb
    obtain rfl := List.prefix_nil.mp hb
    exact ⟨s₀, rfl, h⟩

theorem always_concat (hr : run step s₀ (os ++ [o]) = some s) :
    Always step s₀ R (os ++ [o]) ↔ Always step s₀ R os ∧ R (os ++ [o]) s := by
  constructor
  · intro h
    constructor
    · exact fun before hb => h before (hb.trans (List.prefix_append os [o]))
    · obtain ⟨t, ht, hR⟩ := h _ List.prefix_rfl
      obtain rfl : s = t := Option.some.inj (hr.symm.trans ht)
      exact hR
  · rintro ⟨h, hR⟩ before hb
    rcases List.prefix_concat_iff.mp hb with rfl | hb
    · exact ⟨s, hr, hR⟩
    · exact h before hb

theorem eachStep_congr (h : ∀ os o, ∃ s, run step s₀ os = some s ∧ (E s o ↔ E' s o))
    (os : List ω) : EachStep step s₀ E os ↔ EachStep step s₀ E' os := by
  constructor
  · rintro hE before o later rfl
    obtain ⟨s, hr, he⟩ := h before o
    obtain ⟨t, ht, hEt⟩ := hE before o later rfl
    obtain rfl : s = t := Option.some.inj (hr.symm.trans ht)
    exact ⟨s, hr, he.mp hEt⟩
  · rintro hE before o later rfl
    obtain ⟨s, hr, he⟩ := h before o
    obtain ⟨t, ht, hEt⟩ := hE before o later rfl
    obtain rfl : s = t := Option.some.inj (hr.symm.trans ht)
    exact ⟨s, hr, he.mpr hEt⟩

/-- A property that a step keeps if and only if it meets a condition holds along a run if and
only if every step meets it. -/
theorem always_iff (inv : List ω → σ → Prop) (hstart : inv [] s₀) (hR : R [] s₀)
    (hstep : ∀ os s o, run step s₀ os = some s → inv os s → ∃ s', step s o = some s' ∧
      inv (os ++ [o]) s' ∧ (R os s → (R (os ++ [o]) s' ↔ C s o))) (os : List ω) :
    Always step s₀ R os ↔ EachStep step s₀ C os := by
  have hall := fun os => run_history hstart (fun os s o hr hi => by
    obtain ⟨s', hs, hi', -⟩ := hstep os s o hr hi
    exact ⟨s', hs, hi'⟩) os
  induction os using List.reverseRecOn with
  | nil => exact iff_of_true (always_nil.mpr hR) eachStep_nil
  | append_singleton os o ih =>
    obtain ⟨s, hr, hi⟩ := hall os
    obtain ⟨s', hs, -, hiff⟩ := hstep os s o hr hi
    rw [always_concat ((run_concat hr).trans hs), eachStep_concat hr]
    have hnow : Always step s₀ R os → R os s := by
      intro h
      obtain ⟨t, ht, hRt⟩ := h os List.prefix_rfl
      obtain rfl : s = t := Option.some.inj (hr.symm.trans ht)
      exact hRt
    constructor
    · rintro ⟨h, hR'⟩
      exact ⟨ih.mp h, (hiff (hnow h)).mp hR'⟩
    · rintro ⟨h, hC⟩
      exact ⟨ih.mpr h, (hiff (hnow (ih.mpr h))).mpr hC⟩

end Steps

end PriorityLock.Transition
