import Mathlib.Data.List.Basic

/-! # Runs of a partial step function

A run applies a step for each operation of a sequence and is undefined as soon
as one step is. An invariant that every step keeps, while being defined, holds
at the end of every run, and every run is then defined.
-/

namespace PriorityLock.Transition

variable {σ ω ρ : Type} {step : σ → ω → Option σ}

/-- The state that a call with a result leaves. -/
def after (call : σ → ω → Option (ρ × σ)) (s : σ) (o : ω) : Option σ := (call s o).map Prod.snd

theorem after_eq {call : σ → ω → Option (ρ × σ)} {s s' : σ} {o : ω} {r : ρ}
    (h : call s o = some (r, s')) : after call s o = some s' := by
  simp [after, h]

/-- The results of a sequence of calls, up to the first undefined one. -/
def trace (call : σ → ω → Option (ρ × σ)) : σ → List ω → List (Option ρ)
  | _, [] => []
  | s, o :: os => match call s o with
    | none => [none]
    | some (r, s') => some r :: trace call s' os

theorem trace_singleton (call : σ → ω → Option (ρ × σ)) (s : σ) (o : ω) :
    trace call s [o] = [(call s o).map Prod.fst] := by
  cases h : call s o <;> simp [trace, h]

/-- Systems that give the same results and stay related have the same traces. -/
theorem trace_eq_of_related {τ : Type} {call : σ → ω → Option (ρ × σ)}
    {call' : τ → ω → Option (ρ × τ)} {R : σ → τ → Prop}
    (hstep : ∀ s t o, R s t →
      ∃ r s' t', call s o = some (r, s') ∧ call' t o = some (r, t') ∧ R s' t')
    {s : σ} {t : τ} (h : R s t) (os : List ω) : trace call s os = trace call' t os := by
  induction os generalizing s t with
  | nil => rfl
  | cons o os ih =>
    obtain ⟨r, s', t', hs, ht, hr⟩ := hstep s t o h
    rw [trace, trace, hs, ht]
    exact congrArg _ (ih hr)

def run (step : σ → ω → Option σ) : σ → List ω → Option σ
  | s, [] => some s
  | s, o :: os => (step s o).bind fun s' => run step s' os

@[simp] theorem run_cons (s : σ) (o : ω) (os : List ω) :
    run step s (o :: os) = (step s o).bind fun s' => run step s' os := rfl

theorem run_map {τ : Type} {step' : τ → ω → Option τ} {f : σ → τ}
    (h : ∀ s o, step' (f s) o = (step s o).map f) (s : σ) (os : List ω) :
    run step' (f s) os = (run step s os).map f := by
  induction os generalizing s with
  | nil => rfl
  | cons o os ih =>
    rw [run_cons, run_cons, h]
    cases step s o with
    | none => rfl
    | some s' => exact ih s'

/-- An invariant kept by every admissible step holds after every admissible run. -/
theorem run_invariant {inv : σ → Prop} {ok : ω → Prop}
    (hstep : ∀ s o, inv s → ok o → ∃ s', step s o = some s' ∧ inv s') {s : σ} (hs : inv s)
    {os : List ω} (hos : ∀ o ∈ os, ok o) : ∃ s', run step s os = some s' ∧ inv s' := by
  induction os generalizing s with
  | nil => exact ⟨s, rfl, hs⟩
  | cons o os ih =>
    obtain ⟨s₁, h₁, hi⟩ := hstep s o hs (hos o (by simp))
    obtain ⟨s₂, h₂, hi'⟩ := ih hi fun o' ho => hos o' (by simp [ho])
    exact ⟨s₂, by simp [h₁, h₂], hi'⟩

theorem run_keeps {inv : σ → Prop} (hstep : ∀ s o, inv s → ∃ s', step s o = some s' ∧ inv s')
    {s : σ} (hs : inv s) (os : List ω) : ∃ s', run step s os = some s' ∧ inv s' := by
  have hok : ∀ s o, inv s → (fun _ : ω => True) o → ∃ s', step s o = some s' ∧ inv s' :=
    fun s o hi _ => hstep s o hi
  exact run_invariant hok hs fun _ _ => trivial

end PriorityLock.Transition
