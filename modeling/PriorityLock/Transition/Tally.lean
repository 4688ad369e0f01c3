import PriorityLock.Transition.History

/-! # Counting along runs

What the steps of a run cost is paid out of a number that is known at its start
and of what the operations bring with them. So a bound for one step, with the
number that it leaves, is a bound for the run.
-/

namespace PriorityLock.Transition

variable {σ ω : Type} {step : σ → ω → Option σ} {s₀ s s' : σ} {os before later : List ω} {o : ω}
  {P : σ → Prop}

/-- The sum of what each operation of a run costs in the state that it finds. -/
def tally (step : σ → ω → Option σ) (cost : σ → ω → ℕ) : σ → List ω → ℕ
  | _, [] => 0
  | s, o :: os => cost s o + match step s o with
    | none => 0
    | some s' => tally step cost s' os

theorem tally_concat {cost : σ → ω → ℕ} (hr : run step s os = some s') :
    tally step cost s (os ++ [o]) = tally step cost s os + cost s' o := by
  induction os generalizing s with
  | nil =>
    obtain rfl : s = s' := Option.some.inj hr
    rw [List.nil_append, tally, tally, Nat.zero_add]
    cases step s o <;> rfl
  | cons x os ih =>
    rw [run_cons] at hr
    obtain ⟨t, hx, ht⟩ := Option.bind_eq_some_iff.mp hr
    rw [List.cons_append, tally, tally, hx]
    dsimp only
    rw [ih ht, Nat.add_assoc]

/-- What each operation of a run gives in the state that it finds, in order. -/
def gather {α : Type} (step : σ → ω → Option σ) (give : σ → ω → List α) : σ → List ω → List α
  | _, [] => []
  | s, o :: os => give s o ++ match step s o with
    | none => []
    | some s' => gather step give s' os

theorem gather_concat {α : Type} {give : σ → ω → List α} (hr : run step s os = some s') :
    gather step give s (os ++ [o]) = gather step give s os ++ give s' o := by
  induction os generalizing s with
  | nil =>
    obtain rfl : s = s' := Option.some.inj hr
    simp only [List.nil_append, gather]
    cases step s o <;> simp
  | cons x os ih =>
    rw [run_cons] at hr
    obtain ⟨t, hx, ht⟩ := Option.bind_eq_some_iff.mp hr
    rw [List.cons_append, gather, gather, hx]
    dsimp only
    rw [ih ht, List.append_assoc]

/-- A step that costs something leaves less, unless its operation pays. -/
theorem tally_le {cost : σ → ω → ℕ} (pays : ω → Bool) {Left : σ → ℕ → Prop}
    (hstep : ∀ s o s' n, Left s n → step s o = some s' → P s' →
      ∃ n', Left s' n' ∧ n' + cost s o ≤ n + if pays o = true then 1 else 0)
    (hr : run step s₀ before = some s) (ht : Throughout step s₀ P before later) {n : ℕ}
    (hn : Left s n) : ∃ s' n', run step s later = some s' ∧ Left s' n' ∧
      n' + tally step cost s later ≤ n + later.countP pays := by
  induction later using List.reverseRecOn with
  | nil => exact ⟨s, n, rfl, hn, by simp [tally]⟩
  | append_singleton later o ih =>
    obtain ⟨ht, s₂, hr₂, hp⟩ := throughout_concat.mp ht
    obtain ⟨s₁, n₁, hr₁, hn₁, hle⟩ := ih ht
    have hall : run step s₀ (before ++ later) = some s₁ := by
      rw [run_append, hr, Option.bind_some, hr₁]
    have hs : step s₁ o = some s₂ := (run_concat hall).symm.trans hr₂
    obtain ⟨n₂, hn₂, hle'⟩ := hstep s₁ o s₂ n₁ hn₁ hs hp
    refine ⟨s₂, n₂, (run_concat hr₁).trans hs, hn₂, ?_⟩
    rw [tally_concat hr₁, List.countP_append, List.countP_singleton]
    omega

end PriorityLock.Transition
