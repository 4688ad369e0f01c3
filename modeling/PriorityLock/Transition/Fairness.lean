import Mathlib.Data.List.Perm.Subperm
import Mathlib.Order.Monotone.Basic

/-! # Progress of infinite runs

A rank that no step raises is constant from some moment on. A run whose steps
raise no rank, and which cannot stay at one rank for ever, gets to its goal.
-/

namespace PriorityLock.Transition

variable {σ : Type} {run : ℕ → σ}

theorem rank_settles {rank : σ → ℕ} {n : ℕ}
    (hle : ∀ m ≥ n, rank (run (m + 1)) ≤ rank (run m)) :
    ∃ N ≥ n, ∀ m ≥ N, rank (run m) = rank (run N) := by
  induction hr : rank (run n) using Nat.strong_induction_on generalizing n with
  | h r ih =>
    by_cases hlt : ∃ m ≥ n, rank (run m) < r
    · obtain ⟨m, hm, hlt⟩ := hlt
      obtain ⟨N, hN, hc⟩ := ih _ hlt (fun k hk => hle k (hm.trans hk)) rfl
      exact ⟨N, hm.trans hN, hc⟩
    · have hanti : ∀ m ≥ n, rank (run m) ≤ r := by
        intro m hm
        induction m, hm using Nat.le_induction with
        | base => exact hr.le
        | succ m hm ih => exact (hle m hm).trans ih
      refine ⟨n, Nat.le_refl n, fun m hm => ?_⟩
      rw [hr]
      exact Nat.le_antisymm (hanti m hm) (Nat.le_of_not_lt fun h => hlt ⟨m, hm, h⟩)

/-- What lists without duplicates only lose is lost at some moment. -/
theorem members_settle {α : Type} {members : ℕ → List α} {n : ℕ}
    (hn : ∀ m ≥ n, (members m).Nodup) (hs : ∀ m ≥ n, members (m + 1) ⊆ members m) :
    ∃ N ≥ n, ∀ m ≥ N, ∀ x, x ∈ members m ↔ x ∈ members N := by
  have hle : ∀ m ≥ n, (members (m + 1)).length ≤ (members m).length := fun m hm =>
    ((hn (m + 1) (Nat.le_succ_of_le hm)).subperm (hs m hm)).length_le
  obtain ⟨N, hN, hc⟩ := @rank_settles _ members List.length n hle
  refine ⟨N, hN, fun m hm => ?_⟩
  induction m, hm using Nat.le_induction with
  | base => exact fun x => Iff.rfl
  | succ m hm ih =>
    have hlen : (members m).length ≤ (members (m + 1)).length := by
      rw [hc m hm, hc (m + 1) (Nat.le_succ_of_le hm)]
    have hp : (members (m + 1)).Perm (members m) :=
      ((hn (m + 1) (Nat.le_succ_of_le (hN.trans hm))).subperm
        (hs m (hN.trans hm))).perm_of_length_le hlen
    exact fun x => hp.mem_iff.trans (ih x)

/-- A run that cannot stay away from its goal at a constant rank gets there. -/
theorem reaches_goal (goal : σ → Prop) (rank : σ → ℕ)
    (hle : ∀ n, ¬ goal (run n) → ¬ goal (run (n + 1)) → rank (run (n + 1)) ≤ rank (run n))
    (hmoves : ∀ n, ¬ ∀ m ≥ n, ¬ goal (run m) ∧ rank (run m) = rank (run n)) (n : ℕ) :
    ∃ m ≥ n, goal (run m) := by
  by_contra hnot
  have hg : ∀ m ≥ n, ¬ goal (run m) := fun m hm h => hnot ⟨m, hm, h⟩
  have hr : ∀ m ≥ n, rank (run (m + 1)) ≤ rank (run m) :=
    fun m hm => hle m (hg m hm) (hg (m + 1) (Nat.le_succ_of_le hm))
  obtain ⟨N, hN, hc⟩ := rank_settles hr
  exact hmoves N fun m hm => ⟨hg m (hN.trans hm), hc m hm⟩

end PriorityLock.Transition
