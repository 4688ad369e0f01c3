import Mathlib.Algebra.GroupWithZero.Nat
import Mathlib.Data.List.Basic

/-! # Greedy walks with a budget

A walk spends a budget on the elements of a list in their order. It passes over
those that are settled and those that it may leave out, and ends at the first
other one that costs more than is left.
-/

namespace PriorityLock.Greedy

inductive Verdict | passed | granted | stopped
  deriving DecidableEq, Repr

/-- Whether an element is settled, what it costs, and whether it may be left out. -/
structure Rule (α : Type*) where
  settled : α → Bool
  cost : α → ℕ
  optional : α → Bool

variable {α : Type*}

def Rule.judge (R : Rule α) (budget : ℕ) (x : α) : Verdict :=
  if R.settled x then .passed
  else if R.cost x ≤ budget then .granted
  else if R.optional x then .passed
  else .stopped

/-- The elements that a walk visits and what it does with each. -/
def Rule.visits (R : Rule α) : ℕ → List α → List (α × Verdict)
  | _, [] => []
  | budget, x :: l => match R.judge budget x with
    | .passed => (x, .passed) :: R.visits budget l
    | .granted => (x, .granted) :: R.visits (budget - R.cost x) l
    | .stopped => [(x, .stopped)]

def granted (v : List (α × Verdict)) : List α := (v.filter (·.2 = .granted)).map Prod.fst

def Rule.spent (R : Rule α) (v : List (α × Verdict)) : ℕ := ((granted v).map R.cost).sum

@[simp] theorem granted_nil : granted ([] : List (α × Verdict)) = [] := rfl

variable {R : Rule α} {x : α} {n : ℕ} {b c v : List (α × Verdict)} {l : List α}

@[simp] theorem granted_passed : granted ((x, .passed) :: v) = granted v := by simp [granted]

@[simp] theorem granted_granted : granted ((x, .granted) :: v) = x :: granted v := by
  simp [granted]

@[simp] theorem granted_stopped : granted ((x, .stopped) :: v) = granted v := by simp [granted]

section Judge

theorem judge_settled (h : R.settled x = true) : R.judge n x = .passed := if_pos h

theorem judge_granted : R.judge n x = .granted ↔ R.settled x = false ∧ R.cost x ≤ n := by
  unfold Rule.judge
  split
  · next h => simp [h]
  · next h =>
    split
    · next hle => simp_all
    · next hlt => split <;> simp_all

theorem judge_optional (h : R.settled x = false) (hn : n < R.cost x) :
    R.judge n x = if R.optional x then .passed else .stopped := by
  simp [Rule.judge, h, Nat.not_le.mpr hn]

theorem visits_passed (h : R.judge n x = .passed) :
    R.visits n (x :: l) = (x, .passed) :: R.visits n l := by
  simp [Rule.visits, h]

theorem visits_granted (h : R.judge n x = .granted) :
    R.visits n (x :: l) = (x, .granted) :: R.visits (n - R.cost x) l := by
  simp [Rule.visits, h]

theorem visits_stopped (h : R.judge n x = .stopped) :
    R.visits n (x :: l) = [(x, .stopped)] := by
  simp [Rule.visits, h]

end Judge

theorem visits_settled {l' : List α} (h : ∀ x ∈ l, R.settled x = true) :
    R.visits n (l ++ l') = l.map (·, .passed) ++ R.visits n l' := by
  induction l with
  | nil => rfl
  | cons x l ih =>
    rw [List.cons_append, visits_passed (judge_settled (h x List.mem_cons_self)),
      ih fun y hy => h y (List.mem_cons_of_mem x hy)]
    rfl

theorem visits_initial (R : Rule α) (n : ℕ) (l : List α) : (R.visits n l).map Prod.fst <+: l := by
  induction l generalizing n with
  | nil => exact List.nil_prefix
  | cons x l ih =>
    rcases hj : R.judge n x with _ | _ | _
    · rw [visits_passed hj, List.map_cons]
      exact List.cons_prefix_cons.mpr ⟨rfl, ih n⟩
    · rw [visits_granted hj, List.map_cons]
      exact List.cons_prefix_cons.mpr ⟨rfl, ih (n - R.cost x)⟩
    · rw [visits_stopped hj]
      exact List.cons_prefix_cons.mpr ⟨rfl, List.nil_prefix⟩

theorem visits_all (h : ∀ y ∈ R.visits n l, y.2 ≠ .stopped) :
    (R.visits n l).map Prod.fst = l := by
  induction l generalizing n with
  | nil => rfl
  | cons x l ih =>
    rcases hj : R.judge n x with _ | _ | _
    · rw [visits_passed hj] at h ⊢
      rw [List.map_cons, ih fun y hy => h y (List.mem_cons_of_mem _ hy)]
    · rw [visits_granted hj] at h ⊢
      rw [List.map_cons, ih fun y hy => h y (List.mem_cons_of_mem _ hy)]
    · rw [visits_stopped hj] at h
      exact absurd rfl (h (x, .stopped) List.mem_cons_self)

/-- Each verdict is the one under what those before it have left of the budget, and a stop is the
last. -/
theorem visits_judge {y : α × Verdict} (h : R.visits n l = b ++ y :: c) : ∃ left,
    left + R.spent b = n ∧ y.2 = R.judge left y.1 ∧ (y.2 = .stopped → c = []) := by
  induction l generalizing n b with
  | nil => simp [Rule.visits] at h
  | cons x l ih =>
    cases b with
    | nil =>
      refine ⟨n, rfl, ?_⟩
      rcases hj : R.judge n x with _ | _ | _
      · obtain ⟨rfl, -⟩ := List.cons_eq_cons.mp ((visits_passed hj).symm.trans h)
        exact ⟨hj.symm, fun hs => nomatch hs⟩
      · obtain ⟨rfl, -⟩ := List.cons_eq_cons.mp ((visits_granted hj).symm.trans h)
        exact ⟨hj.symm, fun hs => nomatch hs⟩
      · obtain ⟨rfl, hc⟩ := List.cons_eq_cons.mp ((visits_stopped hj).symm.trans h)
        exact ⟨hj.symm, fun _ => hc.symm⟩
    | cons z b =>
      rcases hj : R.judge n x with _ | _ | _
      · obtain ⟨rfl, hb⟩ := List.cons_eq_cons.mp ((visits_passed hj).symm.trans h)
        obtain ⟨left, hl, hy⟩ := ih hb
        exact ⟨left, by simpa [Rule.spent] using hl, hy⟩
      · obtain ⟨rfl, hb⟩ := List.cons_eq_cons.mp ((visits_granted hj).symm.trans h)
        obtain ⟨left, hl, hy⟩ := ih hb
        have hle := (judge_granted.mp hj).2
        refine ⟨left, ?_, hy⟩
        simp only [Rule.spent, granted_granted, List.map_cons, List.sum_cons] at hl ⊢
        omega
      · obtain ⟨-, hb⟩ := List.cons_eq_cons.mp ((visits_stopped hj).symm.trans h)
        simp at hb

end PriorityLock.Greedy
