import Mathlib.Algebra.Group.Nat.Defs
import Mathlib.Data.Nat.Log
import PriorityLock.Transition.Tally

/-! # High-water marks

The peak of a measure along a run. A block that starts with a power of two and
doubles when it is full, and is never given back, has a size that its peak load
alone determines.
-/

namespace PriorityLock.Transition

variable {σ ω : Type} {step : σ → ω → Option σ} {s s' t : σ} {os : List ω} {o : ω}

/-- The greatest value of a measure at the states of a run. -/
def peak (step : σ → ω → Option σ) (measure : σ → ℕ) : σ → List ω → ℕ
  | s, [] => measure s
  | s, o :: os => max (measure s) <| match step s o with
    | none => 0
    | some s' => peak step measure s' os

theorem peak_concat {measure : σ → ℕ} (hr : run step s os = some s') (hs : step s' o = some t) :
    peak step measure s (os ++ [o]) = max (peak step measure s os) (measure t) := by
  induction os generalizing s with
  | nil =>
    obtain rfl : s = s' := Option.some.inj hr
    simp [peak, hs]
  | cons x os ih =>
    rw [run_cons] at hr
    obtain ⟨u, hx, hu⟩ := Option.bind_eq_some_iff.mp hr
    rw [List.cons_append, peak, peak, hx]
    dsimp only
    rw [ih hu, Nat.max_assoc]

/-- What every step keeps, with the highest mark so far, holds with the peak of the run. -/
theorem run_peak {measure : σ → ℕ} {R : σ → ℕ → Prop} (hstart : R s (measure s))
    (hstep : ∀ s n o, R s n → ∃ s', step s o = some s' ∧ R s' (max n (measure s')))
    (os : List ω) : ∃ s', run step s os = some s' ∧ R s' (peak step measure s os) := by
  induction os using List.reverseRecOn with
  | nil => exact ⟨s, rfl, hstart⟩
  | append_singleton os o ih =>
    obtain ⟨s', hr, hR⟩ := ih
    obtain ⟨t, hs, hR'⟩ := hstep s' _ o hR
    refine ⟨t, (run_concat hr).trans hs, ?_⟩
    rwa [peak_concat hr hs]

/-- The slots of a block for a load, if it starts with `2 ^ k` of them and doubles. -/
def slots (k n : ℕ) : ℕ := if n = 0 then 0 else 2 ^ max k (Nat.clog 2 n)

@[simp] theorem slots_zero (k : ℕ) : slots k 0 = 0 := if_pos rfl

theorem slots_of_pos {k n : ℕ} (h : 0 < n) : slots k n = 2 ^ max k (Nat.clog 2 n) :=
  if_neg h.ne'

theorem le_slots (k n : ℕ) : n ≤ slots k n := by
  rcases Nat.eq_zero_or_pos n with rfl | h
  · exact Nat.zero_le _
  · rw [slots_of_pos h]
    calc n ≤ 2 ^ Nat.clog 2 n := Nat.le_pow_clog Nat.one_lt_two n
      _ ≤ 2 ^ max k (Nat.clog 2 n) := Nat.pow_le_pow_right Nat.two_pos (Nat.le_max_right _ _)

theorem slots_eq_of_le {k m n : ℕ} (h : n ≤ m) (h' : m ≤ slots k n) : slots k m = slots k n := by
  rcases Nat.eq_zero_or_pos n with rfl | hn
  · rw [slots_zero, Nat.le_zero] at h'
    rw [h']
  · have hm : 0 < m := hn.trans_le h
    rw [slots_of_pos hn] at h' ⊢
    rw [slots_of_pos hm]
    have hle : Nat.clog 2 m ≤ max k (Nat.clog 2 n) := Nat.clog_le_of_le_pow h'
    have hge : Nat.clog 2 n ≤ Nat.clog 2 m := Nat.clog_mono_right 2 h
    congr 1
    omega

/-- A full block starts or doubles. -/
theorem slots_succ_of_full {k n : ℕ} (h : slots k n = n) :
    slots k (n + 1) = if n = 0 then 2 ^ k else 2 * n := by
  rw [slots_of_pos n.succ_pos]
  rcases Nat.eq_zero_or_pos n with rfl | hn
  · simp
  · rw [if_neg hn.ne']
    rw [slots_of_pos hn] at h
    have hclog : Nat.clog 2 (n + 1) = max k (Nat.clog 2 n) + 1 := by
      conv_lhs => rw [← h]
      apply Nat.le_antisymm
      · apply Nat.clog_le_of_le_pow
        have hp := Nat.two_pow_pos (max k (Nat.clog 2 n))
        rw [Nat.pow_succ]
        omega
      · exact (Nat.lt_clog_iff_pow_lt Nat.one_lt_two).mpr (Nat.lt_succ_self _)
    rw [hclog, Nat.max_eq_right (by omega), Nat.pow_succ, h, Nat.mul_comm]

end PriorityLock.Transition
