import Mathlib.Data.Nat.Bits
import PriorityLock.Queue.Builtin
import PriorityLock.Waiter.Basic

/-! # Entries of a semaphore's queue

An entry has the lock once it was granted its permits. Its count shares a word
with the flag of `acquire_within_total`. Entries with the lock are above all
others; a new entry without it goes in front of equal ones that ask for more.
-/

namespace PriorityLock.Semaphore

/-- The width of `usize` and the features; `semaphore-total` needs `evict`. -/
structure Build where
  bits : ℕ
  evict : Bool
  semaphoreTotal : Bool
  bits_pos : 0 < bits
  total_evict : semaphoreTotal = true → evict = true

/-- A 64-bit target with both features, with `evict` only and with none. -/
abbrev Build.full : Build := ⟨64, true, true, by decide, fun _ => rfl⟩

abbrev Build.evicting : Build := ⟨64, true, false, by decide, nofun⟩

abbrev Build.plain : Build := ⟨64, false, false, by decide, nofun⟩

abbrev Usize (B : Build) := BitVec B.bits

def maxPermits (B : Build) : Usize B := BitVec.allOnes B.bits >>> 1

def withinTotalBit (B : Build) : Usize B := 1#B.bits <<< (B.bits - 1)

/-- `count & !WITHIN_TOTAL_BIT` -/
def masked {B : Build} (n : Usize B) : Usize B := n &&& ~~~withinTotalBit B

/-- A subtraction that does not wrap. -/
def checkedSub {B : Build} (a b : Usize B) : Option (Usize B) :=
  if b ≤ a then some (a - b) else none

def checkedAdd {B : Build} (a b : Usize B) : Option (Usize B) :=
  if a.toNat + b.toNat < 2 ^ B.bits then some (a + b) else none

/-- The queue entry of a semaphore; `rawCount` is its field `count`. -/
structure SemaphoreWaiter (B : Build) (P : Type) where
  priority : P
  waiter : Waiter
  rawCount : Usize B

namespace SemaphoreWaiter

variable {B : Build} {P : Type}

def count (w : SemaphoreWaiter B P) : Usize B :=
  if B.semaphoreTotal then masked w.rawCount else w.rawCount

def countAndFlag (w : SemaphoreWaiter B P) : Usize B × Bool :=
  (masked w.rawCount, w.rawCount &&& withinTotalBit B != 0)

def start (w : SemaphoreWaiter B P) : SemaphoreWaiter B P := { w with waiter := w.waiter.start }

def evict (w : SemaphoreWaiter B P) : SemaphoreWaiter B P := { w with waiter := w.waiter.evict }

@[simp] theorem start_count (w : SemaphoreWaiter B P) : w.start.count = w.count := rfl

instance [Priority P] : Priority (SemaphoreWaiter B P) where
  compare a b := match a.waiter.hasLock, b.waiter.hasLock with
    | true, false => .gt
    | false, true => .lt
    | _, _ => Priority.compare a.priority b.priority
  compareNew a old := match a.waiter.hasLock, old.waiter.hasLock with
    | true, false => .gt
    | false, true => .lt
    | true, true => Priority.compareNew a.priority old.priority
    | false, false => (Priority.compareNew a.priority old.priority).then
        (compare a.count.toNat old.count.toNat).swap

end SemaphoreWaiter

section Words

variable {B : Build} {m n : Usize B}

theorem pow_bits (B : Build) : 2 ^ B.bits = 2 * 2 ^ (B.bits - 1) := by
  have hb := B.bits_pos
  rw [← Nat.pow_succ']
  congr 1
  omega

theorem toNat_maxPermits (B : Build) : (maxPermits B).toNat = 2 ^ (B.bits - 1) - 1 := by
  have hp := pow_bits B
  rw [maxPermits, BitVec.toNat_ushiftRight, BitVec.toNat_allOnes, Nat.shiftRight_eq_div_pow]
  omega

theorem toNat_withinTotalBit (B : Build) : (withinTotalBit B).toNat = 2 ^ (B.bits - 1) := by
  have hp := pow_bits B
  have hb := Nat.two_pow_pos (B.bits - 1)
  rw [withinTotalBit, BitVec.toNat_shiftLeft, BitVec.toNat_ofNat, Nat.shiftLeft_eq,
    Nat.mod_eq_of_lt (by omega : 1 < 2 ^ B.bits), Nat.one_mul, Nat.mod_eq_of_lt (by omega)]

theorem toNat_masked (n : Usize B) : (masked n).toNat = n.toNat % 2 ^ (B.bits - 1) := by
  have hp := pow_bits B
  have hw : (~~~withinTotalBit B).toNat = 2 ^ (B.bits - 1) - 1 := by
    rw [BitVec.toNat_not, toNat_withinTotalBit]
    omega
  rw [masked, BitVec.toNat_and, hw, Nat.and_two_pow_sub_one_eq_mod]

theorem masked_of_lt (h : n.toNat < 2 ^ (B.bits - 1)) : masked n = n := by
  apply BitVec.eq_of_toNat_eq
  rw [toNat_masked, Nat.mod_eq_of_lt h]

theorem masked_or (n : Usize B) : masked (n ||| withinTotalBit B) = masked n := by
  ext i hi
  simp only [masked, BitVec.getElem_and, BitVec.getElem_or, BitVec.getElem_not]
  cases (withinTotalBit B)[i] <;> simp

theorem and_withinTotalBit (h : n.toNat < 2 ^ (B.bits - 1)) : n &&& withinTotalBit B = 0 := by
  apply BitVec.eq_of_toNat_eq
  rw [BitVec.toNat_and, toNat_withinTotalBit, Nat.and_two_pow, Nat.testBit_lt_two_pow h]
  simp

theorem or_and_withinTotalBit (n : Usize B) :
    (n ||| withinTotalBit B) &&& withinTotalBit B = withinTotalBit B := by
  ext i hi
  simpa using Or.inr

theorem withinTotalBit_ne_zero (B : Build) : withinTotalBit B ≠ 0 := by
  intro h
  have hn := congrArg BitVec.toNat h
  have hb := Nat.two_pow_pos (B.bits - 1)
  rw [toNat_withinTotalBit] at hn
  simp at hn

theorem toNat_sub_of_le (h : n ≤ m) : (m - n).toNat = m.toNat - n.toNat :=
  BitVec.toNat_sub_of_le h

theorem toNat_add_of_lt (h : m.toNat + n.toNat < 2 ^ B.bits) :
    (m + n).toNat = m.toNat + n.toNat := by
  rw [BitVec.toNat_add, Nat.mod_eq_of_lt h]

theorem checkedAdd_eq_some {w : Usize B} :
    checkedAdd m n = some w ↔ m.toNat + n.toNat < 2 ^ B.bits ∧ m + n = w := by
  unfold checkedAdd
  split <;> simp_all

theorem checkedAdd_eq_none : checkedAdd m n = none ↔ 2 ^ B.bits ≤ m.toNat + n.toNat := by
  unfold checkedAdd
  split <;> simp_all

theorem toNat_masked_lt (m : Usize B) : (masked m).toNat < 2 ^ (B.bits - 1) := by
  rw [toNat_masked]
  exact Nat.mod_lt _ (Nat.two_pow_pos _)

/-- A word is its count, without the flag or with it. -/
theorem toNat_cases (m : Usize B) : m.toNat = (masked m).toNat ∧ m &&& withinTotalBit B = 0 ∨
    m.toNat = (masked m).toNat + 2 ^ (B.bits - 1) ∧ m &&& withinTotalBit B = withinTotalBit B := by
  have hp := pow_bits B
  have hm := m.isLt
  rw [toNat_masked]
  by_cases hlt : m.toNat < 2 ^ (B.bits - 1)
  · exact Or.inl ⟨(Nat.mod_eq_of_lt hlt).symm, and_withinTotalBit hlt⟩
  · have hmod : m.toNat % 2 ^ (B.bits - 1) = m.toNat - 2 ^ (B.bits - 1) := by
      rw [Nat.mod_eq_sub_mod (by omega), Nat.mod_eq_of_lt (by omega)]
    have hdiv : m.toNat / 2 ^ (B.bits - 1) = 1 := Nat.div_eq_of_lt_le (by omega) (by omega)
    refine Or.inr ⟨by omega, BitVec.eq_of_toNat_eq ?_⟩
    rw [BitVec.toNat_and, toNat_withinTotalBit, Nat.and_two_pow,
      Nat.testBit_eq_decide_div_mod_eq, hdiv]
    simp

theorem flag_eq (h : m.toNat < 2 ^ (B.bits - 1) ↔ n.toNat < 2 ^ (B.bits - 1)) :
    m &&& withinTotalBit B = n &&& withinTotalBit B := by
  have hm := toNat_masked_lt m
  have hn := toNat_masked_lt n
  rcases toNat_cases m with ⟨hm', hfm⟩ | ⟨hm', hfm⟩ <;>
    rcases toNat_cases n with ⟨hn', hfn⟩ | ⟨hn', hfn⟩
  · rw [hfm, hfn]
  · omega
  · omega
  · rw [hfm, hfn]

theorem le_of_le_masked (h : n.toNat ≤ (masked m).toNat) : n ≤ m := by
  rw [toNat_masked] at h
  exact BitVec.le_def.mpr (h.trans (Nat.mod_le _ _))

theorem toNat_add_lt (h : (masked m).toNat + n.toNat < 2 ^ (B.bits - 1)) :
    m.toNat + n.toNat < 2 ^ B.bits := by
  have hp := pow_bits B
  rcases toNat_cases m with ⟨hm, -⟩ | ⟨hm, -⟩ <;> omega

/-- Taking less than its count from a word takes it from the count. -/
theorem masked_sub (h : n.toNat ≤ (masked m).toNat) :
    (masked (m - n)).toNat = (masked m).toNat - n.toNat := by
  have hsub := toNat_sub_of_le (le_of_le_masked h)
  have hm := toNat_masked_lt m
  have hd := toNat_masked_lt (m - n)
  rcases toNat_cases m with ⟨hm', -⟩ | ⟨hm', -⟩ <;>
    rcases toNat_cases (m - n) with ⟨hd', -⟩ | ⟨hd', -⟩ <;> omega

theorem flag_sub (h : n.toNat ≤ (masked m).toNat) :
    (m - n) &&& withinTotalBit B = m &&& withinTotalBit B := by
  have hsub := toNat_sub_of_le (le_of_le_masked h)
  have hm := toNat_masked_lt m
  apply flag_eq
  rcases toNat_cases m with ⟨hm', -⟩ | ⟨hm', -⟩ <;> omega

theorem masked_add (h : (masked m).toNat + n.toNat < 2 ^ (B.bits - 1)) :
    (masked (m + n)).toNat = (masked m).toNat + n.toNat := by
  have hadd := toNat_add_of_lt (toNat_add_lt h)
  have hm := toNat_masked_lt m
  have hd := toNat_masked_lt (m + n)
  rcases toNat_cases m with ⟨hm', -⟩ | ⟨hm', -⟩ <;>
    rcases toNat_cases (m + n) with ⟨hd', -⟩ | ⟨hd', -⟩ <;> omega

theorem flag_add (h : (masked m).toNat + n.toNat < 2 ^ (B.bits - 1)) :
    (m + n) &&& withinTotalBit B = m &&& withinTotalBit B := by
  have hadd := toNat_add_of_lt (toNat_add_lt h)
  have hm := toNat_masked_lt m
  apply flag_eq
  rcases toNat_cases m with ⟨hm', -⟩ | ⟨hm', -⟩ <;> omega

end Words

end PriorityLock.Semaphore
