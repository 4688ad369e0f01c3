import PriorityLock.Waiter.Storage

/-! # The packed word of a waiter

The word is a pointer whose low bits hold flags, as the alignment of the storage
leaves them free. Every `fetch_and` and `fetch_or` on it with the masks of the
build is an atomic step of a waiter, so that the bits of the code behave as the
fields of `Word` along every run.
-/

namespace PriorityLock

/-- The width of a pointer, and whether `evict` or `semaphore-total` is on. -/
structure Layout where
  bits : ℕ
  evict : Bool
  le_bits : 3 ≤ bits

namespace Layout

variable (L : Layout)

abbrev Usize := BitVec L.bits

def hasLockFlag : L.Usize := 1#L.bits

def canDropFlag : L.Usize := 2#L.bits

def wantsEvictFlag : L.Usize := if L.evict then 4#L.bits else 0#L.bits

def flagMask : L.Usize := L.hasLockFlag ||| L.canDropFlag ||| L.wantsEvictFlag

def ptrMask : L.Usize := ~~~L.flagMask

def flag : Flag → L.Usize
  | .hasLock => L.hasLockFlag
  | .wantsEvict => L.wantsEvictFlag

/-- The mask of a future: `WAITER_FLAG_HAS_LOCK`, `WAITER_FLAG_WANTS_EVICT` or both. -/
def target (T : Waiter) : L.Usize :=
  (if T.hasLock then L.hasLockFlag else 0) ||| (if T.wantsEvict then L.wantsEvictFlag else 0)

def flags (x : L.Usize) : Waiter := ⟨x &&& L.hasLockFlag != 0, x &&& L.wantsEvictFlag != 0⟩

/-- A word as its flags, `WAITER_FLAG_CAN_DROP` and the pointer. -/
def decode (x : L.Usize) : Word := ⟨L.flags x, x &&& L.canDropFlag != 0, (x &&& L.ptrMask).toNat⟩

def Has (T : Waiter) : Prop := T.wantsEvict = true → L.evict = true

/-- What `repr(align(..))` promises of an address. -/
def Aligned (addr : L.Usize) : Prop := addr &&& L.flagMask = 0

instance (addr : L.Usize) : Decidable (L.Aligned addr) :=
  inferInstanceAs (Decidable (addr &&& L.flagMask = 0))

section Bits

variable {L} {x addr : L.Usize} {T : Waiter} {i : ℕ}

theorem getLsbD_hasLockFlag : L.hasLockFlag.getLsbD i = decide (i = 0) := by
  have hb := L.le_bits
  rw [hasLockFlag, BitVec.getLsbD_one]
  by_cases hi : i = 0
  · simp [hi]
    omega
  · simp [hi]

theorem getLsbD_canDropFlag : L.canDropFlag.getLsbD i = decide (i = 1) := by
  have hb := L.le_bits
  rw [canDropFlag, BitVec.getLsbD_ofNat, show 2 = 2 ^ 1 from rfl, Nat.testBit_two_pow]
  by_cases hi : i = 1 <;> simp [hi] <;> omega

theorem getLsbD_wantsEvictFlag : L.wantsEvictFlag.getLsbD i = (L.evict && decide (i = 2)) := by
  have hb := L.le_bits
  cases he : L.evict with
  | false => simp [wantsEvictFlag, he]
  | true =>
    rw [wantsEvictFlag, he, if_pos rfl, BitVec.getLsbD_ofNat, show 4 = 2 ^ 2 from rfl,
      Nat.testBit_two_pow]
    by_cases hi : i = 2 <;> simp [hi] <;> omega

theorem getLsbD_flagMask :
    L.flagMask.getLsbD i = (decide (i = 0) || decide (i = 1) || (L.evict && decide (i = 2))) := by
  rw [flagMask, BitVec.getLsbD_or, BitVec.getLsbD_or, getLsbD_hasLockFlag, getLsbD_canDropFlag,
    getLsbD_wantsEvictFlag]

theorem test_eq {m : L.Usize} {j : ℕ} (hm : ∀ i, m.getLsbD i = decide (i = j)) :
    (x &&& m != 0) = x.getLsbD j := by
  cases hx : x.getLsbD j with
  | true =>
    rw [bne_iff_ne]
    intro h0
    have hj := congrArg (fun y => BitVec.getLsbD y j) h0
    simp [hm, hx] at hj
  | false =>
    rw [bne_eq_false_iff_eq]
    apply BitVec.eq_of_getLsbD_eq
    intro i _
    by_cases hi : i = j <;> simp [hm, hi, hx]

theorem flags_eq : L.flags x = ⟨x.getLsbD 0, L.evict && x.getLsbD 2⟩ := by
  rw [flags, test_eq fun i => getLsbD_hasLockFlag]
  cases he : L.evict with
  | false => simp [wantsEvictFlag, he]
  | true =>
    rw [test_eq fun i => by rw [getLsbD_wantsEvictFlag, he, Bool.true_and], Bool.true_and]

theorem canDrop_eq : (x &&& L.canDropFlag != 0) = x.getLsbD 1 :=
  test_eq fun _ => getLsbD_canDropFlag

theorem getLsbD_target (hT : L.Has T) : (L.target T).getLsbD i =
    (T.hasLock && decide (i = 0) || T.wantsEvict && decide (i = 2)) := by
  rcases T with ⟨a, b⟩
  rw [target, BitVec.getLsbD_or]
  cases b with
  | false => cases a <;> simp [getLsbD_hasLockFlag]
  | true =>
    have he : L.evict = true := hT rfl
    cases a <;> simp [getLsbD_hasLockFlag, getLsbD_wantsEvictFlag, he]

theorem decode_eq : L.decode x =
    ⟨⟨x.getLsbD 0, L.evict && x.getLsbD 2⟩, x.getLsbD 1, (x &&& L.ptrMask).toNat⟩ := by
  rw [decode, flags_eq, canDrop_eq]

theorem ne_of_getLsbD_flagMask (hi : L.flagMask.getLsbD i = false) :
    i ≠ 0 ∧ i ≠ 1 ∧ (L.evict = true → i ≠ 2) := by
  rw [getLsbD_flagMask] at hi
  simp only [Bool.or_eq_false_iff, Bool.and_eq_false_imp, decide_eq_false_iff_not] at hi
  exact ⟨hi.1.1, hi.1.2, hi.2⟩

theorem and_ptrMask_congr {y : L.Usize}
    (h : ∀ i, L.flagMask.getLsbD i = false → x.getLsbD i = y.getLsbD i) :
    x &&& L.ptrMask = y &&& L.ptrMask := by
  apply BitVec.eq_of_getLsbD_eq
  intro i hi
  rw [ptrMask, BitVec.getLsbD_and, BitVec.getLsbD_and, BitVec.getLsbD_not]
  cases hf : L.flagMask.getLsbD i with
  | false => rw [h i hf]
  | true => simp

theorem decode_new {b : Bool} :
    L.decode (if b then L.hasLockFlag ||| L.canDropFlag else L.canDropFlag) =
      ⟨.new b, true, 0⟩ := by
  have hp : (if b then L.hasLockFlag ||| L.canDropFlag else L.canDropFlag) &&& L.ptrMask =
      0 &&& L.ptrMask := by
    apply and_ptrMask_congr
    intro i hi
    have hne := ne_of_getLsbD_flagMask hi
    cases b <;> simp [getLsbD_hasLockFlag, getLsbD_canDropFlag, hne]
  rw [decode_eq, hp]
  cases b <;> simp [getLsbD_hasLockFlag, getLsbD_canDropFlag, Waiter.new]

/-- The `fetch_and` of `clear_waker`. -/
theorem decode_clear : L.decode (x &&& L.flagMask) = { L.decode x with ptr := 0 } := by
  have hp : x &&& L.flagMask &&& L.ptrMask = 0 &&& L.ptrMask := by
    apply and_ptrMask_congr
    intro i hi
    simp [hi]
  rw [decode_eq, decode_eq, hp]
  cases he : L.evict <;> simp [getLsbD_flagMask, he]

/-- The `fetch_and` of `notify`. -/
theorem decode_mask : L.decode (x &&& (L.flagMask ^^^ L.canDropFlag)) =
    { L.decode x with canDrop := false, ptr := 0 } := by
  have hp : x &&& (L.flagMask ^^^ L.canDropFlag) &&& L.ptrMask = 0 &&& L.ptrMask := by
    apply and_ptrMask_congr
    intro i hi
    simp [hi, getLsbD_canDropFlag, (ne_of_getLsbD_flagMask hi).2.1]
  rw [decode_eq, decode_eq, hp]
  cases he : L.evict <;> simp [getLsbD_flagMask, getLsbD_canDropFlag, he]

/-- The `fetch_or` of `notify`. -/
theorem decode_restore : L.decode (x ||| L.canDropFlag) = { L.decode x with canDrop := true } := by
  have hp : (x ||| L.canDropFlag) &&& L.ptrMask = x &&& L.ptrMask := by
    apply and_ptrMask_congr
    intro i hi
    simp [getLsbD_canDropFlag, (ne_of_getLsbD_flagMask hi).2.1]
  rw [decode_eq, decode_eq, hp]
  simp [getLsbD_canDropFlag]

theorem decode_addFlag {f : Flag} (hf : f = .wantsEvict → L.evict = true) :
    L.decode (x ||| L.flag f) = { L.decode x with flags := (L.decode x).flags.addFlag f } := by
  cases f with
  | hasLock =>
    have hp : (x ||| L.hasLockFlag) &&& L.ptrMask = x &&& L.ptrMask := by
      apply and_ptrMask_congr
      intro i hi
      simp [getLsbD_hasLockFlag, (ne_of_getLsbD_flagMask hi).1]
    rw [flag, decode_eq, decode_eq, hp]
    simp [getLsbD_hasLockFlag, Waiter.addFlag]
  | wantsEvict =>
    have he := hf rfl
    have hp : (x ||| L.wantsEvictFlag) &&& L.ptrMask = x &&& L.ptrMask := by
      apply and_ptrMask_congr
      intro i hi
      simp [getLsbD_wantsEvictFlag, (ne_of_getLsbD_flagMask hi).2.2 he]
    rw [flag, decode_eq, decode_eq, hp]
    simp [getLsbD_wantsEvictFlag, Waiter.addFlag, he]

theorem Aligned.getLsbD (ha : L.Aligned addr) (hi : L.flagMask.getLsbD i = true) :
    addr.getLsbD i = false := by
  have h := congrArg (fun y => BitVec.getLsbD y i) ha
  simpa [hi] using h

theorem Aligned.and_ptrMask (ha : L.Aligned addr) : addr &&& L.ptrMask = addr := by
  apply BitVec.eq_of_getLsbD_eq
  intro i hi
  rw [ptrMask, BitVec.getLsbD_and, BitVec.getLsbD_not]
  cases hf : L.flagMask.getLsbD i with
  | false => simp [hi]
  | true => simp [ha.getLsbD hf]

/-- The `fetch_or` of `wait_for_flag`. -/
theorem decode_publish (ha : L.Aligned addr) : L.decode (x ||| (addr ||| L.canDropFlag)) =
    { L.decode x with canDrop := true, ptr := (L.decode x).ptr ||| addr.toNat } := by
  have hp : (x ||| (addr ||| L.canDropFlag)) &&& L.ptrMask = x &&& L.ptrMask ||| addr := by
    rw [BitVec.and_or_distrib_right]
    congr 1
    refine Eq.trans (and_ptrMask_congr fun i hi => ?_) ha.and_ptrMask
    simp [getLsbD_canDropFlag, (ne_of_getLsbD_flagMask hi).2.1]
  rw [decode_eq, decode_eq, hp, BitVec.toNat_or]
  have h0 := ha.getLsbD (i := 0) (by simp [getLsbD_flagMask])
  cases he : L.evict with
  | false => simp [getLsbD_canDropFlag, h0]
  | true =>
    have h2 := ha.getLsbD (i := 2) (by simp [getLsbD_flagMask, he])
    simp [getLsbD_canDropFlag, h0, h2]

theorem ptr_decode_eq_zero : (L.decode x).ptr = 0 ↔ x &&& L.ptrMask = 0 := by
  rw [← BitVec.toNat_inj]
  rfl

theorem canDrop_decode : (L.decode x).canDrop = true ↔ x &&& L.canDropFlag ≠ 0 :=
  bne_iff_ne

theorem flags_and_flagMask : L.flags (x &&& L.flagMask) = L.flags x := by
  rw [flags_eq, flags_eq]
  cases he : L.evict <;> simp [getLsbD_flagMask, he]

theorem flags_target (hT : L.Has T) : L.flags (L.target T) = T := by
  rcases T with ⟨a, b⟩
  rw [flags_eq, getLsbD_target hT, getLsbD_target hT]
  cases b with
  | false => simp
  | true => simp [hT rfl]

theorem covers_iff (hT : L.Has T) :
    (L.flags x).covers T = true ↔ x &&& L.target T = L.target T := by
  rw [flags_eq]
  constructor
  · intro h
    apply BitVec.eq_of_getLsbD_eq
    intro i _
    rw [BitVec.getLsbD_and, getLsbD_target hT]
    rcases T with ⟨a, b⟩
    by_cases h0 : i = 0
    · subst h0
      cases a <;> simp_all [Waiter.covers]
    · by_cases h2 : i = 2
      · subst h2
        cases b <;> simp_all [Waiter.covers]
      · simp [h0, h2]
  · intro h
    have hb : ∀ i, (x.getLsbD i && (L.target T).getLsbD i) = (L.target T).getLsbD i := by
      intro i
      rw [← BitVec.getLsbD_and, h]
    have h0 := hb 0
    have h2 := hb 2
    rw [getLsbD_target hT] at h0 h2
    rcases T with ⟨a, b⟩
    cases b with
    | false => cases a <;> simp_all [Waiter.covers]
    | true =>
      have he : L.evict = true := hT rfl
      cases a <;> simp_all [Waiter.covers]

theorem meets_iff (hT : L.Has T) : (L.flags x).meets T = false ↔ x &&& L.target T = 0 := by
  rw [flags_eq]
  constructor
  · intro h
    apply BitVec.eq_of_getLsbD_eq
    intro i _
    rw [BitVec.getLsbD_and, getLsbD_target hT]
    rcases T with ⟨a, b⟩
    by_cases h0 : i = 0
    · subst h0
      cases a <;> simp_all [Waiter.meets]
    · by_cases h2 : i = 2
      · subst h2
        cases b with
        | false => simp
        | true =>
          have he : L.evict = true := hT rfl
          simp_all [Waiter.meets]
      · simp [h0, h2]
  · intro h
    have hb : ∀ i, (x.getLsbD i && (L.target T).getLsbD i) = false := by
      intro i
      rw [← BitVec.getLsbD_and, h]
      exact BitVec.getLsbD_zero
    have h0 := hb 0
    have h2 := hb 2
    rw [getLsbD_target hT] at h0 h2
    rcases T with ⟨a, b⟩
    cases a <;> cases b <;> simp_all [Waiter.meets]

theorem flags_has {f : Flag} : (L.flags x).has f = true ↔ x &&& L.flag f ≠ 0 := by
  cases f <;> exact bne_iff_ne

theorem flag_and_target {f : Flag} (hT : L.Has T) (hf : T.has f = false) :
    L.flag f &&& L.target T = 0 := by
  rw [← meets_iff hT, flags_eq]
  rcases T with ⟨a, b⟩
  cases f with
  | hasLock =>
    obtain rfl : a = false := hf
    simp [flag, Waiter.meets, getLsbD_hasLockFlag]
  | wantsEvict =>
    obtain rfl : b = false := hf
    simp [flag, Waiter.meets, getLsbD_wantsEvictFlag]

end Bits

end Layout

end PriorityLock
