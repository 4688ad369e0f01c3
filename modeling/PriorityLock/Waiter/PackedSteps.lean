import PriorityLock.Waiter.Packed

/-! # The atomic steps on the packed word

The steps of `WaiterState.Step` as the code performs them: a `fetch_and` or a
`fetch_or` with a mask, and tests of the word that it returns. Every interleaving
of them decodes to one on the fields of the word, so that what holds of waiters
holds of the bits.
-/

namespace PriorityLock

variable {L : Layout}

/-- Where the owner is, with what `clear_waker` returns. -/
inductive PackedOwner (L : Layout)
  | absent
  | unpolled
  | pending (waker : ℕ)
  | ready (flags : L.Usize)
  | clear (call : ClearCall)
  | dropCell (call : ClearCall) (flags : L.Usize)
  | spin (call : ClearCall) (flags : L.Usize)
  | store (waker : ℕ)
  | publish (waker : ℕ)

/-- Where the notifier is, with the word that its `fetch_and` returned. -/
inductive PackedNotifier (L : Layout)
  | idle
  | mask (flag : Flag)
  | read (flag : Flag) (ptr : L.Usize)
  | restore (flag : Flag) (waker : Option ℕ)
  | wake (flag : Flag) (waker : ℕ)

structure PackedState (L : Layout) where
  word : L.Usize
  cell : Option ℕ
  addr : L.Usize
  target : L.Usize
  owner : PackedOwner L
  notifier : PackedNotifier L
  nextWaker : ℕ
  woken : List ℕ
  dropped : List ℕ
  completed : List Flag

def PackedOwner.decode : PackedOwner L → OwnerPc
  | absent => .absent
  | unpolled => .idle .unpolled
  | pending waker => .idle (.pending waker)
  | ready flags => .idle (.ready (L.flags flags))
  | clear call => .clear call
  | dropCell call flags => .dropCell call (L.flags flags)
  | spin call flags => .spin call (L.flags flags)
  | store waker => .store waker
  | publish waker => .publish waker

def PackedNotifier.decode : PackedNotifier L → NotifierPc
  | idle => .idle
  | mask flag => .mask flag
  | read flag ptr => .read flag (L.decode ptr).ptr (L.decode ptr).canDrop
  | restore flag waker => .restore flag waker
  | wake flag waker => .wake flag waker

namespace PackedState

def init (L : Layout) (hasLock : Bool) : PackedState L where
  word := if hasLock then L.hasLockFlag ||| L.canDropFlag else L.canDropFlag
  cell := none
  addr := 0
  target := 0
  owner := .absent
  notifier := .idle
  nextWaker := 0
  woken := []
  dropped := []
  completed := []

def decode (s : PackedState L) : WaiterState where
  word := L.decode s.word
  cell := s.cell
  addr := s.addr.toNat
  target := L.flags s.target
  owner := s.owner.decode
  notifier := s.notifier.decode
  nextWaker := s.nextWaker
  woken := s.woken
  dropped := s.dropped
  completed := s.completed

/-- A future that a poll or a drop may start on. -/
def Idle : PackedOwner L → Prop
  | .unpolled | .pending _ | .ready _ => True
  | _ => False

def cleared (s : PackedState L) (flags : L.Usize) : ClearCall → PackedOwner L
  | .first waker => if flags &&& s.target = s.target then .ready flags else .store waker
  | .second => .ready flags
  | .drop => .absent

def finished (s : PackedState L) (flag : Flag) : PackedState L :=
  { s with notifier := .idle, completed := flag :: s.completed }

inductive Step : PackedState L → PackedState L → Prop where

  | create {s : PackedState L} (addr : L.Usize) (target : Waiter) : s.owner = .absent →
      addr ≠ 0 → L.Aligned addr → target.meets target → L.Has target →
      Step s { s with owner := .unpolled, addr := addr, target := L.target target, cell := none }

  | poll {s : PackedState L} : Idle s.owner →
      Step s { s with owner := .clear (.first s.nextWaker), nextWaker := s.nextWaker + 1 }

  | drop {s : PackedState L} : Idle s.owner → Step s { s with owner := .clear .drop }

  | clear {s : PackedState L} {call : ClearCall} : s.owner = .clear call →
      Step s { s with
        word := s.word &&& L.flagMask
        owner :=
          if s.word &&& L.ptrMask ≠ 0 then .dropCell call (s.word &&& L.flagMask)
          else if s.word &&& L.canDropFlag = 0 then .spin call (s.word &&& L.flagMask)
          else s.cleared (s.word &&& L.flagMask) call }

  | dropCell {s : PackedState L} {call : ClearCall} {flags : L.Usize} {waker : ℕ} :
      s.owner = .dropCell call flags → s.cell = some waker →
      Step s { s with
        cell := none
        dropped := waker :: s.dropped
        owner := s.cleared flags call }

  | spin {s : PackedState L} {call : ClearCall} {flags : L.Usize} : s.owner = .spin call flags →
      Step s { s with
        owner :=
          if s.word &&& L.canDropFlag = 0 then .spin call flags else s.cleared flags call }

  | store {s : PackedState L} {waker : ℕ} : s.owner = .store waker →
      Step s { s with cell := some waker, owner := .publish waker }

  | publish {s : PackedState L} {waker : ℕ} : s.owner = .publish waker →
      Step s { s with
        word := s.word ||| (s.addr ||| L.canDropFlag)
        owner :=
          if s.word &&& L.flagMask &&& s.target = 0 then .pending waker else .clear .second }

  | addFlag {s : PackedState L} (flag : Flag) : s.notifier = .idle →
      (flag = .wantsEvict → L.evict = true) → s.word &&& L.ptrMask ≠ 0 →
      Step s { s with word := s.word ||| L.flag flag, notifier := .mask flag }

  | addFlag_unset {s : PackedState L} (flag : Flag) : s.notifier = .idle →
      (flag = .wantsEvict → L.evict = true) → s.word &&& L.ptrMask = 0 →
      Step s ({ s with word := s.word ||| L.flag flag }.finished flag)

  | mask {s : PackedState L} {flag : Flag} : s.notifier = .mask flag → s.word &&& L.ptrMask ≠ 0 →
      Step s { s with
        word := s.word &&& (L.flagMask ^^^ L.canDropFlag)
        notifier := .read flag s.word }

  | mask_unset {s : PackedState L} {flag : Flag} : s.notifier = .mask flag →
      s.word &&& L.ptrMask = 0 → s.word &&& L.canDropFlag ≠ 0 →
      Step s { s with
        word := s.word &&& (L.flagMask ^^^ L.canDropFlag)
        notifier := .restore flag none }

  | mask_busy {s : PackedState L} {flag : Flag} : s.notifier = .mask flag →
      s.word &&& L.ptrMask = 0 → s.word &&& L.canDropFlag = 0 →
      Step s ({ s with word := s.word &&& (L.flagMask ^^^ L.canDropFlag) }.finished flag)

  | read {s : PackedState L} {flag : Flag} {ptr : L.Usize} {waker : ℕ} :
      s.notifier = .read flag ptr → ptr &&& L.ptrMask = s.addr → s.owner ≠ .absent →
      s.cell = some waker →
      Step s { s with
        cell := none
        notifier :=
          if ptr &&& L.canDropFlag ≠ 0 then .restore flag (some waker) else .wake flag waker }

  | restore {s : PackedState L} {flag : Flag} {waker : ℕ} :
      s.notifier = .restore flag (some waker) →
      Step s { s with word := s.word ||| L.canDropFlag, notifier := .wake flag waker }

  | restore_unset {s : PackedState L} {flag : Flag} : s.notifier = .restore flag none →
      Step s ({ s with word := s.word ||| L.canDropFlag }.finished flag)

  | wake {s : PackedState L} {flag : Flag} {waker : ℕ} : s.notifier = .wake flag waker →
      Step s ({ s with woken := waker :: s.woken }.finished flag)

def Reachable (hasLock : Bool) (s : PackedState L) : Prop :=
  Relation.ReflTransGen Step (init L hasLock) s

/-- The address is aligned and the target is a mask of the build. -/
structure Fits (s : PackedState L) : Prop where
  addr : L.Aligned s.addr
  target : ∃ T, L.Has T ∧ s.target = L.target T

section Decode

variable {s s' : PackedState L} {flags : L.Usize} {call : ClearCall} {flag : Flag} {b : Bool}

theorem decode_init : (init L b).decode = .init b := by
  have hw : L.decode (init L b).word = ⟨.new b, true, 0⟩ := by
    rw [init, Layout.decode_new]
  have ht : L.flags (init L b).target = ⟨false, false⟩ := by simp [init, Layout.flags]
  rw [decode, hw, ht]
  simp [init, WaiterState.init, PackedOwner.decode, PackedNotifier.decode]

theorem decode_finished : (s.finished flag).decode = s.decode.finished flag := rfl

theorem Fits.init : (init L b).Fits where
  addr := BitVec.zero_and
  target := ⟨⟨false, false⟩, nofun, by simp [PackedState.init, Layout.target]⟩

theorem Fits.step (h : s.Fits) (hs : Step s s') : s'.Fits := by
  cases hs with
  | create addr target ho ha hl ht hb => exact ⟨hl, target, hb, rfl⟩
  | _ => exact ⟨h.addr, h.target⟩

theorem idle_decode {o : PackedOwner L} (h : Idle o) : ∃ last, o.decode = .idle last := by
  cases o with
  | unpolled => exact ⟨_, rfl⟩
  | pending waker => exact ⟨_, rfl⟩
  | ready flags => exact ⟨_, rfl⟩
  | _ => exact h.elim

theorem Fits.cleared (h : s.Fits) :
    (s.cleared flags call).decode = s.decode.cleared (L.flags flags) call := by
  obtain ⟨T, hT, ht⟩ := h.target
  cases call with
  | first waker =>
    have hc := Layout.covers_iff (x := flags) hT
    rw [← ht] at hc
    have hf : s.decode.target = T := by rw [decode, ht, Layout.flags_target hT]
    rw [PackedState.cleared, WaiterState.cleared, hf]
    by_cases hx : flags &&& s.target = s.target
    · rw [if_pos hx, if_pos (hc.mpr hx)]
      rfl
    · rw [if_neg hx, if_neg fun h => hx (hc.mp h)]
      rfl
  | second => rfl
  | drop => rfl

theorem owner_ne_absent (ho : s.owner ≠ .absent) : s.decode.owner ≠ .absent := by
  intro h
  rw [decode] at h
  cases hs : s.owner with
  | absent => exact ho hs
  | _ => simp [hs, PackedOwner.decode] at h

theorem of_eq {t t' t'' : WaiterState} (h : WaiterState.Step t t') (he : t' = t'') :
    WaiterState.Step t t'' := he ▸ h

theorem decode_ptr : s.decode.word.ptr = 0 ↔ s.word &&& L.ptrMask = 0 :=
  Layout.ptr_decode_eq_zero

theorem decode_canDrop : s.decode.word.canDrop = true ↔ s.word &&& L.canDropFlag ≠ 0 :=
  Layout.canDrop_decode

theorem Fits.decode_clear (h : s.Fits) : (if s.word &&& L.ptrMask ≠ 0 then
      PackedOwner.dropCell call (s.word &&& L.flagMask)
    else if s.word &&& L.canDropFlag = 0 then .spin call (s.word &&& L.flagMask)
    else s.cleared (s.word &&& L.flagMask) call).decode =
      if s.decode.word.ptr ≠ 0 then .dropCell call s.decode.word.flags
      else if s.decode.word.canDrop then s.decode.cleared s.decode.word.flags call
      else .spin call s.decode.word.flags := by
  have hfl : L.flags (s.word &&& L.flagMask) = s.decode.word.flags := Layout.flags_and_flagMask
  rw [← hfl]
  simp only [apply_ite PackedOwner.decode, h.cleared, ne_eq, decode_ptr, decode_canDrop, ite_not]
  rfl

theorem Fits.decode_spin (h : s.Fits) : (if s.word &&& L.canDropFlag = 0 then
      PackedOwner.spin call flags else s.cleared flags call).decode =
      if s.decode.word.canDrop then s.decode.cleared (L.flags flags) call
      else .spin call (L.flags flags) := by
  simp only [apply_ite PackedOwner.decode, h.cleared, ne_eq, decode_canDrop, ite_not]
  rfl

theorem Fits.decode_publish (h : s.Fits) {waker : ℕ} :
    (if s.word &&& L.flagMask &&& s.target = 0 then PackedOwner.pending waker
      else (PackedOwner.clear .second : PackedOwner L)).decode =
      if s.decode.word.flags.meets s.decode.target then .clear .second
      else .idle (.pending waker) := by
  obtain ⟨T, hT, ht⟩ := h.target
  have hm : s.decode.word.flags.meets s.decode.target = false ↔
      s.word &&& L.flagMask &&& s.target = 0 := by
    rw [ht, ← Layout.meets_iff hT, Layout.flags_and_flagMask, decode, ht, Layout.flags_target hT]
    rfl
  by_cases h0 : s.word &&& L.flagMask &&& s.target = 0
  · rw [if_pos h0, hm.mpr h0]
    rfl
  · have h1 : s.decode.word.flags.meets s.decode.target = true := by simpa using mt hm.mp h0
    rw [if_neg h0, if_pos h1]
    rfl

/-- Every access to the packed word does to its fields what the abstract step does. -/
theorem Step.decode (h : Step s s') (hf : s.Fits) : WaiterState.Step s.decode s'.decode := by
  cases h with
  | create addr target ho ha hl ht hb =>
    refine of_eq (.create addr.toNat target (congrArg PackedOwner.decode ho) ?_ ht) ?_
    · intro h0
      exact ha (BitVec.eq_of_toNat_eq h0)
    · simp only [PackedState.decode, Layout.flags_target hb]
      rfl
  | poll ho =>
    obtain ⟨last, ho⟩ := idle_decode ho
    exact .poll ho
  | drop ho =>
    obtain ⟨last, ho⟩ := idle_decode ho
    exact .drop ho
  | clear ho =>
    apply of_eq (.clear (congrArg PackedOwner.decode ho))
    rw [← hf.decode_clear]
    simp only [PackedState.decode, Layout.decode_clear]
  | dropCell ho hc =>
    apply of_eq (.dropCell (congrArg PackedOwner.decode ho) hc)
    rw [← hf.cleared]
    simp only [PackedState.decode]
  | spin ho =>
    apply of_eq (.spin (congrArg PackedOwner.decode ho))
    rw [← hf.decode_spin]
    simp only [PackedState.decode]
  | store ho => exact .store (congrArg PackedOwner.decode ho)
  | publish ho =>
    apply of_eq (.publish (congrArg PackedOwner.decode ho))
    rw [← hf.decode_publish]
    simp only [PackedState.decode, Layout.decode_publish hf.addr]
  | addFlag flag hn he hw =>
    apply of_eq (.addFlag flag (congrArg PackedNotifier.decode hn) (mt decode_ptr.mp hw))
    simp only [PackedState.decode, Layout.decode_addFlag he, PackedNotifier.decode]
  | addFlag_unset flag hn he hw =>
    apply of_eq (.addFlag_unset flag (congrArg PackedNotifier.decode hn) (decode_ptr.mpr hw))
    rw [decode_finished]
    simp only [PackedState.decode, Layout.decode_addFlag he]
  | mask hn hw =>
    apply of_eq (.mask (congrArg PackedNotifier.decode hn) (mt decode_ptr.mp hw))
    simp only [PackedState.decode, Layout.decode_mask, PackedNotifier.decode]
  | mask_unset hn hw hc =>
    apply of_eq (.mask_unset (congrArg PackedNotifier.decode hn)
      (decode_ptr.mpr hw) (decode_canDrop.mpr hc))
    simp only [PackedState.decode, Layout.decode_mask, PackedNotifier.decode]
  | mask_busy hn hw hc =>
    have hd : s.decode.word.canDrop = false :=
      Bool.eq_false_iff.mpr fun h => decode_canDrop.mp h hc
    apply of_eq (.mask_busy (congrArg PackedNotifier.decode hn)
      (decode_ptr.mpr hw) hd)
    rw [decode_finished]
    simp only [PackedState.decode, Layout.decode_mask]
  | @read flag ptr waker hn hp ho hc =>
    have ha : (L.decode ptr).ptr = s.addr.toNat := by rw [← hp, Layout.decode]
    have hn' : s.decode.notifier = .read flag s.decode.addr (L.decode ptr).canDrop := by
      rw [PackedState.decode, hn, PackedNotifier.decode, ha]
    apply of_eq (.read hn' (owner_ne_absent ho) hc)
    have hr : (if ptr &&& L.canDropFlag ≠ 0 then PackedNotifier.restore flag (some waker)
        else .wake flag waker : PackedNotifier L).decode =
        if (L.decode ptr).canDrop then .restore flag (some waker) else .wake flag waker := by
      simp only [apply_ite PackedNotifier.decode, Layout.canDrop_decode]
      rfl
    rw [← hr]
    rfl
  | restore hn =>
    apply of_eq (.restore (congrArg PackedNotifier.decode hn))
    simp only [PackedState.decode, Layout.decode_restore, PackedNotifier.decode]
  | restore_unset hn =>
    apply of_eq (.restore_unset (congrArg PackedNotifier.decode hn))
    rw [decode_finished]
    simp only [PackedState.decode, Layout.decode_restore]
  | wake hn => exact .wake (congrArg PackedNotifier.decode hn)

theorem Reachable.fits (h : Reachable b s) : s.Fits := by
  induction h with
  | refl => exact Fits.init
  | tail _ hs ih => exact ih.step hs

theorem Reachable.decode (h : Reachable b s) : WaiterState.Reachable b s.decode := by
  induction h with
  | refl =>
    rw [decode_init]
    exact Relation.ReflTransGen.refl
  | tail hr hs ih => exact ih.tail (hs.decode (Reachable.fits hr))

end Decode

/-- The bits of the word keep the waiter's protocol along every interleaving. -/
theorem packed_refines {b : Bool} {s : PackedState L} (h : Reachable b s) :
    WaiterState.Reachable b s.decode ∧
    (s.word &&& L.ptrMask ≠ 0 → s.word &&& L.ptrMask = s.addr ∧ s.word &&& L.canDropFlag ≠ 0 ∧
      s.cell.isSome = true) ∧
    (∀ f ptr, s.notifier = .read f ptr → ptr &&& L.ptrMask = s.addr ∧
      ptr &&& L.canDropFlag ≠ 0 ∧ s.cell.isSome = true ∧ s.word &&& L.ptrMask = 0 ∧
      s.word &&& L.canDropFlag = 0) ∧
    (∀ f, s.notifier = .mask f → s.word &&& L.canDropFlag ≠ 0) ∧
    (∀ flags, s.owner = .ready flags → flags &&& s.target ≠ 0) ∧
    (∀ k, s.owner = .pending k → k ∈ s.woken ∨ ∀ f ∈ s.completed, L.flag f &&& s.target = 0) ∧
    ∀ f ∈ s.completed, s.word &&& L.flag f ≠ 0 := by
  have hr := h.decode
  have hi := hr.inv
  have hg := hr.guarded
  obtain ⟨T, hT, ht⟩ := h.fits.target
  have hd : s.decode.target = T := by rw [decode, ht, Layout.flags_target hT]
  refine ⟨hr, fun hw => ?_, fun f ptr hn => ?_, fun f hn => ?_, fun flags ho => ?_,
    fun k ho => ?_, fun f hf => ?_⟩
  · obtain ⟨ha, hc, hs, -⟩ := hi.ptr (mt decode_ptr.mp hw)
    exact ⟨BitVec.eq_of_toNat_eq ha, decode_canDrop.mp hc, hs⟩
  · have hn' : s.decode.notifier = .read f (L.decode ptr).ptr (L.decode ptr).canDrop := by
      rw [decode, hn, PackedNotifier.decode]
    obtain ⟨ha, hs, hp, hc, -⟩ := hi.read _ _ _ hn'
    refine ⟨BitVec.eq_of_toNat_eq ha, Layout.canDrop_decode.mp (hg.restores _ _ _ hn'), hs,
      decode_ptr.mp hp, ?_⟩
    by_contra h0
    rw [decode_canDrop.mpr h0] at hc
    cases hc
  · have hn' : s.decode.notifier = .mask f := congrArg PackedNotifier.decode hn
    exact decode_canDrop.mp (hg.canDrop (by simp [hn', WaiterState.Masked]))
  · have hm := hi.ready _ (congrArg PackedOwner.decode ho)
    rw [hd] at hm
    rw [ht]
    intro h0
    rw [(Layout.meets_iff hT).mpr h0] at hm
    cases hm
  · rcases hi.pending k (congrArg PackedOwner.decode ho) with hk | ⟨hc, -⟩
    · exact Or.inl hk
    · refine Or.inr fun f hf => ?_
      rw [ht]
      apply Layout.flag_and_target hT
      rw [← hd]
      exact hc f hf
  · exact Layout.flags_has.mp (hi.set_completed f hf)

def wide : Layout := ⟨64, true, by decide⟩

/-- A future that was woken for the lock and has not been polled again. -/
def started : PackedState wide where
  word := 3
  cell := none
  addr := 4096
  target := 1
  owner := .pending 0
  notifier := .idle
  nextWaker := 1
  woken := [0]
  dropped := []
  completed := [.hasLock]

theorem reachable_packed : Reachable false started :=
  (Relation.ReflTransGen.refl : Reachable (L := wide) false _)
    |>.tail (.create 4096 ⟨true, false⟩ rfl (by decide) (by decide) rfl nofun)
    |>.tail (.poll trivial)
    |>.tail (.clear rfl)
    |>.tail (.store rfl)
    |>.tail (.publish rfl)
    |>.tail (.addFlag .hasLock rfl nofun (by decide))
    |>.tail (.mask rfl (by decide))
    |>.tail (.read rfl (by decide) nofun rfl)
    |>.tail (.restore rfl)
    |>.tail (.wake rfl)

theorem packed_refines_started :
    started.owner = .pending 0 ∧ (0 ∈ started.woken ∨
      ∀ f ∈ started.completed, wide.flag f &&& started.target = 0) :=
  ⟨rfl, (packed_refines reachable_packed).2.2.2.2.2.1 0 rfl⟩

end PackedState

end PriorityLock
