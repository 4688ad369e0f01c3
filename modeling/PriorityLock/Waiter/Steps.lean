import Mathlib.Data.Nat.Notation
import Mathlib.Logic.Relation
import PriorityLock.Waiter.Basic

/-! # The atomic steps of a waiter

One owner polls or drops futures on a waiter while notifiers, one at a time, add
flags. Every access to the word or to the storage of a future is a step of its
own, and the steps of both parties interleave in any order. A step on storage
that does not hold a waker is undefined and not in the relation.
-/

namespace PriorityLock

/-- The word: its flags, `WAITER_FLAG_CAN_DROP` and the pointer bits. -/
structure Word where
  flags : Waiter
  canDrop : Bool
  ptr : ℕ
  deriving DecidableEq, Repr

/-- The outcome of a future's latest poll. -/
inductive LastPoll
  | unpolled
  | pending (waker : ℕ)
  | ready (flags : Waiter)
  deriving DecidableEq, Repr

/-- The three calls of `clear_waker`: the two of `wait_for_flag` and the one of `drop`. -/
inductive ClearCall
  | first (waker : ℕ)
  | second
  | drop
  deriving DecidableEq, Repr

/-- Where the owner is; `clear` is before the `fetch_and` of `clear_waker`. -/
inductive OwnerPc
  | absent
  | idle (last : LastPoll)
  | clear (call : ClearCall)
  | dropCell (call : ClearCall) (flags : Waiter)
  | spin (call : ClearCall) (flags : Waiter)
  | store (waker : ℕ)
  | publish (waker : ℕ)
  deriving DecidableEq, Repr

/-- Where the notifier is inside `add_flag`; `mask` is before the `fetch_and` of `notify`. -/
inductive NotifierPc
  | idle
  | mask (flag : Flag)
  | read (flag : Flag) (ptr : ℕ) (canDrop : Bool)
  | restore (flag : Flag) (waker : Option ℕ)
  | wake (flag : Flag) (waker : ℕ)
  deriving DecidableEq, Repr

/-- The word, the future with its storage, both parties and what has happened. -/
structure WaiterState where
  word : Word
  cell : Option ℕ
  addr : ℕ
  target : Waiter
  owner : OwnerPc
  notifier : NotifierPc
  nextWaker : ℕ
  woken : List ℕ
  dropped : List ℕ
  completed : List Flag
  deriving DecidableEq, Repr

namespace WaiterState

def init (hasLock : Bool) : WaiterState where
  word := ⟨.new hasLock, true, 0⟩
  cell := none
  addr := 0
  target := ⟨false, false⟩
  owner := .absent
  notifier := .idle
  nextWaker := 0
  woken := []
  dropped := []
  completed := []

/-- Where the owner goes when `clear_waker` returns `flags`. -/
def cleared (s : WaiterState) (flags : Waiter) : ClearCall → OwnerPc
  | .first waker => if flags.covers s.target then .idle (.ready flags) else .store waker
  | .second => .idle (.ready flags)
  | .drop => .absent

theorem cleared_cases (s : WaiterState) (flags : Waiter) (call : ClearCall) :
    (s.cleared flags call = .idle (.ready flags) ∧
        (call = .second ∨ flags.covers s.target = true)) ∨
      (∃ waker, call = .first waker ∧ s.cleared flags call = .store waker) ∨
      s.cleared flags call = .absent := by
  cases call with
  | first waker =>
    rw [cleared]
    split
    · next hc => exact Or.inl ⟨rfl, Or.inr hc⟩
    · exact Or.inr (Or.inl ⟨waker, rfl, rfl⟩)
  | second => exact Or.inl ⟨rfl, Or.inl rfl⟩
  | drop => exact Or.inr (Or.inr rfl)

/-- The state in which the notifier's `add_flag` has returned. -/
def finished (s : WaiterState) (flag : Flag) : WaiterState :=
  { s with notifier := .idle, completed := flag :: s.completed }

inductive Step : WaiterState → WaiterState → Prop where

  | create {s : WaiterState} (addr : ℕ) (target : Waiter) : s.owner = .absent → addr ≠ 0 →
      target.meets target →
      Step s { s with owner := .idle .unpolled, addr := addr, target := target, cell := none }

  | poll {s : WaiterState} {last : LastPoll} : s.owner = .idle last →
      Step s { s with owner := .clear (.first s.nextWaker), nextWaker := s.nextWaker + 1 }

  | drop {s : WaiterState} {last : LastPoll} : s.owner = .idle last →
      Step s { s with owner := .clear .drop }

  | clear {s : WaiterState} {call : ClearCall} : s.owner = .clear call →
      Step s { s with
        word := { s.word with ptr := 0 }
        owner :=
          if s.word.ptr ≠ 0 then .dropCell call s.word.flags
          else if s.word.canDrop then s.cleared s.word.flags call
          else .spin call s.word.flags }

  | dropCell {s : WaiterState} {call : ClearCall} {flags : Waiter} {waker : ℕ} :
      s.owner = .dropCell call flags → s.cell = some waker →
      Step s { s with
        cell := none
        dropped := waker :: s.dropped
        owner := s.cleared flags call }

  | spin {s : WaiterState} {call : ClearCall} {flags : Waiter} : s.owner = .spin call flags →
      Step s { s with
        owner := if s.word.canDrop then s.cleared flags call else .spin call flags }

  | store {s : WaiterState} {waker : ℕ} : s.owner = .store waker →
      Step s { s with cell := some waker, owner := .publish waker }

  | publish {s : WaiterState} {waker : ℕ} : s.owner = .publish waker →
      Step s { s with
        word := { s.word with canDrop := true, ptr := s.word.ptr ||| s.addr }
        owner :=
          if s.word.flags.meets s.target then .clear .second else .idle (.pending waker) }

  | addFlag {s : WaiterState} (flag : Flag) : s.notifier = .idle → s.word.ptr ≠ 0 →
      Step s { s with
        word := { s.word with flags := s.word.flags.addFlag flag }
        notifier := .mask flag }

  | addFlag_unset {s : WaiterState} (flag : Flag) : s.notifier = .idle → s.word.ptr = 0 →
      Step s ({ s with word := { s.word with flags := s.word.flags.addFlag flag } }.finished flag)

  | mask {s : WaiterState} {flag : Flag} : s.notifier = .mask flag → s.word.ptr ≠ 0 →
      Step s { s with
        word := { s.word with canDrop := false, ptr := 0 }
        notifier := .read flag s.word.ptr s.word.canDrop }

  | mask_unset {s : WaiterState} {flag : Flag} : s.notifier = .mask flag → s.word.ptr = 0 →
      s.word.canDrop = true →
      Step s { s with
        word := { s.word with canDrop := false, ptr := 0 }
        notifier := .restore flag none }

  | mask_busy {s : WaiterState} {flag : Flag} : s.notifier = .mask flag → s.word.ptr = 0 →
      s.word.canDrop = false →
      Step s ({ s with word := { s.word with canDrop := false, ptr := 0 } }.finished flag)

  | read {s : WaiterState} {flag : Flag} {canDrop : Bool} {waker : ℕ} :
      s.notifier = .read flag s.addr canDrop → s.owner ≠ .absent → s.cell = some waker →
      Step s { s with
        cell := none
        notifier := if canDrop then .restore flag (some waker) else .wake flag waker }

  | restore {s : WaiterState} {flag : Flag} {waker : ℕ} : s.notifier = .restore flag (some waker) →
      Step s { s with word := { s.word with canDrop := true }, notifier := .wake flag waker }

  | restore_unset {s : WaiterState} {flag : Flag} : s.notifier = .restore flag none →
      Step s ({ s with word := { s.word with canDrop := true } }.finished flag)

  | wake {s : WaiterState} {flag : Flag} {waker : ℕ} : s.notifier = .wake flag waker →
      Step s ({ s with woken := waker :: s.woken }.finished flag)

def Reachable (hasLock : Bool) (s : WaiterState) : Prop :=
  Relation.ReflTransGen Step (init hasLock) s

/-- The queues read only the flags, and these change by whole `add_flag` calls. -/
theorem Step.flags {s s' : WaiterState} (h : Step s s') : s'.word.flags = s.word.flags ∨
    s.notifier = .idle ∧ ∃ f, s'.word.flags = s.word.flags.addFlag f := by
  cases h with
  | addFlag flag hn hp => exact Or.inr ⟨hn, flag, rfl⟩
  | addFlag_unset flag hn hp => exact Or.inr ⟨hn, flag, rfl⟩
  | _ => exact Or.inl rfl

end WaiterState

end PriorityLock
