import PriorityLock.Transition.Fairness
import PriorityLock.Waiter.Tasks

/-! # Calls on a waiter return

The loop of `clear_waker` waits for a notifier that has taken the pointer, and
that notifier needs no one to finish. So polls, drops and `add_flag` calls all
return, as long as neither party is left alone for ever.
-/

namespace PriorityLock.WaiterState

open Transition

def Calling : OwnerPc → Prop
  | .absent | .idle _ => False
  | _ => True

/-- An upper bound of the places that a call has still to go to. -/
def placesLeft : OwnerPc → ℕ
  | .absent | .idle _ => 0
  | .clear (.first _) => 6
  | .dropCell (.first _) _ | .spin (.first _) _ => 5
  | .store _ => 4
  | .publish _ => 3
  | .clear _ => 2
  | .dropCell _ _ | .spin _ _ => 1

/-- The steps that `notify` takes until it sets the drop flag again. -/
def stepsLeft : NotifierPc → ℕ
  | .mask _ => 3
  | .read _ _ _ => 2
  | .restore _ _ => 1
  | .idle | .wake _ _ => 0

/-- What a call has before it: its own places, and in the loop of `clear_waker` the notifier's. -/
def delay (s : WaiterState) : ℕ :=
  4 * placesLeft s.owner + match s.owner with
    | .spin _ _ => stepsLeft s.notifier
    | _ => 0

/-- The owner is in the loop of `clear_waker` and the drop flag is still clear. -/
def Waiting (s : WaiterState) : Prop :=
  s.word.canDrop = false ∧ ∃ call fl, s.owner = .spin call fl

section Steps

variable {s s' : WaiterState} {call : ClearCall} {flags : Waiter}

theorem stepsLeft_le (n : NotifierPc) : stepsLeft n ≤ 3 := by
  cases n <;> simp [stepsLeft]

theorem stepsLeft_pos {n : NotifierPc} (h : Masked n) : 0 < stepsLeft n := by
  cases n <;> simp [Masked, stepsLeft] at h ⊢

theorem placesLeft_cleared :
    placesLeft (s.cleared flags call) < placesLeft (.dropCell call flags) := by
  cases call with
  | first waker =>
    rw [cleared]
    split <;> simp [placesLeft]
  | _ => simp [cleared, placesLeft]

theorem placesLeft_spin : placesLeft (.spin call flags) = placesLeft (.dropCell call flags) := by
  cases call <;> rfl

theorem delay_le (s : WaiterState) : s.delay ≤ 4 * placesLeft s.owner + 3 := by
  have h := stepsLeft_le s.notifier
  rw [delay]
  split <;> omega

/-- A later place of the owner leaves less before the call. -/
theorem delay_lt (h : placesLeft s'.owner < placesLeft s.owner) : s'.delay < s.delay := by
  have hle := s'.delay_le
  have hge : 4 * placesLeft s.owner ≤ s.delay := Nat.le_add_right _ _
  omega

theorem delay_of_spin (ho : s.owner = .spin call flags) :
    s.delay = 4 * placesLeft s.owner + stepsLeft s.notifier := by
  rw [delay, ho]

theorem delay_of_not_spin (ho : ¬ ∃ call fl, s.owner = .spin call fl) :
    s.delay = 4 * placesLeft s.owner := by
  rw [delay]
  split
  · next call fl hs => exact absurd ⟨call, fl, hs⟩ ho
  · rfl

theorem delay_notifier (ho : s'.owner = s.owner)
    (hn : (∃ call fl, s.owner = .spin call fl) → stepsLeft s'.notifier < stepsLeft s.notifier ∨
      stepsLeft s'.notifier = stepsLeft s.notifier ∧ stepsLeft s.notifier = 0) :
    s'.delay < s.delay ∨ s'.delay = s.delay ∧
      ((∃ call fl, s.owner = .spin call fl) → stepsLeft s.notifier = 0) := by
  by_cases hs : ∃ call fl, s.owner = .spin call fl
  · obtain ⟨call, fl, hs'⟩ := id hs
    rw [delay_of_spin hs', delay_of_spin (ho.trans hs'), ho]
    rcases hn hs with hlt | ⟨he, h0⟩
    · exact Or.inl (by omega)
    · exact Or.inr ⟨by omega, fun _ => h0⟩
  · right
    rw [delay_of_not_spin hs, delay_of_not_spin (by rwa [ho]), ho]
    exact ⟨rfl, fun h => absurd h hs⟩

theorem Step.notifier (hi : s.Inv) (h : Step s s') (hn : ¬ OwnerStep s s') :
    s'.owner = s.owner ∧ ((∃ call fl, s.owner = .spin call fl) →
      stepsLeft s'.notifier < stepsLeft s.notifier ∨
        stepsLeft s'.notifier = stepsLeft s.notifier ∧ stepsLeft s.notifier = 0) := by
  have hp : (∃ call fl, s.owner = .spin call fl) → s.word.ptr = 0 := by
    rintro ⟨call, fl, ho⟩
    exact hi.ptr_eq_zero (by simp [ho, MayPublish])
  cases id h with
  | addFlag flag hn₀ hw => exact ⟨rfl, fun hs => absurd (hp hs) hw⟩
  | addFlag_unset flag hn₀ hw => exact ⟨rfl, fun _ => Or.inr (by simp [finished, hn₀, stepsLeft])⟩
  | mask hn₀ hw => exact ⟨rfl, fun _ => Or.inl (by simp [hn₀, stepsLeft])⟩
  | mask_unset hn₀ hw hb => exact ⟨rfl, fun _ => Or.inl (by simp [hn₀, stepsLeft])⟩
  | mask_busy hn₀ hw hb => exact ⟨rfl, fun _ => Or.inl (by simp [finished, hn₀, stepsLeft])⟩
  | read hn₀ ho hc =>
    refine ⟨rfl, fun _ => Or.inl ?_⟩
    rw [hn₀]
    dsimp only
    split <;> simp [stepsLeft]
  | restore hn₀ => exact ⟨rfl, fun _ => Or.inl (by simp [hn₀, stepsLeft])⟩
  | restore_unset hn₀ => exact ⟨rfl, fun _ => Or.inl (by simp [finished, hn₀, stepsLeft])⟩
  | wake hn₀ => exact ⟨rfl, fun _ => Or.inr (by simp [finished, hn₀, stepsLeft])⟩
  | _ => exact absurd ⟨h, rfl, rfl⟩ hn

theorem OwnerStep.places (h : OwnerStep s s') (hc : Calling s.owner) :
    placesLeft s'.owner < placesLeft s.owner ∨ s' = s ∧ s.Waiting := by
  obtain ⟨hs, hn, hk⟩ := h
  cases hs with
  | create _ _ ho | poll ho | drop ho => simp [ho, Calling] at hc
  | clear ho =>
    rename_i call
    left
    have hlt : ∀ fl, placesLeft (.dropCell call fl) < placesLeft (.clear call) := by
      cases call <;> simp [placesLeft]
    rw [ho]
    dsimp only
    split
    · exact hlt _
    · split
      · exact placesLeft_cleared.trans (hlt s.word.flags)
      · rw [placesLeft_spin]
        exact hlt s.word.flags
  | dropCell ho =>
    left
    rw [ho]
    exact placesLeft_cleared
  | spin ho =>
    rename_i call flags
    by_cases hd : s.word.canDrop = true
    · left
      rw [ho]
      dsimp only
      rw [if_pos hd, placesLeft_spin]
      exact placesLeft_cleared
    · right
      refine ⟨?_, Bool.eq_false_iff.mpr hd, call, flags, ho⟩
      rw [if_neg hd, ← ho]
  | store ho =>
    left
    simp [ho, placesLeft]
  | publish ho =>
    left
    rw [ho]
    dsimp only
    split <;> simp [placesLeft]
  | addFlag _ hn₀ | mask hn₀ | mask_unset hn₀ | restore hn₀ => simp [hn₀] at hn
  | addFlag_unset | mask_busy | restore_unset | wake => simp [finished] at hk
  | read hn₀ =>
    rw [hn₀] at hn
    dsimp only at hn
    split at hn <;> cases hn

/-- A call comes nearer to its end, but for the steps of the loop and those of a notifier that
is not waited for. -/
theorem Step.delay (hi : s.Inv) (h : Step s s') (hc : Calling s.owner) :
    s'.delay < s.delay ∨ s' = s ∧ s.Waiting ∨
      ¬ OwnerStep s s' ∧ s'.owner = s.owner ∧ s'.delay = s.delay ∧
        ((∃ call fl, s.owner = .spin call fl) → stepsLeft s.notifier = 0) := by
  by_cases ho : OwnerStep s s'
  · rcases ho.places hc with hlt | hw
    · exact Or.inl (delay_lt hlt)
    · exact Or.inr (Or.inl hw)
  · obtain ⟨hs, hn⟩ := h.notifier hi ho
    rcases delay_notifier hs hn with hlt | ⟨he, h0⟩
    · exact Or.inl hlt
    · exact Or.inr (Or.inr ⟨ho, hs, he, h0⟩)

theorem Good.owner_moves (h : s.Good) (hc : Calling s.owner) : ∃ s', OwnerStep s s' := by
  cases ho : s.owner with
  | absent | idle _ => simp [ho, Calling] at hc
  | clear call => exact ⟨_, .clear ho, rfl, rfl⟩
  | dropCell call flags =>
    obtain ⟨waker, hw⟩ := Option.isSome_iff_exists.mp (h.guarded.dropping call flags ho)
    exact ⟨_, .dropCell ho hw, rfl, rfl⟩
  | spin call flags => exact ⟨_, .spin ho, rfl, rfl⟩
  | store waker => exact ⟨_, .store ho, rfl, rfl⟩
  | publish waker => exact ⟨_, .publish ho, rfl, rfl⟩

/-- A notifier that has read the pointer finds a waker in the storage, and is never stuck. -/
theorem Good.notifier_moves (h : s.Good) (hn : s.notifier ≠ .idle) :
    ∃ s', Step s s' ∧ s'.notifier ≠ s.notifier := by
  cases hs : s.notifier with
  | idle => exact absurd hs hn
  | mask flag =>
    by_cases hp : s.word.ptr = 0
    · have hd : s.word.canDrop = true := h.guarded.canDrop (by simp [hs, Masked])
      exact ⟨_, .mask_unset hs hp hd, by simp⟩
    · exact ⟨_, .mask hs hp, by simp⟩
  | read flag ptr canDrop =>
    obtain ⟨rfl, hc, -, -, ho⟩ := h.inv.read _ _ _ hs
    obtain ⟨waker, hw⟩ := Option.isSome_iff_exists.mp hc
    refine ⟨_, .read hs (fun ha => by simp [ha, MayBeRead] at ho) hw, ?_⟩
    dsimp only
    split <;> simp
  | restore flag waker =>
    cases waker with
    | none => exact ⟨_, .restore_unset hs, by simp [finished]⟩
    | some waker => exact ⟨_, .restore hs, by simp⟩
  | wake flag waker => exact ⟨_, .wake hs, by simp [finished]⟩

end Steps

theorem Reachable.good {b : Bool} {s : WaiterState} (h : Reachable b s) : s.Good := by
  induction h with
  | refl => exact good_init b
  | tail _ hs ih => exact ih.step hs

/-- An interleaving that leaves neither party inside a call for ever without a step. -/
structure Fair (hasLock : Bool) (run : ℕ → WaiterState) : Prop where
  start : Reachable hasLock (run 0)
  step : ∀ n, Step (run n) (run (n + 1))
  owner : ∀ n, ∃ m ≥ n, ¬ Calling (run m).owner ∨ OwnerStep (run m) (run (m + 1))
  notifier : ∀ n, ∃ m ≥ n, (run m).notifier = .idle ∨ (run (m + 1)).notifier ≠ (run m).notifier

section Runs

variable {b : Bool} {run : ℕ → WaiterState}

theorem Fair.reachable (h : Fair b run) (n : ℕ) : Reachable b (run n) := by
  induction n with
  | zero => exact h.start
  | succ n ih => exact ih.tail (h.step n)

theorem Fair.owner_goes_on (h : Fair b run) (n : ℕ) :
    ¬ ∀ m ≥ n, ¬ ¬ Calling (run m).owner ∧ (run m).delay = (run n).delay := by
  intro hstay
  have hc : ∀ m ≥ n, Calling (run m).owner := fun m hm => not_not.mp (hstay m hm).1
  have hd : ∀ m ≥ n, ¬ (run (m + 1)).delay < (run m).delay := by
    intro m hm hlt
    rw [(hstay m hm).2, (hstay (m + 1) (Nat.le_succ_of_le hm)).2] at hlt
    exact Nat.lt_irrefl _ hlt
  have hstep := fun m hm => ((h.step m).delay (h.reachable m).inv (hc m hm)).resolve_left (hd m hm)
  -- the owner moves at some moment, so it can only be in the loop
  obtain ⟨m, hm, ho⟩ := h.owner n
  obtain ⟨hdrop, call, fl, hspin⟩ : (run m).Waiting := by
    rcases hstep m hm with ⟨-, hw⟩ | ⟨hno, -⟩
    · exact hw
    · exact absurd (ho.resolve_left (not_not.mpr (hc m hm))) hno
  have hpos : 0 < stepsLeft (run m).notifier := by
    apply stepsLeft_pos
    by_contra hnm
    rw [(h.reachable m).guarded.canDrop hnm] at hdrop
    cases hdrop
  have hkeep : ∀ k ≥ m, (run k).owner = .spin call fl := by
    intro k hk
    induction k, hk using Nat.le_induction with
    | base => exact hspin
    | succ k hk ih =>
      rcases hstep k (hm.trans hk) with ⟨he, -⟩ | ⟨-, he, -⟩
      · rw [he, ih]
      · rw [he, ih]
  have hleft : ∀ k ≥ m, stepsLeft (run k).notifier ≠ 0 := by
    intro k hk h0
    have hdk := (hstay k (hm.trans hk)).2.trans (hstay m hm).2.symm
    rw [delay_of_spin (hkeep k hk), delay_of_spin hspin, hkeep k hk, hspin] at hdk
    omega
  -- the notifier then moves as well, which is one step less to wait for
  obtain ⟨k, hk, hn⟩ := h.notifier m
  rcases hn with hn | hn
  · exact hleft k hk (by simp [hn, stepsLeft])
  · rcases hstep k (hm.trans hk) with ⟨he, -⟩ | ⟨-, -, -, h0⟩
    · exact hn (by rw [he])
    · exact hleft k hk (h0 ⟨call, fl, hkeep k hk⟩)

def callLeft : NotifierPc → ℕ
  | .mask _ => 4
  | .read _ _ _ => 3
  | .restore _ _ => 2
  | .wake _ _ => 1
  | .idle => 0

theorem Step.callLeft {s s' : WaiterState} (h : Step s s') (hn : s.notifier ≠ .idle) :
    WaiterState.callLeft s'.notifier < WaiterState.callLeft s.notifier ∨
      s'.notifier = s.notifier := by
  cases h with
  | addFlag _ hi | addFlag_unset _ hi => exact absurd hi hn
  | mask hs | mask_unset hs | restore hs => exact Or.inl (by simp [hs, WaiterState.callLeft])
  | mask_busy hs | restore_unset hs | wake hs =>
    exact Or.inl (by simp [hs, finished, WaiterState.callLeft])
  | read hs =>
    left
    rw [hs]
    dsimp only
    split <;> simp [WaiterState.callLeft]
  | _ => exact Or.inr rfl

theorem Fair.notifier_goes_on (h : Fair b run) (n : ℕ) : ¬ ∀ m ≥ n, ¬ (run m).notifier = .idle ∧
    callLeft (run m).notifier = callLeft (run n).notifier := by
  intro hstay
  obtain ⟨m, hm, hn⟩ := h.notifier n
  have hne := (hstay m hm).1
  rcases (h.step m).callLeft hne with hlt | he
  · rw [(hstay m hm).2, (hstay (m + 1) (Nat.le_succ_of_le hm)).2] at hlt
    exact Nat.lt_irrefl _ hlt
  · exact hn.elim hne fun hc => hc he

theorem Fair.owner_returns (h : Fair b run) (n : ℕ) : ∃ m ≥ n, ¬ Calling (run m).owner := by
  refine reaches_goal (fun s => ¬ Calling s.owner) delay (fun n hc _ => ?_) h.owner_goes_on n
  rcases (h.step n).delay (h.reachable n).inv (not_not.mp hc) with hlt | ⟨he, -⟩ | ⟨-, -, he, -⟩
  · exact hlt.le
  · rw [he]
  · exact he.le

theorem Fair.notifier_returns (h : Fair b run) (n : ℕ) : ∃ m ≥ n, (run m).notifier = .idle := by
  refine reaches_goal (fun s : WaiterState => s.notifier = .idle) (fun s => callLeft s.notifier)
    (fun n hn _ => ?_) h.notifier_goes_on n
  rcases (h.step n).callLeft hn with hlt | he
  · exact hlt.le
  · rw [he]

/-- In a fair interleaving every poll, drop and `add_flag` returns, and in every reachable state a
party inside a call has a step of its own. -/
theorem calls_return (b : Bool) :
    (∀ run, Fair b run → ∀ n,
      (∃ m ≥ n, ¬ Calling (run m).owner) ∧ ∃ m ≥ n, (run m).notifier = .idle) ∧
    ∀ s, Reachable b s → (Calling s.owner → ∃ s', OwnerStep s s') ∧
      (s.notifier ≠ .idle → ∃ s', Step s s' ∧ s'.notifier ≠ s.notifier) := by
  constructor
  · exact fun run h n => ⟨h.owner_returns n, h.notifier_returns n⟩
  · intro s hs
    have hg := hs.good
    exact ⟨hg.owner_moves, hg.notifier_moves⟩

end Runs

/-- A future whose flag has been added and whose waker has been woken. -/
def rested (owner : OwnerPc) : WaiterState where
  word := ⟨⟨true, false⟩, true, 0⟩
  cell := none
  addr := 8
  target := ⟨true, false⟩
  owner := owner
  notifier := .idle
  nextWaker := 1
  woken := [0]
  dropped := []
  completed := [.hasLock]

/-- The owner drops its future while a notifier reads the waker, and later goes on to create
futures and to drop them unpolled. -/
def dropping : ℕ → WaiterState
  | 0 => { rested (.spin .drop ⟨true, false⟩) with
      word := ⟨⟨true, false⟩, false, 0⟩, cell := some 0, woken := [], completed := []
      notifier := .read .hasLock 8 true }
  | 1 => { rested (.spin .drop ⟨true, false⟩) with
      word := ⟨⟨true, false⟩, false, 0⟩, woken := [], completed := []
      notifier := .restore .hasLock (some 0) }
  | 2 => { rested (.spin .drop ⟨true, false⟩) with
      woken := [], completed := [], notifier := .wake .hasLock 0 }
  | 3 => rested (.spin .drop ⟨true, false⟩)
  | n + 4 => rested (if n % 3 = 0 then .absent else if n % 3 = 1 then .idle .unpolled
      else .clear .drop)

theorem fair_dropping : Fair false dropping where
  start := (Relation.ReflTransGen.refl : Reachable false _)
    |>.tail (.create 8 ⟨true, false⟩ rfl (by decide) rfl)
    |>.tail (.poll rfl)
    |>.tail (.clear rfl)
    |>.tail (.store rfl)
    |>.tail (.publish rfl)
    |>.tail (.addFlag .hasLock rfl (by decide))
    |>.tail (.mask rfl (by decide))
    |>.tail (.drop rfl)
    |>.tail (.clear rfl)
  step n := by
    match n with
    | 0 => exact Step.read (s := dropping 0) rfl nofun rfl
    | 1 => exact .restore rfl
    | 2 => exact .wake rfl
    | 3 => exact Step.spin (s := dropping 3) rfl
    | n + 4 =>
      have hn : n % 3 = 0 ∧ (n + 1) % 3 = 1 ∨ n % 3 = 1 ∧ (n + 1) % 3 = 2 ∨
          n % 3 = 2 ∧ (n + 1) % 3 = 0 := by omega
      simp only [dropping]
      rcases hn with ⟨h, h'⟩ | ⟨h, h'⟩ | ⟨h, h'⟩ <;> rw [h, h']
      · exact .create 8 ⟨true, false⟩ rfl (by decide) rfl
      · exact .drop rfl
      · exact Step.clear (s := rested (.clear .drop)) rfl
  owner n := by
    refine ⟨3 * n + 4, by omega, Or.inl ?_⟩
    simp [dropping, rested, Calling]
  notifier n := by
    refine ⟨3 * n + 4, by omega, Or.inl ?_⟩
    simp [dropping, rested]

theorem calls_return_dropping : (dropping 0).Waiting ∧ ∃ m ≥ 0, ¬ Calling (dropping m).owner :=
  ⟨⟨rfl, _, _, rfl⟩, ((calls_return false).1 dropping fair_dropping 0).1⟩

end PriorityLock.WaiterState
