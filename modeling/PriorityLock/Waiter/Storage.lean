import Mathlib.Data.List.Perm.Basic
import PriorityLock.Waiter.Wakeups

/-! # The storage of a waker is used once

Along an interleaving every waker that was written is in one place: still in the
storage, taken by the notifier, woken, or dropped by the owner. The drop flag is
only clear while a notifier is between its two accesses to the word.
-/

namespace PriorityLock.WaiterState

/-- The waker that the notifier has moved out of the storage and not woken yet. -/
def taken : NotifierPc → Option ℕ
  | .restore _ waker => waker
  | .wake _ waker => some waker
  | _ => none

def carried : ClearCall → Option ℕ
  | .first waker => some waker
  | _ => none

/-- The waker of a running poll that is not written yet. -/
def unwritten : OwnerPc → Option ℕ
  | .clear call | .dropCell call _ | .spin call _ => carried call
  | .store waker => some waker
  | _ => none

def places (s : WaiterState) : List ℕ :=
  s.cell.toList ++ (taken s.notifier).toList ++ s.woken ++ s.dropped

def written (s s' : WaiterState) : List ℕ :=
  match s.owner, s'.owner with
  | .store waker, .publish _ => [waker]
  | _, _ => []

/-- The states that interleavings reach, with the wakers written on the way. -/
inductive Writes (hasLock : Bool) : WaiterState → List ℕ → Prop where
  | init : Writes hasLock (init hasLock) []
  | step {s s' : WaiterState} {l : List ℕ} : Writes hasLock s l → Step s s' →
      Writes hasLock s' (written s s' ++ l)

def Masked : NotifierPc → Prop
  | .read _ _ _ | .restore _ _ => True
  | _ => False

structure Guarded (s : WaiterState) : Prop where
  canDrop : ¬ Masked s.notifier → s.word.canDrop = true
  restores : ∀ f p c, s.notifier = .read f p c → c = true
  cell : s.cell.isSome = true → s.word.ptr ≠ 0 ∨ (∃ f p c, s.notifier = .read f p c) ∨
    (∃ call flags, s.owner = .dropCell call flags) ∨ ∃ k, s.owner = .publish k
  dropping : ∀ call flags, s.owner = .dropCell call flags → s.cell.isSome = true

theorem guarded_init (b : Bool) : (init b).Guarded := by
  constructor <;> simp [init]

theorem reachable_iff {b : Bool} {s : WaiterState} : Reachable b s ↔ ∃ l, Writes b s l := by
  constructor
  · intro h
    induction h with
    | refl => exact ⟨[], .init⟩
    | tail _ hs ih =>
      obtain ⟨l, hl⟩ := ih
      exact ⟨_, hl.step hs⟩
  · rintro ⟨l, h⟩
    induction h with
    | init => exact Relation.ReflTransGen.refl
    | step _ hs ih => exact ih.tail hs

namespace Guarded

variable {s s' : WaiterState}

theorem published (h : s.Guarded) (hc : s.cell.isSome = true)
    (hd : ∀ call flags, s.owner ≠ .dropCell call flags) (ho : ∀ k, s.owner ≠ .publish k) :
    s.word.ptr ≠ 0 ∨ ∃ f p c, s.notifier = .read f p c := by
  rcases h.cell hc with hw | hn | ⟨call, fl, hd'⟩ | ⟨k, hk⟩
  · exact Or.inl hw
  · exact Or.inr hn
  · exact absurd hd' (hd call fl)
  · exact absurd hk (ho k)

theorem cell_eq_none (h : s.Guarded) (hi : s.Inv) (hp : ¬ MayPublish s.owner)
    (hr : ¬ MayBeRead s.owner) (hd : ∀ call flags, s.owner ≠ .dropCell call flags)
    (ho : ∀ k, s.owner ≠ .publish k) : s.cell = none := by
  by_contra hc
  rcases h.published (Option.isSome_iff_ne_none.mpr hc) hd ho with hw | ⟨f, p, c, hn⟩
  · exact hw (hi.ptr_eq_zero hp)
  · exact hi.not_reading hr hn

theorem cell_of_absent (h : s.Guarded) (hi : s.Inv) (ho : s.owner = .absent) : s.cell = none := by
  apply h.cell_eq_none hi <;> simp [ho, MayPublish, MayBeRead]

theorem cell_of_store (h : s.Guarded) (hi : s.Inv) {k : ℕ} (ho : s.owner = .store k) :
    s.cell = none := by
  apply h.cell_eq_none hi <;> simp [ho, MayPublish, MayBeRead]

theorem cleared_ne_dropCell (s : WaiterState) (flags fl : Waiter) (call c : ClearCall) :
    s.cleared flags call ≠ .dropCell c fl := by
  rcases s.cleared_cases flags call with ⟨h, -⟩ | ⟨waker, -, h⟩ | h <;> simp [h]

theorem step (h : s.Guarded) (hi : s.Inv) (hs : Step s s') : s'.Guarded := by
  obtain ⟨hd, hr, hc, hp⟩ := id h
  cases hs with
  | create addr target ho ha hT => exact ⟨hd, hr, by simp, by simp⟩
  | poll ho => exact ⟨hd, hr, by simpa [ho] using hc, by simp⟩
  | drop ho => exact ⟨hd, hr, by simpa [ho] using hc, by simp⟩
  | clear ho =>
    refine ⟨hd, hr, fun hs => ?_, fun call fl ho' => ?_⟩
    · rcases h.published hs (by simp [ho]) (by simp [ho]) with hw | hn
      · simp [hw]
      · exact Or.inr (Or.inl hn)
    · by_cases hw : s.word.ptr = 0
      · simp only [hw, ne_eq, not_true_eq_false, if_false] at ho'
        split at ho'
        · exact absurd ho' (cleared_ne_dropCell s _ fl _ call)
        · cases ho'
      · exact (hi.ptr hw).2.2.1
  | dropCell ho hk => exact ⟨hd, hr, by simp, fun c f h => absurd h (cleared_ne_dropCell s _ f _ c)⟩
  | spin ho =>
    refine ⟨hd, hr, fun hs => ?_, fun call fl ho' => ?_⟩
    · rcases h.published hs (by simp [ho]) (by simp [ho]) with hw | hn
      · exact Or.inl hw
      · exact Or.inr (Or.inl hn)
    · dsimp only at ho'
      split at ho'
      · exact absurd ho' (cleared_ne_dropCell s _ fl _ call)
      · cases ho'
  | store ho => exact ⟨hd, hr, fun _ => Or.inr (Or.inr (Or.inr ⟨_, rfl⟩)), by simp⟩
  | publish ho =>
    refine ⟨fun _ => rfl, hr, fun _ => Or.inl ?_, fun call fl ho' => ?_⟩
    · have ha := (hi.addr (by simp [ho])).1
      simpa [hi.ptr_eq_zero (by simp [ho, MayPublish])] using ha
    · dsimp only at ho'
      split at ho' <;> cases ho'
  | addFlag flag hn hw =>
    exact ⟨fun _ => hd (by simp [hn, Masked]), by simp, by simpa [hn] using hc, hp⟩
  | addFlag_unset flag hn hw =>
    exact ⟨fun _ => hd (by simp [hn, Masked]), by simp [finished],
      by simpa [hn, finished] using hc, hp⟩
  | mask hn hw =>
    refine ⟨fun hm => absurd trivial hm, fun f p c h => ?_,
      fun _ => Or.inr (Or.inl ⟨_, _, _, rfl⟩), hp⟩
    obtain ⟨-, -, rfl⟩ := NotifierPc.read.inj h
    exact hd (by simp [hn, Masked])
  | mask_unset hn hw hb =>
    exact ⟨fun hm => absurd trivial hm, by simp, by simpa [hn, hw] using hc, hp⟩
  | mask_busy hn hw hb =>
    rw [hd (by simp [hn, Masked])] at hb
    cases hb
  | read hn ho hk =>
    obtain rfl := hr _ _ _ hn
    refine ⟨fun hm => absurd trivial hm, by simp, by simp, fun call fl ho' => ?_⟩
    have hm := (hi.read _ _ _ hn).2.2.2.2
    rw [show s.owner = .dropCell call fl from ho'] at hm
    exact absurd hm (by simp [MayBeRead])
  | restore hn => exact ⟨fun _ => rfl, by simp, by simpa [hn] using hc, hp⟩
  | restore_unset hn =>
    exact ⟨fun _ => rfl, by simp [finished], by simpa [hn, finished] using hc, hp⟩
  | wake hn =>
    exact ⟨fun _ => hd (by simp [hn, Masked]), by simp [finished],
      by simpa [hn, finished] using hc, hp⟩

end Guarded

theorem Reachable.guarded {b : Bool} {s : WaiterState} (h : Reachable b s) : s.Guarded := by
  induction h with
  | refl => exact guarded_init b
  | tail hr hs ih => exact ih.step (Reachable.inv hr) hs

theorem written_of_owner {s s' : WaiterState} (h : s'.owner = s.owner) : written s s' = [] := by
  rw [written, h]
  cases s.owner <;> rfl

/-- A waker leaves its place only for the next one, and none is lost on the way. -/
theorem Step.places {s s' : WaiterState} (hi : s.Inv) (hg : s.Guarded) (h : Step s s') :
    (places s').Perm (written s s' ++ places s) := by
  rw [List.perm_iff_count]
  intro k
  cases h with
  | create addr target ho ha hT =>
    simp [WaiterState.places, written, ho, hg.cell_of_absent hi ho]
  | poll ho => simp [WaiterState.places, written, ho]
  | drop ho => simp [WaiterState.places, written, ho]
  | clear ho => simp [WaiterState.places, written, ho]
  | dropCell ho hc =>
    simp only [WaiterState.places, written, ho, hc, Option.toList_some, Option.toList_none,
      List.count_append, List.count_cons, List.count_nil]
    omega
  | spin ho => simp [WaiterState.places, written, ho]
  | store ho => simp [WaiterState.places, written, ho, hg.cell_of_store hi ho]
  | publish ho => simp [WaiterState.places, written, ho]
  | addFlag flag hn hw => simp [WaiterState.places, written_of_owner, hn, taken]
  | addFlag_unset flag hn hw => simp [WaiterState.places, written_of_owner, hn, taken, finished]
  | mask hn hw => simp [WaiterState.places, written_of_owner, hn, taken]
  | mask_unset hn hw hb => simp [WaiterState.places, written_of_owner, hn, taken]
  | mask_busy hn hw hb => simp [WaiterState.places, written_of_owner, hn, taken, finished]
  | read hn ho hc =>
    obtain rfl := hg.restores _ _ _ hn
    simp [WaiterState.places, written_of_owner, hn, hc, taken]
  | restore hn => simp [WaiterState.places, written_of_owner, hn, taken]
  | restore_unset hn => simp [WaiterState.places, written_of_owner, hn, taken, finished]
  | wake hn => simp [WaiterState.places, written_of_owner, hn, taken, finished]

theorem written_cases (s s' : WaiterState) : written s s' = [] ∨
    ∃ k, s.owner = .store k ∧ unwritten s'.owner = none ∧ written s s' = [k] := by
  rw [written]
  split
  · next k j ho ho' => exact Or.inr ⟨k, ho, by rw [ho']; rfl, rfl⟩
  · exact Or.inl rfl

theorem unwritten_cleared {s : WaiterState} {flags : Waiter} {call : ClearCall} {k : ℕ}
    (h : unwritten (s.cleared flags call) = some k) : carried call = some k := by
  rcases s.cleared_cases flags call with ⟨hc, -⟩ | ⟨waker, rfl, hc⟩ | hc <;> rw [hc] at h
  · cases h
  · exact h
  · cases h

theorem Step.unwritten {s s' : WaiterState} (h : Step s s') : s.nextWaker ≤ s'.nextWaker ∧
    ∀ k, unwritten s'.owner = some k → WaiterState.unwritten s.owner = some k ∨
      k = s.nextWaker ∧ s.nextWaker < s'.nextWaker := by
  cases h with
  | poll ho =>
    constructor
    · exact Nat.le_succ _
    · intro k hk
      exact Or.inr ⟨(Option.some.inj hk).symm, Nat.lt_succ_self _⟩
  | clear ho =>
    refine ⟨Nat.le_refl _, fun k hk => Or.inl ?_⟩
    dsimp only at hk
    rw [ho]
    split at hk
    · exact hk
    · split at hk
      · exact unwritten_cleared hk
      · exact hk
  | dropCell ho hc =>
    refine ⟨Nat.le_refl _, fun k hk => Or.inl ?_⟩
    rw [ho]
    exact unwritten_cleared hk
  | spin ho =>
    refine ⟨Nat.le_refl _, fun k hk => Or.inl ?_⟩
    dsimp only at hk
    rw [ho]
    split at hk
    · exact unwritten_cleared hk
    · exact hk
  | publish ho =>
    refine ⟨Nat.le_refl _, fun k hk => ?_⟩
    dsimp only at hk
    split at hk <;> cases hk
  | create | drop | store => exact ⟨Nat.le_refl _, nofun⟩
  | _ => exact ⟨Nat.le_refl _, fun k hk => Or.inl hk⟩

/-- The wakers written so far are distinct, each in its place, and the next one is new. -/
structure Placed (s : WaiterState) (l : List ℕ) : Prop where
  perm : (places s).Perm l
  nodup : l.Nodup
  lt : ∀ k ∈ l, k < s.nextWaker
  fresh : ∀ k, unwritten s.owner = some k → k < s.nextWaker ∧ k ∉ l

theorem Placed.step {s s' : WaiterState} {l : List ℕ} (h : s.Placed l) (hi : s.Inv)
    (hg : s.Guarded) (hs : Step s s') : s'.Placed (written s s' ++ l) := by
  obtain ⟨hle, hu⟩ := hs.unwritten
  have hlt : ∀ k ∈ l, k < s'.nextWaker := fun k hk => Nat.lt_of_lt_of_le (h.lt k hk) hle
  have hp : (places s').Perm (written s s' ++ l) := (hs.places hi hg).trans (h.perm.append_left _)
  rcases written_cases s s' with hw | ⟨j, ho, ho', hw⟩
  · rw [hw, List.nil_append] at hp ⊢
    refine ⟨hp, h.nodup, hlt, fun k hk => ?_⟩
    rcases hu k hk with hk | ⟨rfl, hn⟩
    · exact ⟨Nat.lt_of_lt_of_le (h.fresh k hk).1 hle, (h.fresh k hk).2⟩
    · exact ⟨hn, fun hm => absurd (h.lt _ hm) (Nat.lt_irrefl _)⟩
  · rw [hw, List.singleton_append] at hp ⊢
    obtain ⟨hj, hjl⟩ := h.fresh j (by rw [ho]; rfl)
    refine ⟨hp, List.nodup_cons.mpr ⟨hjl, h.nodup⟩, ?_, by simp [ho']⟩
    intro k hk
    rcases List.mem_cons.mp hk with rfl | hk
    · exact Nat.lt_of_lt_of_le hj hle
    · exact hlt k hk

theorem Writes.placed {b : Bool} {s : WaiterState} {l : List ℕ} (h : Writes b s l) :
    s.Placed l := by
  induction h with
  | init => constructor <;> simp [places, taken, unwritten, WaiterState.init]
  | step hw hs ih =>
    have hr := reachable_iff.mpr ⟨_, hw⟩
    exact ih.step hr.inv hr.guarded hs

theorem Step.grows {s s' : WaiterState} (h : Step s s') :
    s.woken <:+ s'.woken ∧ s.dropped <:+ s'.dropped := by
  cases h with
  | dropCell => exact ⟨List.suffix_refl _, List.suffix_cons _ _⟩
  | wake => exact ⟨List.suffix_cons _ _, List.suffix_refl _⟩
  | _ => exact ⟨List.suffix_refl _, List.suffix_refl _⟩

theorem Step.cell_of_read {s s' : WaiterState} (hi : s.Inv) (h : Step s s') {f : Flag} {p : ℕ}
    {c : Bool} (hn : s.notifier = .read f p c) (hn' : s'.notifier = s.notifier) :
    s'.cell = s.cell ∧ s'.addr = s.addr ∧ s'.owner ≠ .absent := by
  obtain ⟨-, -, hp, hd, hm⟩ := hi.read f p c hn
  cases h with
  | poll ho => exact ⟨rfl, rfl, nofun⟩
  | drop ho => exact ⟨rfl, rfl, nofun⟩
  | clear ho => exact ⟨rfl, rfl, by simp [hp, hd]⟩
  | spin ho => exact ⟨rfl, rfl, by simp [hd]⟩
  | create _ _ ho => exact absurd hm (by simp [ho, MayBeRead])
  | dropCell ho | store ho | publish ho => exact absurd hm (by simp [ho, MayBeRead])
  | addFlag _ hn₀ | addFlag_unset _ hn₀ | mask hn₀ | mask_unset hn₀ | mask_busy hn₀
  | restore hn₀ | restore_unset hn₀ | wake hn₀ =>
    rw [hn] at hn₀
    cases hn₀
  | read hn₀ =>
    rw [hn] at hn'
    dsimp only at hn'
    split at hn' <;> cases hn'

/-- Every written waker is in one place, and both parties find the storage as they expect. -/
theorem storage_used_once {b : Bool} {s : WaiterState} {l : List ℕ} (h : Writes b s l) :
    (s.word.ptr ≠ 0 → s.word.ptr = s.addr ∧ s.owner ≠ .absent ∧ s.cell.isSome = true) ∧
    (l.Nodup ∧ (s.cell.toList ++ (taken s.notifier).toList ++ s.woken ++ s.dropped).Perm l ∧
      ∀ s', Step s s' → s.woken <:+ s'.woken ∧ s.dropped <:+ s'.dropped) ∧
    (∀ f p c, s.notifier = .read f p c → p = s.addr ∧ s.cell.isSome = true ∧ s.owner ≠ .absent ∧
      ∀ s', Step s s' → s'.notifier = s.notifier →
        s'.cell = s.cell ∧ s'.addr = s.addr ∧ s'.owner ≠ .absent) ∧
    (∀ call flags, s.owner = .dropCell call flags → s.cell.isSome = true) ∧
    (∀ k, s.owner = .store k → s.cell = none) ∧
    (¬ Masked s.notifier → s.word.canDrop = true) ∧
    (s.owner = .absent → s.cell = none ∧ s.word.ptr = 0) := by
  have hr := reachable_iff.mpr ⟨_, h⟩
  have hi := hr.inv
  have hg := hr.guarded
  have hp := h.placed
  constructor
  · intro hw
    obtain ⟨ha, -, hc, hm⟩ := hi.ptr hw
    refine ⟨ha, fun ho => ?_, hc⟩
    rw [ho] at hm
    exact hm
  constructor
  · exact ⟨hp.nodup, hp.perm, fun s' hs => hs.grows⟩
  constructor
  · intro f p c hn
    obtain ⟨ha, hc, -, -, hm⟩ := hi.read f p c hn
    refine ⟨ha, hc, fun ho => ?_, fun s' hs hn' => hs.cell_of_read hi hn hn'⟩
    rw [ho] at hm
    exact hm
  constructor
  · exact hg.dropping
  constructor
  · exact fun k ho => hg.cell_of_store hi ho
  constructor
  · exact hg.canDrop
  · exact fun ho => ⟨hg.cell_of_absent hi ho, hi.ptr_eq_zero (by simp [ho, MayPublish])⟩

theorem writes_started : Writes false started [0] :=
  (Writes.init : Writes false _ _)
    |>.step (.create 8 ⟨true, false⟩ rfl (by decide) rfl)
    |>.step (.poll rfl)
    |>.step (.clear rfl)
    |>.step (.store rfl)
    |>.step (.publish rfl)
    |>.step (.addFlag .hasLock rfl (by decide))
    |>.step (.mask rfl (by decide))
    |>.step (.read rfl (by decide) rfl)
    |>.step (.restore rfl)
    |>.step (.wake rfl)

theorem storage_used_once_started : (started.owner = .absent → started.cell = none) ∧
    (started.cell.toList ++ (taken started.notifier).toList ++ started.woken ++
      started.dropped).Perm [0] :=
  have h := storage_used_once writes_started
  ⟨fun ho => (h.2.2.2.2.2.2 ho).1, h.2.1.2.1⟩

end PriorityLock.WaiterState
