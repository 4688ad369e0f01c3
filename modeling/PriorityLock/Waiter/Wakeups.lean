import Mathlib.Tactic.ByContra
import PriorityLock.Waiter.Steps

/-! # No wakeup is lost

The pointer is only set while the owner's storage holds its waker, and while a
notifier reads that storage the owner waits. A pending owner's waker is then
woken already, in the notifier's hand, or registered with a word in which no
flag of the target is set unless a notifier is about to take it.
-/

namespace PriorityLock.WaiterState

def adding : NotifierPc → Option Flag
  | .idle => none
  | .mask f | .read f _ _ | .restore f _ | .wake f _ => some f

/-- The places of the owner at which the word may hold a pointer. -/
def MayPublish : OwnerPc → Prop
  | .idle (.pending _) | .clear _ => True
  | _ => False

/-- The places of the owner at which a notifier may be reading its storage. -/
def MayBeRead : OwnerPc → Prop
  | .idle (.pending _) | .clear _ | .spin _ _ => True
  | _ => False

/-- The waker of a pending poll is published and no notifier has met its target, except
for one that takes the pointer next. -/
def Registered (s : WaiterState) (k : ℕ) : Prop :=
  s.word.ptr ≠ 0 ∧ s.cell = some k ∧
    ∀ f, s.target.has f = true → s.word.flags.has f = true → ∃ g, s.notifier = .mask g

/-- The notifier has taken the waker of a pending poll and will wake it. -/
def InHand (s : WaiterState) (k : ℕ) : Prop :=
  (∃ f c, s.notifier = .read f s.addr c ∧ s.cell = some k) ∨
    (∃ f, s.notifier = .restore f (some k)) ∨ ∃ f, s.notifier = .wake f k

structure Inv (s : WaiterState) : Prop where
  addr : s.owner ≠ .absent → s.addr ≠ 0 ∧ s.target.meets s.target = true
  ptr : s.word.ptr ≠ 0 → s.word.ptr = s.addr ∧ s.word.canDrop = true ∧ s.cell.isSome = true ∧
    MayPublish s.owner
  read : ∀ f p c, s.notifier = .read f p c → p = s.addr ∧ s.cell.isSome = true ∧
    s.word.ptr = 0 ∧ s.word.canDrop = false ∧ MayBeRead s.owner
  ready : ∀ flags, s.owner = .idle (.ready flags) → flags.meets s.target = true
  second : s.owner = .clear .second → s.word.flags.meets s.target = true
  returning : ∀ flags, s.owner = .dropCell .second flags ∨ s.owner = .spin .second flags →
    flags.meets s.target = true
  stored : ∀ k, s.owner = .publish k → s.cell = some k
  set_completed : ∀ f ∈ s.completed, s.word.flags.has f = true
  set_adding : ∀ f, adding s.notifier = some f → s.word.flags.has f = true
  pending : ∀ k, s.owner = .idle (.pending k) → k ∈ s.woken ∨
    (∀ f ∈ s.completed, s.target.has f = false) ∧ (s.Registered k ∨ s.InHand k)

theorem inv_init (b : Bool) : (init b).Inv := by
  constructor <;> simp [init, adding]

namespace Inv

variable {s s' : WaiterState} {flag : Flag} {flags : Waiter} {call : ClearCall} {waker : ℕ}

theorem ptr_eq_zero (h : s.Inv) (ho : ¬ MayPublish s.owner) : s.word.ptr = 0 := by
  by_contra hp
  exact ho (h.ptr hp).2.2.2

theorem not_reading (h : s.Inv) (ho : ¬ MayBeRead s.owner) {f : Flag} {p : ℕ} {c : Bool} :
    s.notifier ≠ .read f p c := fun hr => ho (h.read f p c hr).2.2.2.2

theorem cleared_ne_pending (s : WaiterState) (flags : Waiter) (call : ClearCall) (k : ℕ) :
    s.cleared flags call ≠ .idle (.pending k) := by
  rcases s.cleared_cases flags call with ⟨h, -⟩ | ⟨waker, -, h⟩ | h <;> simp [h]

theorem cleared_ne (s : WaiterState) (flags : Waiter) (call : ClearCall) :
    s.cleared flags call ≠ .clear .second ∧ (∀ f, s.cleared flags call ≠ .dropCell .second f ∧
      s.cleared flags call ≠ .spin .second f) ∧ ∀ k, s.cleared flags call ≠ .publish k := by
  rcases s.cleared_cases flags call with ⟨h, -⟩ | ⟨waker, -, h⟩ | h <;> simp [h]

/-- When `clear_waker` returns to a ready poll, its flags meet the target. -/
theorem ready_cleared {fl : Waiter} (hT : s.target.meets s.target = true)
    (hs : call = .second → flags.meets s.target = true)
    (hr : s.cleared flags call = .idle (.ready fl)) : fl.meets s.target = true := by
  rcases s.cleared_cases flags call with ⟨h, hc⟩ | ⟨waker, -, h⟩ | h <;> rw [h] at hr
  · obtain rfl : flags = fl := by simpa using hr
    rcases hc with hc | hc
    · exact hs hc
    · exact Waiter.meets_of_covers hc hT
  · cases hr
  · cases hr

theorem create (h : s.Inv) {addr : ℕ} {target : Waiter} (ho : s.owner = .absent) (ha : addr ≠ 0)
    (hT : target.meets target = true) : Inv { s with
      owner := .idle .unpolled, addr := addr, target := target, cell := none } where
  addr _ := ⟨ha, hT⟩
  ptr hp := absurd (h.ptr_eq_zero (by simp [ho, MayPublish])) hp
  read _ _ _ hr := absurd hr (h.not_reading (by simp [ho, MayBeRead]))
  ready := nofun
  second := nofun
  returning := nofun
  stored := nofun
  set_completed := h.set_completed
  set_adding := h.set_adding
  pending := nofun

theorem enter (h : s.Inv) {last : LastPoll} {n : ℕ} (ho : s.owner = .idle last)
    (hc : call ≠ .second) : Inv { s with owner := .clear call, nextWaker := n } where
  addr _ := h.addr (by simp [ho])
  ptr hp :=
    have ⟨ha, hd, hs, _⟩ := h.ptr hp
    ⟨ha, hd, hs, trivial⟩
  read f p c hr :=
    have ⟨ha, hs, hp, hd, _⟩ := h.read f p c hr
    ⟨ha, hs, hp, hd, trivial⟩
  ready := nofun
  second hs := absurd (OwnerPc.clear.inj hs) hc
  returning := nofun
  stored := nofun
  set_completed := h.set_completed
  set_adding := h.set_adding
  pending := nofun

theorem returned (h : s.Inv) {w : Word} {c : Option ℕ} {d : List ℕ} (ho : s.owner ≠ .absent)
    (hw : w.flags = s.word.flags) (hp : w.ptr = 0)
    (hn : ∀ f p c, s.notifier ≠ .read f p c)
    (hs : call = .second → flags.meets s.target = true) : Inv { s with
      word := w, cell := c, dropped := d, owner := s.cleared flags call } where
  addr _ := h.addr ho
  ptr hw := absurd hp hw
  read f p c hr := absurd hr (hn f p c)
  ready _ hr := ready_cleared (h.addr ho).2 hs hr
  second hc := absurd hc (cleared_ne s flags call).1
  returning f hc := by
    have hne := (cleared_ne s flags call).2.1 f
    rcases hc with hc | hc
    · exact absurd hc hne.1
    · exact absurd hc hne.2
  stored k hc := absurd hc ((cleared_ne s flags call).2.2 k)
  set_completed f hf := by
    rw [hw]
    exact h.set_completed f hf
  set_adding f hf := by
    rw [hw]
    exact h.set_adding f hf
  pending k hk := absurd hk (cleared_ne_pending s flags call k)

theorem clear (h : s.Inv) (ho : s.owner = .clear call) : Inv { s with
    word := { s.word with ptr := 0 }
    owner :=
      if s.word.ptr ≠ 0 then .dropCell call s.word.flags
      else if s.word.canDrop then s.cleared s.word.flags call
      else .spin call s.word.flags } := by
  have hs : call = .second → s.word.flags.meets s.target = true := by
    rintro rfl
    exact h.second ho
  have hne : s.owner ≠ .absent := by simp [ho]
  by_cases hp : s.word.ptr = 0
  · by_cases hd : s.word.canDrop = true
    · -- a reading notifier would have cleared the drop flag
      have hn : ∀ f p c, s.notifier ≠ .read f p c := fun f p c hr => by
        have hd' := (h.read f p c hr).2.2.2.1
        rw [hd] at hd'
        cases hd'
      simp only [hp, hd, ne_eq, not_true_eq_false, if_false, if_true]
      exact h.returned hne rfl rfl hn hs
    · simp only [hp, hd, ne_eq, not_true_eq_false, Bool.false_eq_true, if_false]
      refine ⟨fun _ => h.addr hne, fun hp => absurd rfl hp, ?_, nofun, nofun, ?_, nofun,
        h.set_completed, h.set_adding, nofun⟩
      · intro f p c hr
        obtain ⟨ha, hc, hp, hd, -⟩ := h.read f p c hr
        exact ⟨ha, hc, rfl, rfl, trivial⟩
      · intro f hc
        obtain ⟨rfl, rfl⟩ : call = .second ∧ s.word.flags = f := by simpa using hc
        exact hs rfl
  · simp only [ne_eq, hp, not_false_eq_true, if_true]
    refine ⟨fun _ => h.addr hne, fun hp => absurd rfl hp, ?_, nofun, nofun, ?_, nofun,
      h.set_completed, h.set_adding, nofun⟩
    · intro f p c hr
      exact absurd (h.read f p c hr).2.2.1 hp
    · intro f hc
      obtain ⟨rfl, rfl⟩ : call = .second ∧ s.word.flags = f := by simpa using hc
      exact hs rfl

theorem dropCell (h : s.Inv) (ho : s.owner = .dropCell call flags) : Inv { s with
    cell := none, dropped := waker :: s.dropped, owner := s.cleared flags call } := by
  apply h.returned (by simp [ho]) rfl (h.ptr_eq_zero (by simp [ho, MayPublish]))
  · intro f p c
    exact h.not_reading (by simp [ho, MayBeRead])
  · rintro rfl
    exact h.returning flags (Or.inl ho)

theorem spin (h : s.Inv) (ho : s.owner = .spin call flags) : Inv { s with
    owner := if s.word.canDrop then s.cleared flags call else .spin call flags } := by
  by_cases hd : s.word.canDrop = true
  · rw [if_pos hd]
    apply h.returned (by simp [ho]) rfl (h.ptr_eq_zero (by simp [ho, MayPublish]))
    · intro f p c hr
      have hd' := (h.read f p c hr).2.2.2.1
      rw [hd] at hd'
      cases hd'
    · rintro rfl
      exact h.returning flags (Or.inr ho)
  · rw [if_neg hd, ← ho]
    exact h

theorem store (h : s.Inv) (ho : s.owner = .store waker) :
    Inv { s with cell := some waker, owner := .publish waker } where
  addr _ := h.addr (by simp [ho])
  ptr hp := absurd (h.ptr_eq_zero (by simp [ho, MayPublish])) hp
  read _ _ _ hr := absurd hr (h.not_reading (by simp [ho, MayBeRead]))
  ready := nofun
  second := nofun
  returning := nofun
  stored _ hk := congrArg some (OwnerPc.publish.inj hk)
  set_completed := h.set_completed
  set_adding := h.set_adding
  pending := nofun

theorem publish (h : s.Inv) (ho : s.owner = .publish waker) : Inv { s with
    word := { s.word with canDrop := true, ptr := s.word.ptr ||| s.addr }
    owner :=
      if s.word.flags.meets s.target then .clear .second else .idle (.pending waker) } := by
  have hp : s.word.ptr ||| s.addr = s.addr := by
    rw [h.ptr_eq_zero (by simp [ho, MayPublish]), Nat.zero_or]
  have ha : s.addr ≠ 0 ∧ s.target.meets s.target = true := h.addr (by simp [ho])
  have hc : s.cell = some waker := h.stored waker ho
  have hn : ∀ f p c, s.notifier ≠ .read f p c := fun f p c =>
    h.not_reading (by simp [ho, MayBeRead])
  rw [hp]
  by_cases hm : s.word.flags.meets s.target = true
  · rw [if_pos hm]
    exact ⟨fun _ => ha, fun _ => ⟨rfl, rfl, by simp [hc], trivial⟩,
      fun f p c hr => absurd hr (hn f p c), nofun, fun _ => hm, nofun, nofun, h.set_completed,
      h.set_adding, nofun⟩
  · rw [if_neg hm]
    have hclear : ∀ f, s.target.has f = true → s.word.flags.has f ≠ true := fun f hT hw =>
      hm (Waiter.meets_iff.mpr ⟨f, hw, hT⟩)
    refine ⟨fun _ => ha, fun _ => ⟨rfl, rfl, by simp [hc], trivial⟩,
      fun f p c hr => absurd hr (hn f p c), nofun, nofun, nofun, nofun, h.set_completed,
      h.set_adding, ?_⟩
    intro k hk
    obtain rfl : waker = k := by simpa using hk
    refine Or.inr ⟨?_, Or.inl ⟨ha.1, hc, fun f hT hw => absurd hw (hclear f hT)⟩⟩
    intro f hf
    by_contra hT
    exact hclear f (by simpa using hT) (h.set_completed f hf)

theorem addFlag (h : s.Inv) (hn : s.notifier = .idle) (hp : s.word.ptr ≠ 0) : Inv { s with
    word := { s.word with flags := s.word.flags.addFlag flag }, notifier := .mask flag } where
  addr := h.addr
  ptr := h.ptr
  read := nofun
  ready := h.ready
  second hs := Waiter.meets_addFlag (h.second hs)
  returning := h.returning
  stored := h.stored
  set_completed f hf := Waiter.has_addFlag.mpr (Or.inr (h.set_completed f hf))
  set_adding f hf := by
    obtain rfl : flag = f := by simpa [adding] using hf
    exact Waiter.has_addFlag.mpr (Or.inl rfl)
  pending k hk := by
    rcases h.pending k hk with hw | ⟨hf, hr | hi⟩
    · exact Or.inl hw
    · exact Or.inr ⟨hf, Or.inl ⟨hp, hr.2.1, fun _ _ _ => ⟨flag, rfl⟩⟩⟩
    · simp [InHand, hn] at hi

/-- Without a pointer no pending waker waits for an idle or masking notifier. -/
theorem woken_of_ptr (h : s.Inv) (hp : s.word.ptr = 0)
    (hn : s.notifier = .idle ∨ ∃ f, s.notifier = .mask f) {k : ℕ}
    (hk : s.owner = .idle (.pending k)) : k ∈ s.woken := by
  rcases h.pending k hk with hw | ⟨-, hr | hi⟩
  · exact hw
  · exact absurd hp hr.1
  · rcases hn with hn | ⟨f, hn⟩ <;> simp [InHand, hn] at hi

theorem addFlag_unset (h : s.Inv) (hn : s.notifier = .idle) (hp : s.word.ptr = 0) : Inv
    ({ s with word := { s.word with flags := s.word.flags.addFlag flag } }.finished flag) where
  addr := h.addr
  ptr := h.ptr
  read := nofun
  ready := h.ready
  second hs := Waiter.meets_addFlag (h.second hs)
  returning := h.returning
  stored := h.stored
  set_completed f hf := by
    rcases List.mem_cons.mp hf with rfl | hf
    · exact Waiter.has_addFlag.mpr (Or.inl rfl)
    · exact Waiter.has_addFlag.mpr (Or.inr (h.set_completed f hf))
  set_adding := nofun
  pending k hk := Or.inl (h.woken_of_ptr hp (Or.inl hn) hk)

theorem set_flag (h : s.Inv) (hn : adding s.notifier = some flag) :
    ∀ f ∈ flag :: s.completed, s.word.flags.has f = true := by
  intro f hf
  rcases List.mem_cons.mp hf with rfl | hf
  · exact h.set_adding f hn
  · exact h.set_completed f hf

theorem mask (h : s.Inv) (hn : s.notifier = .mask flag) (hp : s.word.ptr ≠ 0) : Inv { s with
    word := { s.word with canDrop := false, ptr := 0 }
    notifier := .read flag s.word.ptr s.word.canDrop } where
  addr := h.addr
  ptr hp := absurd rfl hp
  read f p c hr := by
    obtain ⟨ha, -, hs, hm⟩ := h.ptr hp
    obtain ⟨rfl, rfl, rfl⟩ := NotifierPc.read.inj hr
    refine ⟨ha, hs, rfl, rfl, ?_⟩
    cases ho : s.owner with
    | idle last => cases last <;> simp_all [MayPublish, MayBeRead]
    | _ => simp_all [MayPublish, MayBeRead]
  ready := h.ready
  second := h.second
  returning := h.returning
  stored := h.stored
  set_completed := h.set_completed
  set_adding f hf := h.set_adding f (by rw [hn]; exact hf)
  pending k hk := by
    rcases h.pending k hk with hw | ⟨hf, hr | hi⟩
    · exact Or.inl hw
    · refine Or.inr ⟨hf, Or.inr (Or.inl ⟨flag, s.word.canDrop, ?_, hr.2.1⟩)⟩
      rw [(h.ptr hp).1]
    · simp [InHand, hn] at hi

theorem mask_unset (h : s.Inv) (hn : s.notifier = .mask flag) (hp : s.word.ptr = 0) : Inv { s with
    word := { s.word with canDrop := false, ptr := 0 }, notifier := .restore flag none } where
  addr := h.addr
  ptr hp := absurd rfl hp
  read := nofun
  ready := h.ready
  second := h.second
  returning := h.returning
  stored := h.stored
  set_completed := h.set_completed
  set_adding f hf := h.set_adding f (by rw [hn]; exact hf)
  pending k hk := Or.inl (h.woken_of_ptr hp (Or.inr ⟨flag, hn⟩) hk)

theorem mask_busy (h : s.Inv) (hn : s.notifier = .mask flag) (hp : s.word.ptr = 0) : Inv
    ({ s with word := { s.word with canDrop := false, ptr := 0 } }.finished flag) where
  addr := h.addr
  ptr hp := absurd rfl hp
  read := nofun
  ready := h.ready
  second := h.second
  returning := h.returning
  stored := h.stored
  set_completed := h.set_flag (by rw [hn]; rfl)
  set_adding := nofun
  pending k hk := Or.inl (h.woken_of_ptr hp (Or.inr ⟨flag, hn⟩) hk)

theorem read_step (h : s.Inv) {canDrop : Bool} (hn : s.notifier = .read flag s.addr canDrop)
    (hc : s.cell = some waker) : Inv { s with
      cell := none
      notifier := if canDrop then .restore flag (some waker) else .wake flag waker } where
  addr := h.addr
  ptr hp := absurd (h.read _ _ _ hn).2.2.1 hp
  read f p c hr := by
    dsimp only at hr
    split at hr <;> cases hr
  ready := h.ready
  second := h.second
  returning := h.returning
  stored k ho := by
    have hm := (h.read _ _ _ hn).2.2.2.2
    have ho' : s.owner = .publish k := ho
    simp [ho', MayBeRead] at hm
  set_completed := h.set_completed
  set_adding f hf := by
    apply h.set_adding f
    rw [hn]
    dsimp only at hf
    split at hf <;> exact hf
  pending k hk := by
    rcases h.pending k hk with hw | ⟨hf, hr | hi⟩
    · exact Or.inl hw
    · exact absurd (h.read _ _ _ hn).2.2.1 hr.1
    · obtain rfl : waker = k := by simpa [InHand, hn, hc] using hi
      refine Or.inr ⟨hf, Or.inr ?_⟩
      cases canDrop
      · exact Or.inr (Or.inr ⟨flag, rfl⟩)
      · exact Or.inr (Or.inl ⟨flag, rfl⟩)

theorem restore (h : s.Inv) (hn : s.notifier = .restore flag (some waker)) : Inv { s with
    word := { s.word with canDrop := true }, notifier := .wake flag waker } where
  addr := h.addr
  ptr hp :=
    have ⟨ha, _, hs, hm⟩ := h.ptr hp
    ⟨ha, rfl, hs, hm⟩
  read := nofun
  ready := h.ready
  second := h.second
  returning := h.returning
  stored := h.stored
  set_completed := h.set_completed
  set_adding f hf := h.set_adding f (by rw [hn]; exact hf)
  pending k hk := by
    rcases h.pending k hk with hw | ⟨hf, hr | hi⟩
    · exact Or.inl hw
    · refine Or.inr ⟨hf, Or.inl ⟨hr.1, hr.2.1, fun f hT hw => ?_⟩⟩
      obtain ⟨g, hg⟩ := hr.2.2 f hT hw
      rw [hn] at hg
      cases hg
    · obtain rfl : waker = k := by simpa [InHand, hn] using hi
      exact Or.inr ⟨hf, Or.inr (Or.inr (Or.inr ⟨flag, rfl⟩))⟩

/-- A notifier past its `fetch_and` that leaves a waker registered is not one of its target. -/
theorem registered_finished (h : s.Inv) {k : ℕ} (hn : adding s.notifier = some flag)
    (hm : ∀ g, s.notifier ≠ .mask g) (hf : ∀ f ∈ s.completed, s.target.has f = false)
    (hr : s.Registered k) :
    (∀ f ∈ flag :: s.completed, s.target.has f = false) ∧
      ∀ f, s.target.has f = true → s.word.flags.has f ≠ true := by
  have hclear : ∀ f, s.target.has f = true → s.word.flags.has f ≠ true := by
    intro f hT hw
    obtain ⟨g, hg⟩ := hr.2.2 f hT hw
    exact hm g hg
  constructor
  · intro f hfc
    rcases List.mem_cons.mp hfc with rfl | hfc
    · by_contra hT
      exact hclear f (by simpa using hT) (h.set_adding f hn)
    · exact hf f hfc
  · exact hclear

theorem restore_unset (h : s.Inv) (hn : s.notifier = .restore flag none) : Inv
    ({ s with word := { s.word with canDrop := true } }.finished flag) where
  addr := h.addr
  ptr hp :=
    have ⟨ha, _, hs, hm⟩ := h.ptr hp
    ⟨ha, rfl, hs, hm⟩
  read := nofun
  ready := h.ready
  second := h.second
  returning := h.returning
  stored := h.stored
  set_completed := h.set_flag (by rw [hn]; rfl)
  set_adding := nofun
  pending k hk := by
    rcases h.pending k hk with hw | ⟨hf, hr | hi⟩
    · exact Or.inl hw
    · obtain ⟨hf', hclear⟩ := h.registered_finished (by rw [hn]; rfl) (by simp [hn]) hf hr
      exact Or.inr ⟨hf', Or.inl ⟨hr.1, hr.2.1, fun f hT hw => absurd hw (hclear f hT)⟩⟩
    · simp [InHand, hn] at hi

theorem wake (h : s.Inv) (hn : s.notifier = .wake flag waker) : Inv
    ({ s with woken := waker :: s.woken }.finished flag) where
  addr := h.addr
  ptr := h.ptr
  read := nofun
  ready := h.ready
  second := h.second
  returning := h.returning
  stored := h.stored
  set_completed := h.set_flag (by rw [hn]; rfl)
  set_adding := nofun
  pending k hk := by
    rcases h.pending k hk with hw | ⟨hf, hr | hi⟩
    · exact Or.inl (List.mem_cons_of_mem _ hw)
    · obtain ⟨hf', hclear⟩ := h.registered_finished (by rw [hn]; rfl) (by simp [hn]) hf hr
      exact Or.inr ⟨hf', Or.inl ⟨hr.1, hr.2.1, fun f hT hw => absurd hw (hclear f hT)⟩⟩
    · obtain rfl : waker = k := by simpa [InHand, hn] using hi
      exact Or.inl (by simp [finished])

theorem step (h : s.Inv) (hs : Step s s') : s'.Inv := by
  cases hs with
  | create addr target ho ha hT => exact h.create ho ha hT
  | poll ho => exact h.enter ho (by simp)
  | drop ho => exact h.enter ho (by simp)
  | clear ho => exact h.clear ho
  | dropCell ho hc => exact h.dropCell ho
  | spin ho => exact h.spin ho
  | store ho => exact h.store ho
  | publish ho => exact h.publish ho
  | addFlag flag hn hp => exact h.addFlag hn hp
  | addFlag_unset flag hn hp => exact h.addFlag_unset hn hp
  | mask hn hp => exact h.mask hn hp
  | mask_unset hn hp hc => exact h.mask_unset hn hp
  | mask_busy hn hp hc => exact h.mask_busy hn hp
  | read hn ho hc => exact h.read_step hn hc
  | restore hn => exact h.restore hn
  | restore_unset hn => exact h.restore_unset hn
  | wake hn => exact h.wake hn

end Inv

theorem Reachable.inv {b : Bool} {s : WaiterState} (h : Reachable b s) : s.Inv := by
  induction h with
  | refl => exact inv_init b
  | tail _ hs ih => exact ih.step hs

/-- No wakeup is lost, and a poll is ready only with a flag of its target. -/
theorem no_lost_wakeup {b : Bool} {s : WaiterState} (h : Reachable b s) :
    (∀ k f, s.owner = .idle (.pending k) → f ∈ s.completed → s.target.has f = true →
      k ∈ s.woken) ∧
    ∀ flags, s.owner = .idle (.ready flags) → flags.meets s.target = true := by
  have hi := h.inv
  constructor
  · intro k f hk hf hT
    rcases hi.pending k hk with hw | ⟨hc, -⟩
    · exact hw
    · rw [hc f hf] at hT
      cases hT
  · exact hi.ready

/-- A future that was pending when `start` ran. -/
def started : WaiterState where
  word := ⟨⟨true, false⟩, true, 0⟩
  cell := none
  addr := 8
  target := ⟨true, false⟩
  owner := .idle (.pending 0)
  notifier := .idle
  nextWaker := 1
  woken := [0]
  dropped := []
  completed := [.hasLock]

theorem reachable_started : Reachable false started :=
  Relation.ReflTransGen.refl
    |>.tail (.create 8 ⟨true, false⟩ rfl (by decide) rfl)
    |>.tail (.poll rfl)
    |>.tail (.clear rfl)
    |>.tail (.store rfl)
    |>.tail (.publish rfl)
    |>.tail (.addFlag .hasLock rfl (by decide))
    |>.tail (.mask rfl (by decide))
    |>.tail (.read rfl (by decide) rfl)
    |>.tail (.restore rfl)
    |>.tail (.wake rfl)

theorem no_lost_wakeup_started :
    (∀ k f, started.owner = .idle (.pending k) → f ∈ started.completed →
      started.target.has f = true → k ∈ started.woken) ∧
    ∀ flags, started.owner = .idle (.ready flags) → flags.meets started.target = true :=
  no_lost_wakeup reachable_started

end PriorityLock.WaiterState
