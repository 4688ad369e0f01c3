import PriorityLock.Semaphore.Stalls

/-! # The shortcuts of a release

An entry that is dropped starts the walk behind it or starts none. A version
without these shortcuts walks from the head, and grants more where an entry
that waits asks for nothing or is passed over.
-/

namespace PriorityLock.Semaphore

open Placement Transition PriorityQueue

variable {B : Build} {Q P : Type} {e f : Queued B P}
  {a b c held pending l : List (Queued B P)} {available : Usize B}

section Walk

/-- The handles that a walk grants their permits, and what it leaves available. -/
def walk : Usize B → List (Queued B P) → List Handle × Usize B
  | available, [] => ([], available)
  | available, e :: rest =>
      if available < count e then
        if bypassed e then walk available rest else ([], available)
      else
        (e.handle :: (walk (available - count e) rest).1, (walk (available - count e) rest).2)

/-- The first entry that a walk does not pass over asks for more than is available. -/
def Stuck (available : Usize B) (l : List (Queued B P)) : Prop :=
  ∀ f ∈ l.find? fun f => decide (count f ≤ available) || !bypassed f, available < count f

theorem stuck_iff : Stuck available l ↔ (walk available l).1 = [] := by
  unfold Stuck
  induction l with
  | nil => simp [walk]
  | cons e l ih =>
    by_cases hlt : available < count e
    · have hnot : ¬count e ≤ available := BitVec.not_le.mpr hlt
      cases hby : bypassed e with
      | true => simpa [walk, hlt, hby, hnot] using ih
      | false => simp [walk, hlt, hby, hnot]
    · have hle : count e ≤ available := BitVec.not_lt.mp hlt
      simp [walk, hlt, hle]

theorem Stuck.idle (h : Stuck available l) : (walk available l).2 = available := by
  rw [stuck_iff] at h
  induction l with
  | nil => rfl
  | cons e l ih =>
    by_cases hlt : available < count e
    · cases hby : bypassed e with
      | true =>
        simp only [walk, hlt, hby, if_true] at h ⊢
        exact ih h
      | false => simp [walk, hlt, hby]
    · simp [walk, hlt] at h

theorem walk_subset {h : Handle} (hh : h ∈ (walk available l).1) : h ∈ handles l := by
  induction l generalizing available with
  | nil => simp [walk] at hh
  | cons e l ih =>
    rw [handles_cons]
    by_cases hlt : available < count e
    · cases hby : bypassed e with
      | true =>
        simp only [walk, hlt, hby, if_true] at hh
        exact List.mem_cons_of_mem _ (ih hh)
      | false => simp [walk, hlt, hby] at hh
    · simp only [walk, hlt, if_false, List.mem_cons] at hh
      rcases hh with rfl | hh
      · exact List.mem_cons_self
      · exact List.mem_cons_of_mem _ (ih hh)

theorem Activates.walk [Priority P] {skipped rest held' pending' : List (Queued B P)}
    {available' : Usize B}
    (h : Activates held skipped rest available held' pending' available') :
    (handles held').Perm ((walk available rest).1 ++ handles held) ∧
      available' = (walk available rest).2 := by
  induction h with
  | finish => exact ⟨.refl _, rfl⟩
  | stop hlt hby => simp [Semaphore.walk, hlt, hby]
  | skip hlt hby _ ih => simpa [Semaphore.walk, hlt, hby] using ih
  | @grant held held₁ skipped rest held' pending' e available _ hle hs _ ih =>
    have hnot : ¬available < count e := BitVec.not_lt.mpr hle
    have hh : (handles held₁).Perm (e.handle :: handles held) := hs.perm.map Entry.handle
    obtain ⟨hp, ha⟩ := ih
    simp only [Semaphore.walk, hnot, if_false]
    refine ⟨hp.trans ?_, ha⟩
    exact (hh.append_left _).trans List.perm_middle

end Walk

variable [PriorityQueue Q (SemaphoreWaiter B P)] {s s₁ s₂ : SemaphoreInner B Q}

section Definitions

/-- `SemaphorePermitWaiter::drop` without its shortcuts. -/
def dropWaiterRescan (s : SemaphoreInner B Q) (handle : Handle) :
    Option (SemaphoreInner B Q) := do
  let node ← getByHandle s.queue handle
  let available := if node.waiter.hasLock then s.available + node.count else s.available
  let (_, queue) ← dequeue s.queue handle
  activateWaiters { s with queue, available } (← headHandle queue)

/-- `SemaphorePermit::drop` with a walk from the head. -/
def dropPermitRescan (s : SemaphoreInner B Q) (handle : Handle) :
    Option (Except (Panic B) Unit × SemaphoreInner B Q) := do
  let node ← getByHandle s.queue handle
  let (_, queue) ← dequeue s.queue handle
  if B.semaphoreTotal then
    let s ← activateWaiters { s with queue, available := s.available + node.count }
      (← headHandle queue)
    return (.ok (), s)
  else
    match checkedAdd s.available node.count with
    | some available =>
      let s ← activateWaiters { s with queue, available } (← headHandle queue)
      return (.ok (), s)
    | none => return (.error (.overflow node.count s.available), { s with queue })

/-- The same is available, and the same entries have permits. -/
def SameGrants (s₁ s₂ : SemaphoreInner B Q) : Prop :=
  s₁.available = s₂.available ∧ ∃ l₁ l₂, entries s₁.queue = some l₁ ∧
    entries s₂.queue = some l₂ ∧
    ∀ h, h ∈ handles (l₁.filter hasLock) ↔ h ∈ handles (l₂.filter hasLock)

/-- An entry with a handle has its permits, is the first that waits while permits are available, or
is one of those that wait while the walk over the others is stuck. -/
def ShortcutSound (available : Usize B) (l : List (Queued B P)) (h : Handle) : Prop :=
  ∀ a e b, l = a ++ e :: b → e.handle = h →
    a = [] ∧ available ≠ 0 ∨ Stuck available (a ++ b)

def Leaves (s : SemaphoreInner B Q) (granted : List Handle) (available : Usize B) : Prop :=
  s.available = available ∧
    ∃ l, entries s.queue = some l ∧ (handles (l.filter hasLock)).Perm granted

theorem sameGrants_iff {g₁ g₂ : List Handle} {v₁ v₂ : Usize B} (h₁ : Leaves s₁ g₁ v₁)
    (h₂ : Leaves s₂ g₂ v₂) : SameGrants s₁ s₂ ↔ v₁ = v₂ ∧ ∀ h, h ∈ g₁ ↔ h ∈ g₂ := by
  obtain ⟨rfl, l₁, he₁, hp₁⟩ := h₁
  obtain ⟨rfl, l₂, he₂, hp₂⟩ := h₂
  unfold SameGrants
  rw [he₁, he₂]
  constructor
  · rintro ⟨ha, l₁', l₂', hl₁, hl₂, h⟩
    obtain rfl := Option.some.inj hl₁
    obtain rfl := Option.some.inj hl₂
    exact ⟨ha, fun x => hp₁.mem_iff.symm.trans ((h x).trans hp₂.mem_iff)⟩
  · rintro ⟨ha, h⟩
    exact ⟨ha, l₁, l₂, rfl, rfl, fun x => hp₁.mem_iff.trans ((h x).trans hp₂.mem_iff.symm)⟩

/-- Without a walk the same is left if and only if the walk would be stuck. -/
theorem sameGrants_iff_stuck (hd : List.Disjoint (handles held) (handles l))
    (h₁ : Leaves s₁ (handles held) available)
    (h₂ : Leaves s₂ ((walk available l).1 ++ handles held) (walk available l).2) :
    SameGrants s₁ s₂ ↔ Stuck available l := by
  rw [sameGrants_iff h₁ h₂]
  constructor
  · rintro ⟨-, h⟩
    refine stuck_iff.mpr (List.eq_nil_iff_forall_not_mem.mpr fun x hx => ?_)
    exact hd ((h x).mpr (List.mem_append_left _ hx)) (walk_subset hx)
  · intro h
    exact ⟨h.idle.symm, by simp [stuck_iff.mp h]⟩

end Definitions

variable [Priority P] [LawfulQueue Q (SemaphoreWaiter B P)]

section Releases

theorem leaves (hr : LawfulQueue.Rep s.queue (held ++ pending))
    (hl : ∀ e ∈ held, hasLock e = true) (hu : ∀ e ∈ pending, hasLock e = false) :
    Leaves s (handles held) s.available :=
  ⟨rfl, _, LawfulQueue.entries_eq hr, by rw [filter_hasLock hl hu]⟩

theorem activateWaiters_leaves (hr : LawfulQueue.Rep s.queue (a ++ (b ++ pending)))
    (hl : ∀ e ∈ a ++ b, hasLock e = true) (hu : ∀ e ∈ pending, hasLock e = false) :
    ∃ s', activateWaiters s ((b ++ pending).head?.map Entry.handle) = some s' ∧
      Leaves s' ((walk s.available pending).1 ++ handles (a ++ b))
        (walk s.available pending).2 := by
  have hb : ∀ e ∈ b, hasLock e = true := fun e he => hl e (List.mem_append_right a he)
  obtain ⟨s', held', pending', hact, -, hr', hw⟩ := activateWaiters_spec hr hb hu
  obtain ⟨hp, ha⟩ := hw.walk
  refine ⟨s', hact, ha, _, LawfulQueue.entries_eq hr', ?_⟩
  rwa [filter_hasLock (hw.locked hl) (hw.unlocked hu)]

theorem activateWaiters_leaves_all (hr : LawfulQueue.Rep s.queue (held ++ pending))
    (hl : ∀ e ∈ held, hasLock e = true) (hu : ∀ e ∈ pending, hasLock e = false) :
    ∃ s', activateWaiters s ((held ++ pending).head?.map Entry.handle) = some s' ∧
      Leaves s' ((walk s.available pending).1 ++ handles held) (walk s.available pending).2 :=
  activateWaiters_leaves (a := []) hr hl hu

theorem dropWaiterRescan_spec (hr : LawfulQueue.Rep s.queue (a ++ e :: c)) :
    ∃ q', LawfulQueue.Rep q' (a ++ c) ∧ dropWaiterRescan s e.handle =
      activateWaiters ⟨q', s.total, if hasLock e then s.available + count e else s.available⟩
        ((a ++ c).head?.map Entry.handle) := by
  have hg := LawfulQueue.getByHandle_spec hr (e := e) (by simp)
  obtain ⟨q', hq', hr'⟩ := LawfulQueue.dequeue_spec hr
  have hh := LawfulQueue.headHandle_spec hr'
  refine ⟨q', hr', ?_⟩
  cases he : e.data.waiter.hasLock <;> simp [dropWaiterRescan, hg, hq', hh, hasLock, count, he]

theorem dropPermitRescan_spec (hr : LawfulQueue.Rep s.queue (a ++ e :: c)) :
    ∃ q', LawfulQueue.Rep q' (a ++ c) ∧ dropPermitRescan s e.handle =
      if Fits B s.available (count e) then
        (activateWaiters ⟨q', s.total, s.available + count e⟩
          ((a ++ c).head?.map Entry.handle)).map fun s' => (.ok (), s')
      else some (.error (.overflow (count e) s.available), ⟨q', s.total, s.available⟩) := by
  have hg := LawfulQueue.getByHandle_spec hr (e := e) (by simp)
  obtain ⟨q', hq', hr'⟩ := LawfulQueue.dequeue_spec hr
  have hh := LawfulQueue.headHandle_spec hr'
  refine ⟨q', hr', ?_⟩
  by_cases hf : Fits B s.available (count e)
  · rw [if_pos hf]
    cases hB : B.semaphoreTotal with
    | true => simp [dropPermitRescan, hg, hq', hh, hB, count, Option.map_eq_bind]
    | false =>
      have hca : checkedAdd s.available e.data.count = some _ := hf.checkedAdd hB
      simp [dropPermitRescan, hg, hq', hh, hB, hca, count, Option.map_eq_bind]
  · rw [if_neg hf]
    obtain ⟨hB, hca⟩ := not_fits.mp hf
    have hca' : checkedAdd s.available e.data.count = none := hca
    simp [dropPermitRescan, hg, hq', hB, hca', count]

end Releases

section Comparison

variable {p : Pool B P} {q₁ q₂ : Q}

/-- A walk behind a holder and one from the head grant the same. -/
theorem activateWaiters_same (hr₁ : LawfulQueue.Rep q₁ (a ++ (b ++ pending)))
    (hr₂ : LawfulQueue.Rep q₂ (a ++ (b ++ pending))) (hl : ∀ e ∈ a ++ b, hasLock e = true)
    (hu : ∀ e ∈ pending, hasLock e = false) (total available : Usize B) : ∃ s₁ s₂,
    activateWaiters ⟨q₁, total, available⟩ ((b ++ pending).head?.map Entry.handle) = some s₁ ∧
      activateWaiters ⟨q₂, total, available⟩ ((a ++ (b ++ pending)).head?.map Entry.handle) =
        some s₂ ∧ SameGrants s₁ s₂ := by
  obtain ⟨s₁, ha₁, hg₁⟩ := activateWaiters_leaves (s := ⟨q₁, total, available⟩) hr₁ hl hu
  rw [← List.append_assoc] at hr₂ ⊢
  obtain ⟨s₂, ha₂, hg₂⟩ := activateWaiters_leaves_all (s := ⟨q₂, total, available⟩) hr₂ hl hu
  exact ⟨s₁, s₂, ha₁, ha₂, (sameGrants_iff hg₁ hg₂).mpr ⟨rfl, fun _ => Iff.rfl⟩⟩

theorem View.split_held (hv : View s p) (he : e ∈ p.held) : ∃ a b,
    LawfulQueue.Rep s.queue (a ++ e :: (b ++ p.pending)) ∧ ∀ d ∈ a ++ b, hasLock d = true := by
  obtain ⟨a, b, hab⟩ := List.append_of_mem he
  have hr := hv.rep
  have hl := hv.wf.locked
  rw [hab] at hr hl
  refine ⟨a, b, by simpa using hr, fun d hd => hl d ?_⟩
  exact (List.sublist_cons_self e b).append_left a |>.subset hd

theorem View.dropPermit_same (hv : View s p) (he : e ∈ p.held) : ∃ r s₁ s₂,
    Semaphore.dropPermit s e.handle = some (r, s₁) ∧
      dropPermitRescan s e.handle = some (r, s₂) ∧ SameGrants s₁ s₂ := by
  obtain ⟨a, b, hr, hl⟩ := hv.split_held he
  obtain ⟨q₁, hr₁, hd₁⟩ := dropPermit_spec hr
  obtain ⟨q₂, hr₂, hd₂⟩ := dropPermitRescan_spec hr
  by_cases hf : Fits B s.available (count e)
  · rw [if_pos hf] at hd₁ hd₂
    obtain ⟨s₁, s₂, ha₁, ha₂, hsame⟩ :=
      activateWaiters_same hr₁ hr₂ hl hv.wf.unlocked s.total (s.available + count e)
    exact ⟨.ok (), s₁, s₂, by rw [hd₁, ha₁]; rfl, by rw [hd₂, ha₂]; rfl, hsame⟩
  · rw [if_neg hf] at hd₁ hd₂
    rw [← List.append_assoc] at hr₁ hr₂
    have hg₁ := leaves (s := ⟨q₁, s.total, s.available⟩) hr₁ hl hv.wf.unlocked
    have hg₂ := leaves (s := ⟨q₂, s.total, s.available⟩) hr₂ hl hv.wf.unlocked
    exact ⟨_, _, _, hd₁, hd₂, (sameGrants_iff hg₁ hg₂).mpr ⟨rfl, fun _ => Iff.rfl⟩⟩

theorem View.dropWaiter_same (hv : View s p) (he : e ∈ p.held) : ∃ s₁ s₂,
    Semaphore.dropWaiter s e.handle = some s₁ ∧ dropWaiterRescan s e.handle = some s₂ ∧
      SameGrants s₁ s₂ := by
  obtain ⟨a, b, hr, hl⟩ := hv.split_held he
  have hlock := hv.wf.locked e he
  obtain ⟨q₁, hr₁, hd₁⟩ := dropWaiter_held hr hlock
  obtain ⟨q₂, hr₂, hd₂⟩ := dropWaiterRescan_spec hr
  rw [if_pos hlock] at hd₂
  obtain ⟨s₁, s₂, ha₁, ha₂, hsame⟩ :=
    activateWaiters_same hr₁ hr₂ hl hv.wf.unlocked s.total (s.available + count e)
  exact ⟨s₁, s₂, hd₁.trans ha₁, hd₂.trans ha₂, hsame⟩

/-- The shortcut of an entry that waits is sound where a walk from the head is stuck, or where it
starts that walk. -/
theorem View.dropWaiter_same_iff (hv : View s p) (hp : p.pending = a ++ e :: b) : ∃ s₁ s₂,
    Semaphore.dropWaiter s e.handle = some s₁ ∧ dropWaiterRescan s e.handle = some s₂ ∧
      (SameGrants s₁ s₂ ↔ a = [] ∧ s.available ≠ 0 ∨ Stuck s.available (a ++ b)) := by
  have hr := hv.rep
  have hu := hv.wf.unlocked
  have hdisj := hv.wf.disjoint
  rw [hp] at hr hu hdisj
  have hlock : hasLock e = false := hu e (by simp)
  have hab : ∀ d ∈ a ++ b, hasLock d = false :=
    fun d hd => hu d ((List.sublist_cons_self e b).append_left a |>.subset hd)
  rw [← List.append_assoc] at hr
  obtain ⟨q₂, hr₂, hd₂⟩ := dropWaiterRescan_spec hr
  rw [if_neg (by simp [hlock])] at hd₂
  by_cases hidle : a ≠ [] ∨ s.available = 0
  · have ha : ∀ d ∈ a, hasLock d = false := fun d hd => hu d (by simp [hd])
    obtain ⟨q₁, hr₁, hd₁⟩ := dropWaiter_idle hr ha hlock hidle
    rw [List.append_assoc] at hr₁ hr₂ hd₂
    obtain ⟨s₂, ha₂, hg₂⟩ := activateWaiters_leaves_all (s := ⟨q₂, s.total, s.available⟩) hr₂
      hv.wf.locked hab
    have hg₁ := leaves (s := ⟨q₁, s.total, s.available⟩) hr₁ hv.wf.locked hab
    have hsub : handles (a ++ b) ⊆ handles (a ++ e :: b) :=
      List.map_subset _ ((List.sublist_cons_self e b).append_left a).subset
    have hdisj' : List.Disjoint (handles p.held) (handles (a ++ b)) :=
      fun _ hx hx' => hdisj hx (hsub hx')
    refine ⟨_, s₂, hd₁, hd₂.trans ha₂, ?_⟩
    rw [sameGrants_iff_stuck hdisj' hg₁ hg₂]
    constructor
    · exact Or.inr
    · rintro (⟨rfl, hne⟩ | hstuck)
      · exact absurd hidle (by simpa using hne)
      · exact hstuck
  · obtain ⟨rfl, hne⟩ : a = [] ∧ s.available ≠ 0 := by simpa using hidle
    rw [List.append_nil] at hr hr₂ hd₂
    obtain ⟨q₁, hr₁, hd₁⟩ := dropWaiter_first hr hv.wf.locked hlock hne
    obtain ⟨s₁, s₂, ha₁, ha₂, hsame⟩ := activateWaiters_same (b := []) hr₁ hr₂
      (by simpa using hv.wf.locked) hab s.total s.available
    exact ⟨s₁, s₂, hd₁.trans ha₁, hd₂.trans ha₂, iff_of_true hsame (Or.inl ⟨rfl, hne⟩)⟩

theorem View.shortcut_iff (hv : View s p) {h : Handle} (hh : h ∈ p.arrivals) : ∃ s₁ s₂,
    Semaphore.dropWaiter s h = some s₁ ∧ dropWaiterRescan s h = some s₂ ∧
      (SameGrants s₁ s₂ ↔ ShortcutSound s.available p.pending h) := by
  obtain ⟨e, he, rfl⟩ := List.mem_map.mp (hv.wf.perm.mem_iff.mpr hh)
  rcases List.mem_append.mp he with he | he
  · obtain ⟨s₁, s₂, hd₁, hd₂, hsame⟩ := hv.dropWaiter_same he
    refine ⟨s₁, s₂, hd₁, hd₂, iff_of_true hsame ?_⟩
    rintro a f b hp hf
    have hwait : f ∈ p.pending := by simp [hp]
    exact absurd (mem_handles hwait) fun hm => hv.wf.disjoint (mem_handles he) (hf ▸ hm)
  · obtain ⟨a, b, hp⟩ := List.append_of_mem he
    obtain ⟨s₁, s₂, hd₁, hd₂, hiff⟩ := hv.dropWaiter_same_iff hp
    refine ⟨s₁, s₂, hd₁, hd₂, hiff.trans ?_⟩
    constructor
    · rintro h a' f b' hp' hf
      have hn := hv.wf.nodup_handles
      have hf' : f ∈ p.pending := by simp [hp']
      obtain rfl := List.inj_on_of_nodup_map hn (List.mem_append_right _ hf')
        (List.mem_append_right _ he) hf
      have hnot := (hn.of_map Entry.handle).of_append_right
      rw [hp, List.nodup_middle, List.nodup_cons, List.mem_append, not_or] at hnot
      obtain ⟨⟨ha, hb⟩, -⟩ := hnot
      obtain ⟨rfl, -, rfl⟩ := (List.append_cons_inj_of_notMem ha hb).mp (hp.symm.trans hp')
      exact h
    · exact fun h => h a e b hp rfl

end Comparison

/-- After every run a drop of a permit grants what the walk from the head does. That of a future
does so if and only if its entry has permits, or is the first that waits while some are available,
or the first of the others that the walk does not pass over asks for more than is available. -/
theorem release_shortcuts_iff (k : QueueKind) {B : Build} {P : Type} [Priority P]
    (capacity : Usize B) (ops : List (Op B P)) :
    ∃ (s : System B (k.Queue (SemaphoreWaiter B P))) (l : List (Queued B P)),
      run (after call) (System.start (new capacity)) ops = some s ∧
      entries s.inner.queue = some l ∧ ∀ o ∈ s.owned,
        (o.data = .permit → ∃ r s₁ s₂, dropPermit s.inner o.handle = some (r, s₁) ∧
          dropPermitRescan s.inner o.handle = some (r, s₂) ∧ SameGrants s₁ s₂) ∧
        (o.data ≠ .permit → ∃ s₁ s₂, dropWaiter s.inner o.handle = some s₁ ∧
          dropWaiterRescan s.inner o.handle = some s₂ ∧
          (SameGrants s₁ s₂ ↔ ShortcutSound s.inner.available (waiting l) o.handle)) := by
  obtain ⟨s, p, hr, hs⟩ := run_holds (Q := k.Queue (SemaphoreWaiter B P)) capacity ops
  refine ⟨s, _, hr, hs.entries_eq, fun o ho => ⟨fun hd => ?_, fun _ => ?_⟩⟩
  · obtain ⟨e, he, heo⟩ := List.mem_map.mp (hs.permits o ho hd)
    rw [← heo]
    exact hs.view.dropPermit_same he
  · rw [hs.waiting]
    exact hs.view.shortcut_iff (hs.arrivals ▸ mem_handles ho)

/-- A waiter that asks for nothing sleeps after the first waiter has left, and one for two of four
permits after the entry between it and a flagged one has left. -/
theorem release_shortcuts_differ :
    (∃ (s : System Build.plain (QueueKind.dualArena.Queue (SemaphoreWaiter Build.plain ℕ)))
        (s₁ s₂ : SemaphoreInner Build.plain _),
        run (after call) (System.start (new 0)) [.acquireMany 1 1, .acquireMany 0 0] = some s ∧
        ⟨0, .future⟩ ∈ s.owned ∧ dropWaiter s.inner 0 = some s₁ ∧
        dropWaiterRescan s.inner 0 = some s₂ ∧ ¬SameGrants s₁ s₂) ∧
      ∃ (s : System Build.full (QueueKind.dualArena.Queue (SemaphoreWaiter Build.full ℕ)))
        (s₁ s₂ : SemaphoreInner Build.full _),
        run (after call) (System.start (new 5)) [.acquireMany 0 1, .acquireMany 0 4,
          .acquireWithinTotal 10 5, .acquireMany 9 5, .acquireMany 8 2, .forget 0, .drop 48] =
          some s ∧
        ⟨144, .future⟩ ∈ s.owned ∧ dropWaiter s.inner 144 = some s₁ ∧
        dropWaiterRescan s.inner 144 = some s₂ ∧ ¬SameGrants s₁ s₂ := by
  constructor
  · refine ⟨_, _, _, rfl, .head _, rfl, rfl, ?_⟩
    rintro ⟨-, l₁, l₂, h₁, h₂, h⟩
    obtain rfl := Option.some.inj h₁
    obtain rfl := Option.some.inj h₂
    exact absurd ((h 48).mpr (.head _)) (by decide)
  · refine ⟨_, _, _, rfl, .tail _ (.head _), rfl, rfl, ?_⟩
    rintro ⟨ha, -⟩
    exact absurd ha (by decide)

end PriorityLock.Semaphore
