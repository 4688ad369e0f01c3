import PriorityLock.Semaphore.Loops

/-! # The functions of the semaphore move a pool

Each function on the inner state is defined over a lawful queue and acts on it
as a move of the pool that it holds.
-/

namespace PriorityLock.Semaphore

open Placement PriorityQueue

variable {B : Build} {Q P : Type} [Priority P] [PriorityQueue Q (SemaphoreWaiter B P)]
  [LawfulQueue Q (SemaphoreWaiter B P)] {q : Q} {s : SemaphoreInner B Q} {e : Queued B P}
  {a b c held pending rest skipped : List (Queued B P)}

/-- The inner state holds a pool. -/
structure View (s : SemaphoreInner B Q) (p : Pool B P) : Prop where
  rep : LawfulQueue.Rep s.queue (p.held ++ p.pending)
  total : s.total = p.total
  available : s.available = p.available
  wf : p.WF
  conserved : B.semaphoreTotal = true → p.Conserved

section Functions

variable {op : Op B P} {r : Result B} {p p' : Pool B P} {h : Handle}

theorem View.moves {s' : SemaphoreInner B Q} (hv : View s p) (hm : Moves op r p p')
    (hr : LawfulQueue.Rep s'.queue (p'.held ++ p'.pending)) (ht : s'.total = p'.total)
    (ha : s'.available = p'.available) : View s' p' :=
  ⟨hr, ht, ha, hm.wf hv.wf, fun hB => hm.conserved hB hv.wf (hv.conserved hB)⟩

theorem View.not_mem (hv : View s p) (hh : h ∉ handles (p.held ++ p.pending)) : h ∉ p.arrivals :=
  fun ha => hh (hv.wf.perm.mem_iff.mpr ha)

theorem blocks_of_not_served {priority : P} {n available : Usize B}
    (hb : ¬(n ≤ available ∧
      ∀ f ∈ pending.find? blocks, (Priority.compare priority f.data.priority).isGE))
    (hle : n ≤ available) : ∃ f, pending.find? blocks = some f ∧
      Priority.compare priority f.data.priority = .lt := by
  by_contra hne
  apply hb
  refine ⟨hle, fun f hf => ?_⟩
  rw [Ordering.isGE_iff_ne_lt]
  intro hlt
  exact hne ⟨f, hf, hlt⟩

theorem View.acquire {priority : P} {n word : Usize B} (hv : View s p)
    (hreq : Requests op priority n word) : ∃ h acquired s' p',
    doAcquire s priority word = some ((h, acquired), s') ∧ View s' p' ∧
      p'.arrivals = p.arrivals ++ [h] ∧ (acquired = true → h ∈ handles p'.held) ∧
      Moves op (if acquired then .permit h else .pending h) p p' := by
  have hnot := fun h => hv.not_mem (h := h)
  obtain ⟨held, pending, total, available, arrivals⟩ := p
  obtain ⟨hr, rfl, rfl, hwf, hc⟩ := id hv
  by_cases hb : n ≤ s.available ∧
      ∀ f ∈ pending.find? blocks, (Priority.compare priority f.data.priority).isGE
  · obtain ⟨h, q', held', hq, hr', hh, hp⟩ := doAcquire_granted priority word hr
      hwf.locked hwf.unlocked (hreq.masked ▸ hb.1) hb.2
    rw [hreq.masked] at hq
    have hm : Moves op (.permit h) ⟨held, pending, s.total, s.available, arrivals⟩
        ⟨held', pending, s.total, s.available - n, arrivals ++ [h]⟩ :=
      .acquire hreq (hnot h hh) hb.1 hb.2 hp
    refine ⟨h, true, _, _, hq, hv.moves hm hr' rfl rfl, rfl, fun _ => ?_, hm⟩
    exact mem_handles (hp.perm.mem_iff.mpr List.mem_cons_self)
  · have hb' := blocks_of_not_served hb
    obtain ⟨h, q', pending', hq, hr', hh, hp⟩ := doAcquire_queued priority word hr
      hwf.locked hwf.unlocked (hreq.masked ▸ hb')
    have hm : Moves op (.pending h) ⟨held, pending, s.total, s.available, arrivals⟩
        ⟨flagWhere (outranked priority) held, pending', s.total, s.available, arrivals ++ [h]⟩ :=
      .enqueue hreq (hnot h hh) hb' hp
    exact ⟨h, false, _, _, hq, hv.moves hm hr' rfl rfl, rfl, by simp, hm⟩

theorem activateWaiters_none (hr : LawfulQueue.Rep s.queue a) :
    activateWaiters s none = some s := by
  have hi : iter s.queue = some _ := LawfulQueue.iterAt_none hr
  rw [activateWaiters, hi]
  change activateLoop (List.length _) s none = some s
  cases (a.map Entry.handle).length <;> rfl

theorem dropWaiter_held (hr : LawfulQueue.Rep s.queue (a ++ e :: c)) (he : hasLock e = true) :
    ∃ q', LawfulQueue.Rep q' (a ++ c) ∧ dropWaiter s e.handle =
      activateWaiters ⟨q', s.total, s.available + count e⟩ (c.head?.map Entry.handle) := by
  have hg := LawfulQueue.getByHandle_spec hr (e := e) (by simp)
  obtain ⟨q', hq', hr'⟩ := LawfulQueue.dequeue_spec hr
  have he' : e.data.waiter.hasLock = true := he
  refine ⟨q', hr', ?_⟩
  cases c with
  | nil =>
    have hnone := activateWaiters_none (s := ⟨q', s.total, s.available + count e⟩) hr'
    simpa [dropWaiter, hg, hq', he', count] using hnone.symm
  | cons f c => simp [dropWaiter, hg, hq', he', count]

/-- Dropping a first pending entry starts the walk behind it when permits are left. -/
theorem dropWaiter_first (hr : LawfulQueue.Rep s.queue (held ++ e :: c))
    (hl : ∀ e ∈ held, hasLock e = true) (he : hasLock e = false) (hpos : s.available ≠ 0) :
    ∃ q', LawfulQueue.Rep q' (held ++ c) ∧ dropWaiter s e.handle =
      activateWaiters ⟨q', s.total, s.available⟩ (c.head?.map Entry.handle) := by
  have hg := LawfulQueue.getByHandle_spec hr (e := e) (by simp)
  obtain ⟨q', hq', hr'⟩ := LawfulQueue.dequeue_spec hr
  have he' : e.data.waiter.hasLock = false := he
  have hpos' : s.available ≠ 0#B.bits := hpos
  have hprev : (held.getLast?.map Entry.data).all (fun x => x.waiter.hasLock) = true := by
    cases hlast : held.getLast? with
    | none => rfl
    | some f => exact hl f (List.mem_of_getLast? hlast)
  refine ⟨q', hr', ?_⟩
  cases c with
  | nil =>
    have hnone := activateWaiters_none (s := ⟨q', s.total, s.available⟩) hr'
    simpa [dropWaiter, hg, hq', he'] using hnone.symm
  | cons f c => simp [dropWaiter, hg, hq', he', hpos', hprev]

theorem dropWaiter_idle (hr : LawfulQueue.Rep s.queue ((held ++ a) ++ e :: c))
    (ha : ∀ e ∈ a, hasLock e = false) (he : hasLock e = false)
    (hidle : a ≠ [] ∨ s.available = 0) : ∃ q', LawfulQueue.Rep q' ((held ++ a) ++ c) ∧
      dropWaiter s e.handle = some ⟨q', s.total, s.available⟩ := by
  have hg := LawfulQueue.getByHandle_spec hr (e := e) (by simp)
  obtain ⟨q', hq', hr'⟩ := LawfulQueue.dequeue_spec hr
  have he' : e.data.waiter.hasLock = false := he
  refine ⟨q', hr', ?_⟩
  rcases hidle with hne | hzero
  · rcases List.eq_nil_or_concat' a with rfl | ⟨a, f, rfl⟩
    · exact absurd rfl hne
    · have hf : f.data.waiter.hasLock = false := ha f (by simp)
      cases c <;> simp [dropWaiter, hg, hq', he', hf]
  · cases c <;> simp [dropWaiter, hg, hq', he', hzero]

theorem View.dropWaiter (hv : View s p) (hh : h ∈ p.arrivals) (hop : op.drops = some h)
    (r : Result B) : ∃ s' p', dropWaiter s h = some s' ∧ View s' p' ∧
      p'.arrivals = p.arrivals.filter (· ≠ h) ∧ Moves op r p p' := by
  obtain ⟨e, he, rfl⟩ := List.mem_map.mp (hv.wf.perm.mem_iff.mpr hh)
  obtain ⟨held, pending, total, available, arrivals⟩ := p
  obtain ⟨hr, rfl, rfl, hwf, hc⟩ := id hv
  rcases List.mem_append.mp he with he | he
  · have hlock := hwf.locked e he
    obtain ⟨a, b, rfl⟩ := List.append_of_mem he
    obtain ⟨q', hr', hd⟩ := dropWaiter_held (c := b ++ pending) (by simpa using hr) hlock
    have hb : ∀ d ∈ b, hasLock d = true := fun d hd => hwf.locked d (by simp [hd])
    obtain ⟨s', held', pending', hact, ht, hr'', ha⟩ :=
      activateWaiters_spec (s := ⟨q', s.total, s.available + count e⟩) hr' hb hwf.unlocked
    have hm : Moves op r ⟨a ++ e :: b, pending, s.total, s.available, arrivals⟩
        ⟨held', pending', s.total, s'.available, arrivals.filter (· ≠ e.handle)⟩ := .release hop ha
    exact ⟨s', _, hd.trans hact, hv.moves hm hr'' ht rfl, rfl, hm⟩
  · have hlock := hwf.unlocked e he
    obtain ⟨a, b, rfl⟩ := List.append_of_mem he
    by_cases hidle : a ≠ [] ∨ s.available = 0
    · have hr₀ : LawfulQueue.Rep s.queue ((held ++ a) ++ e :: b) := by simpa using hr
      obtain ⟨q', hr', hd⟩ :=
        dropWaiter_idle hr₀ (fun d hd => hwf.unlocked d (by simp [hd])) hlock hidle
      have hm : Moves op r ⟨held, a ++ e :: b, s.total, s.available, arrivals⟩
          ⟨held, a ++ b, s.total, s.available, arrivals.filter (· ≠ e.handle)⟩ := .leave hop hidle
      exact ⟨_, _, hd, hv.moves hm (by simpa using hr') rfl rfl, rfl, hm⟩
    · obtain ⟨rfl, hpos⟩ : a = [] ∧ s.available ≠ 0 := by simpa using hidle
      obtain ⟨q', hr', hd⟩ := dropWaiter_first hr hwf.locked hlock hpos
      have hb : ∀ d ∈ b, hasLock d = false := fun d hd => hwf.unlocked d (by simp [hd])
      obtain ⟨s', held', pending', hact, ht, hr'', ha⟩ :=
        activateWaiters_spec (s := ⟨q', s.total, s.available⟩) (b := []) hr' (by simp) hb
      rw [List.append_nil] at ha
      have hm : Moves op r ⟨held, e :: b, s.total, s.available, arrivals⟩
          ⟨held', pending', s.total, s'.available, arrivals.filter (· ≠ e.handle)⟩ :=
        .unblock hop ha
      exact ⟨s', _, hd.trans hact, hv.moves hm hr'' ht rfl, rfl, hm⟩

/-- A permit's count can be given back. -/
def Fits (B : Build) (available n : Usize B) : Prop :=
  B.semaphoreTotal = true ∨ available.toNat + n.toNat < 2 ^ B.bits

instance (available n : Usize B) : Decidable (Fits B available n) :=
  inferInstanceAs (Decidable (_ ∨ _))

theorem Fits.checkedAdd {available n : Usize B} (h : Fits B available n)
    (hB : B.semaphoreTotal = false) : checkedAdd available n = some (available + n) :=
  checkedAdd_eq_some.mpr ⟨h.resolve_left (by simp [hB]), rfl⟩

theorem not_fits {available n : Usize B} :
    ¬Fits B available n ↔ B.semaphoreTotal = false ∧ checkedAdd available n = none := by
  rw [checkedAdd_eq_none, Fits, not_or, Bool.not_eq_true, Nat.not_lt]

/-- Dropping a permit gives its count back and starts the walk behind it, or panics. -/
theorem dropPermit_spec (hr : LawfulQueue.Rep s.queue (a ++ e :: c)) :
    ∃ q', LawfulQueue.Rep q' (a ++ c) ∧ dropPermit s e.handle =
      if Fits B s.available (count e) then
        (activateWaiters ⟨q', s.total, s.available + count e⟩ (c.head?.map Entry.handle)).map
          fun s' => (.ok (), s')
      else some (.error (.overflow (count e) s.available), ⟨q', s.total, s.available⟩) := by
  have hg := LawfulQueue.getByHandle_spec hr (e := e) (by simp)
  obtain ⟨q', hq', hr'⟩ := LawfulQueue.dequeue_spec hr
  refine ⟨q', hr', ?_⟩
  by_cases hf : Fits B s.available (count e)
  · rw [if_pos hf]
    cases hB : B.semaphoreTotal with
    | true => simp [dropPermit, hg, hq', hB, count, Option.map_eq_bind]
    | false =>
      have hca : checkedAdd s.available e.data.count = some _ := hf.checkedAdd hB
      simp [dropPermit, hg, hq', hB, hca, count, Option.map_eq_bind]
  · rw [if_neg hf]
    obtain ⟨hB, hca⟩ := not_fits.mp hf
    have hca' : checkedAdd s.available e.data.count = none := hca
    simp [dropPermit, hg, hq', hB, hca', count]

theorem View.dropPermit (hv : View s p) (hh : h ∈ handles p.held) (hop : op.drops = some h) :
    ∃ r s' p', dropPermit s h = some (r, s') ∧ View s' p' ∧
      p'.arrivals = p.arrivals.filter (· ≠ h) ∧ ∀ result, Moves op
        (match r with | .ok () => result | .error panic => .panicked panic) p p' := by
  obtain ⟨e, he, rfl⟩ := List.mem_map.mp hh
  obtain ⟨held, pending, total, available, arrivals⟩ := p
  obtain ⟨hr, rfl, rfl, hwf, hc⟩ := id hv
  obtain ⟨a, b, rfl⟩ := List.append_of_mem he
  obtain ⟨q', hr', hd⟩ := dropPermit_spec (c := b ++ pending) (by simpa using hr)
  by_cases hfits : Fits B s.available (count e)
  · rw [if_pos hfits] at hd
    have hb : ∀ d ∈ b, hasLock d = true := fun d hd => hwf.locked d (by simp [hd])
    obtain ⟨s', held', pending', hact, ht, hr'', ha⟩ :=
      activateWaiters_spec (s := ⟨q', s.total, s.available + count e⟩) hr' hb hwf.unlocked
    have hm : ∀ result, Moves op result ⟨a ++ e :: b, pending, s.total, s.available, arrivals⟩
        ⟨held', pending', s.total, s'.available, arrivals.filter (· ≠ e.handle)⟩ :=
      fun _ => .release hop ha
    exact ⟨.ok (), s', _, by rw [hd, hact]; rfl, hv.moves (hm .unit) hr'' ht rfl, rfl, hm⟩
  · rw [if_neg hfits] at hd
    obtain ⟨hB, hca⟩ := not_fits.mp hfits
    have hm : Moves op (.panicked (.overflow (count e) s.available))
        ⟨a ++ e :: b, pending, s.total, s.available, arrivals⟩
        ⟨a ++ b, pending, s.total, s.available, arrivals.filter (· ≠ e.handle)⟩ :=
      .discard hop hB hca
    exact ⟨_, _, _, hd, hv.moves hm (by simpa using hr') rfl rfl, rfl, fun _ => hm⟩

theorem notifyOversizedWaiters_spec (hr : LawfulQueue.Rep s.queue (a ++ c))
    {start : Option Handle} (hs : iterAt s.queue start = some (handles c)) : ∃ q',
    notifyOversizedWaiters s start = some ⟨q', s.total, s.available⟩ ∧
      LawfulQueue.Rep q' (a ++ flagWhere (oversized s.total) c) := by
  have hr₁ : LawfulQueue.Rep s.queue (a ++ (c ++ [])) := by simpa using hr
  obtain ⟨q', hq', hr'⟩ := evictWhere_spec (oversized s.total) hr₁
  refine ⟨q', ?_, by simpa using hr'⟩
  unfold oversized at hq'
  simp [notifyOversizedWaiters, hs, hq']

theorem checkedSub_of_le {m n : Usize B} (h : n ≤ m) : checkedSub m n = some (m - n) := if_pos h

theorem View.forget (hv : View s p) (hh : h ∈ handles p.held) : ∃ s' p',
    forget s h = some s' ∧ View s' p' ∧ p'.arrivals = p.arrivals.filter (· ≠ h) ∧
      Moves (.forget h) .unit p p' := by
  obtain ⟨e, he, rfl⟩ := List.mem_map.mp hh
  obtain ⟨held, pending, total, available, arrivals⟩ := p
  obtain ⟨hr, rfl, rfl, hwf, hc⟩ := id hv
  obtain ⟨a, b, rfl⟩ := List.append_of_mem he
  have hr₁ : LawfulQueue.Rep s.queue (a ++ e :: (b ++ pending)) := by simpa using hr
  have hg := LawfulQueue.getByHandle_spec hr₁ (e := e) (by simp)
  obtain ⟨q₁, hq₁, hr₁⟩ := LawfulQueue.dequeue_spec hr₁
  cases hB : B.semaphoreTotal with
  | false =>
    have hm : Moves (.forget e.handle) .unit
        ⟨a ++ e :: b, pending, s.total, s.available, arrivals⟩
        ⟨a ++ b, pending, s.total, s.available, arrivals.filter (· ≠ e.handle)⟩ := .forget hB
    refine ⟨⟨q₁, s.total, s.available⟩, _, ?_, hv.moves hm (by simpa using hr₁) rfl rfl, rfl, hm⟩
    simp [Semaphore.forget, hg, hq₁, hB]
  | true =>
    have hle : count e ≤ s.total := (hc hB).count_le he
    have hsub : checkedSub s.total e.data.count = some (s.total - e.data.count) :=
      checkedSub_of_le hle
    have hm : Moves (.forget e.handle) .unit
        ⟨a ++ e :: b, pending, s.total, s.available, arrivals⟩
        ⟨a ++ flagWhere (oversized (s.total - count e)) b,
          flagWhere (oversized (s.total - count e)) pending, s.total - count e, s.available,
          arrivals.filter (· ≠ e.handle)⟩ := .forgetTotal hB hle
    cases hbp : b ++ pending with
    | nil =>
      obtain ⟨rfl, rfl⟩ := List.append_eq_nil_iff.mp hbp
      refine ⟨⟨q₁, s.total - e.data.count, s.available⟩, _, ?_,
        hv.moves hm (by simpa using hr₁) rfl rfl, rfl, hm⟩
      simp [Semaphore.forget, hg, hq₁, hB, hsub]
    | cons f c =>
      rw [hbp] at hr₁ hq₁
      obtain ⟨q', hq', hr'⟩ := notifyOversizedWaiters_spec
        (s := ⟨q₁, s.total - e.data.count, s.available⟩) hr₁ (LawfulQueue.iterAt_some hr₁)
      rw [← hbp, flagWhere_append] at hr'
      refine ⟨⟨q', s.total - e.data.count, s.available⟩, _, ?_,
        hv.moves hm (by simpa [count] using hr') rfl rfl, rfl, hm⟩
      simp [Semaphore.forget, hg, hq₁, hB, hsub, hq']

theorem splitOff_spec (priority : P → P) (n : Usize B)
    (hr : LawfulQueue.Rep s.queue (a ++ e :: c)) :
    if n < count e then ∃ h q' l', splitOff priority s e.handle n =
        some (.ok h, ⟨q', s.total, s.available⟩) ∧ LawfulQueue.Rep q' l' ∧
        h ∉ handles (a ++ e :: c) ∧
        Placed Priority.compareNew ⟨h, priority e.data.priority, .new true, n⟩
          (a ++ recount e (e.data.rawCount - n) :: c) l'
    else ∃ q', splitOff priority s e.handle n =
        some (.error ⟨count e, n⟩, ⟨q', s.total, s.available⟩) ∧
        LawfulQueue.Rep q' (a ++ e :: c) := by
  have hg := LawfulQueue.getByHandle_spec hr (e := e) (by simp)
  obtain ⟨q₁, hq₁, hr₁⟩ := LawfulQueue.updateNode_stay (fun node : SemaphoreWaiter B P =>
    (if n < node.count then { node with rawCount := node.rawCount - n } else node, false)) hr rfl
  by_cases hlt : n < count e
  · have hlt' : n < e.data.count := hlt
    simp only [hlt', if_true] at hr₁
    have hr₂ : LawfulQueue.Rep q₁ (a ++ recount e (e.data.rawCount - n) :: c) := hr₁
    obtain ⟨h, q', l', hq', hr', hh, hplace⟩ :=
      LawfulQueue.enqueue_spec ⟨priority e.data.priority, .new true, n⟩ hr₂
    have hh' : h ∉ handles (a ++ recount e (e.data.rawCount - n) :: c) := hh
    rw [if_pos hlt]
    exact ⟨h, q', l', by simp [splitOff, hg, hq₁, hlt', hq'], hr', by simpa using hh', hplace⟩
  · have hlt' : ¬n < e.data.count := hlt
    simp only [hlt', if_false] at hr₁
    rw [if_neg hlt]
    exact ⟨q₁, by simp [splitOff, hg, hq₁, hlt', count], hr₁⟩

theorem View.splitOff {priority : P → P} {n : Usize B} (hv : View s p)
    (hh : h ∈ handles p.held) (hop : ∀ e ∈ p.held, e.handle = h →
      op = .split h n ∧ priority e.data.priority = e.data.priority ∨
        op = .splitWithPriority h n (priority e.data.priority)) : ∃ r s' p',
    splitOff priority s h n = some (r, s') ∧ View s' p' ∧ match r with
      | .ok h' => p'.arrivals = p.arrivals ++ [h'] ∧ h' ∈ handles p'.held ∧
          Moves op (.permit h') p p'
      | .error _ => p' = p ∧ ∀ e ∈ p.held, e.handle = h → count e ≤ n := by
  obtain ⟨e, he, rfl⟩ := List.mem_map.mp hh
  have hnot := fun h => hv.not_mem (h := h)
  have hnd := LawfulQueue.nodup hv.rep
  obtain ⟨held, pending, total, available, arrivals⟩ := p
  obtain ⟨hr, rfl, rfl, hwf, hc⟩ := id hv
  have hop' := hop e he rfl
  obtain ⟨a, b, rfl⟩ := List.append_of_mem he
  have hsplit := splitOff_spec priority n (c := b ++ pending) (by simpa using hr)
  by_cases hlt : n < count e
  · rw [if_pos hlt] at hsplit
    obtain ⟨h', q', l', hq', hr', hh', hplace⟩ := hsplit
    rw [← List.cons_append, ← List.append_assoc] at hplace
    obtain ⟨held', rfl, hfront⟩ :=
      hplace.within_front fun f hf => compareNew_locked rfl (hwf.unlocked f hf)
    have hm : Moves op (.permit h') ⟨a ++ e :: b, pending, s.total, s.available, arrivals⟩
        ⟨held', pending, s.total, s.available, arrivals ++ [h']⟩ :=
      .split hop' (hnot h' (by simpa using hh')) hlt hfront
    refine ⟨.ok h', ⟨q', s.total, s.available⟩, _, hq', hv.moves hm hr' rfl rfl, rfl, ?_, hm⟩
    exact mem_handles (hfront.perm.mem_iff.mpr List.mem_cons_self)
  · rw [if_neg hlt] at hsplit
    obtain ⟨q', hq', hr'⟩ := hsplit
    refine ⟨.error ⟨count e, n⟩, ⟨q', s.total, s.available⟩, _, hq',
      ⟨by simpa using hr', rfl, rfl, hwf, hc⟩, rfl, fun f hf hfe => ?_⟩
    obtain rfl := List.inj_on_of_nodup_map hnd (List.mem_append_left _ hf) (by simp) hfe
    exact BitVec.not_lt.mp hlt

/-- A merge adds the count of another entry and takes that one out, or changes nothing. -/
theorem merge_spec {f : Queued B P} (hr : LawfulQueue.Rep s.queue (a ++ e :: c))
    (hf : f ∈ a ++ c) :
    if maxPermits B < count e + count f then ∃ q', merge s e.handle f.handle =
        some (false, ⟨q', s.total, s.available⟩) ∧ LawfulQueue.Rep q' (a ++ e :: c)
    else ∃ q', merge s e.handle f.handle = some (true, ⟨q', s.total, s.available⟩) ∧
        LawfulQueue.Rep q'
          (without (a ++ recount e (e.data.rawCount + count f) :: c) f.handle) := by
  have hfe : f ∈ a ++ e :: c := (List.sublist_cons_self e c).append_left a |>.subset hf
  have hge := LawfulQueue.getByHandle_spec hr (e := e) (by simp)
  have hgf := LawfulQueue.getByHandle_spec hr hfe
  obtain ⟨q₁, hq₁, hr₁⟩ := LawfulQueue.updateNode_stay (fun x : SemaphoreWaiter B P =>
    (if maxPermits B < x.count + f.data.count then x
      else { x with rawCount := x.rawCount + f.data.count }, false)) hr rfl
  by_cases hlt : maxPermits B < count e + count f
  · have hlt' : maxPermits B < e.data.count + f.data.count := hlt
    simp only [hlt', if_true] at hr₁
    rw [if_pos hlt]
    exact ⟨q₁, by simp [merge, hge, hgf, hq₁, hlt'], hr₁⟩
  · have hlt' : ¬maxPermits B < e.data.count + f.data.count := hlt
    simp only [hlt', if_false] at hr₁
    have hr₂ : LawfulQueue.Rep q₁ (a ++ recount e (e.data.rawCount + count f) :: c) := hr₁
    obtain ⟨x, y, hxy⟩ : ∃ x y,
        a ++ recount e (e.data.rawCount + count f) :: c = x ++ f :: y := by
      apply List.append_of_mem
      rcases List.mem_append.mp hf with hf | hf <;> simp [hf]
    rw [hxy] at hr₂
    obtain ⟨q', hq', hr'⟩ := LawfulQueue.dequeue_spec hr₂
    rw [if_neg hlt, hxy, without_middle (LawfulQueue.nodup hr₂)]
    exact ⟨q', by simp [merge, hge, hgf, hq₁, hlt', hq'], hr'⟩

theorem View.merge {o : Handle} (hv : View s p) (hh : h ∈ handles p.held)
    (ho : o ∈ handles p.held) (hne : h ≠ o) : ∃ ok s' p', merge s h o = some (ok, s') ∧
      View s' p' ∧ if ok = true then p'.arrivals = p.arrivals.filter (· ≠ o) ∧
        Moves (.merge h o) (.merged true) p p' else p' = p := by
  obtain ⟨e, he, rfl⟩ := List.mem_map.mp hh
  obtain ⟨f, hf, rfl⟩ := List.mem_map.mp ho
  have hwait : f.handle ∉ handles p.pending := hv.wf.disjoint (mem_handles hf)
  obtain ⟨held, pending, total, available, arrivals⟩ := p
  obtain ⟨hr, rfl, rfl, hwf, hc⟩ := id hv
  obtain ⟨a, b, rfl⟩ := List.append_of_mem he
  have hfab := mem_of_ne_middle hf hne
  have hmerge := merge_spec (c := b ++ pending) (f := f) (by simpa using hr)
    (List.append_assoc a b pending ▸ List.mem_append_left pending hfab)
  by_cases hlt : maxPermits B < count e + count f
  · rw [if_pos hlt] at hmerge
    obtain ⟨q', hq', hr'⟩ := hmerge
    exact ⟨false, ⟨q', s.total, s.available⟩, _, hq', ⟨by simpa using hr', rfl, rfl, hwf, hc⟩, rfl⟩
  · rw [if_neg hlt] at hmerge
    obtain ⟨q', hq', hr'⟩ := hmerge
    have hm : Moves (.merge e.handle f.handle) (.merged true)
        ⟨a ++ e :: b, pending, s.total, s.available, arrivals⟩
        ⟨without (a ++ recount e (e.data.rawCount + count f) :: b) f.handle, pending, s.total,
          s.available, arrivals.filter (· ≠ f.handle)⟩ := .merge hfab (BitVec.not_lt.mp hlt)
    rw [← List.cons_append, ← List.append_assoc, without_append, without_of_not_mem hwait] at hr'
    exact ⟨true, ⟨q', s.total, s.available⟩, _, hq', hv.moves hm hr' rfl rfl, rfl, hm⟩

theorem activateWaiters_all (hr : LawfulQueue.Rep s.queue (held ++ pending))
    (hl : ∀ e ∈ held, hasLock e = true) (hu : ∀ e ∈ pending, hasLock e = false) :
    ∃ s' held' pending', (headHandle s.queue).bind (activateWaiters s) = some s' ∧
      s'.total = s.total ∧ LawfulQueue.Rep s'.queue (held' ++ pending') ∧
      Activates held [] pending s.available held' pending' s'.available := by
  obtain ⟨s', held', pending', hact, hw⟩ := activateWaiters_spec (a := []) hr hl hu
  exact ⟨s', held', pending', by rw [LawfulQueue.headHandle_spec hr]; exact hact, hw⟩

theorem checkedAdd_cases {m n : Usize B} :
    checkedAdd m n = none ∨ checkedAdd m n = some (m + n) := by
  unfold checkedAdd
  split
  · exact Or.inr rfl
  · exact Or.inl rfl

theorem View.tryAddPermits (n : Usize B) (hv : View s p) : ∃ r s' p',
    tryAddPermits s n = some (r, s') ∧ View s' p' ∧ p'.arrivals = p.arrivals ∧
      Moves (.tryAddPermits n) (.added r) p p' ∧
      Moves (.addPermits n)
        (match r with | some m => .count m | none => .panicked .mustAdd) p p' := by
  obtain ⟨held, pending, total, available, arrivals⟩ := p
  obtain ⟨hr, rfl, rfl, hwf, hc⟩ := id hv
  cases hB : B.semaphoreTotal with
  | false =>
    rcases checkedAdd_cases (m := s.available) (n := n) with hca | hca
    · exact ⟨none, s, _, by simp [Semaphore.tryAddPermits, hB, hca], hv, rfl, .same rfl, .same rfl⟩
    · obtain ⟨s', held', pending', hact, ht, hr', ha⟩ := activateWaiters_all
        (s := ⟨s.queue, s.total, s.available + n⟩) hr hwf.locked hwf.unlocked
      have hm : ∀ op r, op = .tryAddPermits n ∧ r = .added (some s'.available) ∨
          op = .addPermits n ∧ r = .count s'.available → Moves op r
          ⟨held, pending, s.total, s.available, arrivals⟩
          ⟨held', pending', s.total, s'.available, arrivals⟩ :=
        fun op r hop => .add hop hB hca ha
      refine ⟨some s'.available, s', _, ?_, hv.moves (hm _ _ (Or.inl ⟨rfl, rfl⟩)) hr' ht rfl, rfl,
        hm _ _ (Or.inl ⟨rfl, rfl⟩), hm _ _ (Or.inr ⟨rfl, rfl⟩)⟩
      obtain ⟨next, hn, hact⟩ := Option.bind_eq_some_iff.mp hact
      simp [Semaphore.tryAddPermits, hB, hca, hn, hact]
  | true =>
    rcases checkedAdd_cases (m := s.total) (n := n) with hca | hca
    · exact ⟨none, s, _, by simp [Semaphore.tryAddPermits, hB, hca], hv, rfl, .same rfl, .same rfl⟩
    · obtain ⟨s', held', pending', hact, ht, hr', ha⟩ := activateWaiters_all
        (s := ⟨s.queue, s.total + n, s.available + n⟩) hr hwf.locked hwf.unlocked
      have hm : ∀ op r, op = .tryAddPermits n ∧ r = .added (some s'.available) ∨
          op = .addPermits n ∧ r = .count s'.available → Moves op r
          ⟨held, pending, s.total, s.available, arrivals⟩
          ⟨held', pending', s.total + n, s'.available, arrivals⟩ :=
        fun op r hop => .addTotal hop hB hca ha
      refine ⟨some s'.available, s', _, ?_, hv.moves (hm _ _ (Or.inl ⟨rfl, rfl⟩)) hr' ht rfl, rfl,
        hm _ _ (Or.inl ⟨rfl, rfl⟩), hm _ _ (Or.inr ⟨rfl, rfl⟩)⟩
      obtain ⟨next, hn, hact⟩ := Option.bind_eq_some_iff.mp hact
      simp [Semaphore.tryAddPermits, hB, hca, hn, hact]

theorem View.forgetPermits (m : Usize B) (hv : View s p) : ∃ n s' p',
    forgetPermits s m = some (n, s') ∧ View s' p' ∧ p'.arrivals = p.arrivals ∧
      Moves (.forgetPermits m) (.count n) p p' := by
  obtain ⟨held, pending, total, available, arrivals⟩ := p
  obtain ⟨hr, rfl, rfl, hwf, hc⟩ := id hv
  obtain ⟨n, hn, hle⟩ : ∃ n, (if m ≤ s.available then m else s.available) = n ∧
      n ≤ s.available := by
    refine ⟨_, rfl, ?_⟩
    split
    · assumption
    · exact BitVec.le_refl _
  cases hB : B.semaphoreTotal with
  | false =>
    have hm : Moves (.forgetPermits m) (.count n)
        ⟨held, pending, s.total, s.available, arrivals⟩
        ⟨held, pending, s.total, s.available - n, arrivals⟩ := .forgetPermits hB hle
    refine ⟨n, ⟨s.queue, s.total, s.available - n⟩, _, ?_, hv.moves hm hr rfl rfl, rfl, hm⟩
    simp [Semaphore.forgetPermits, hn, hB]
  | true =>
    by_cases hz : n = 0
    · subst hz
      refine ⟨0, s, _, ?_, hv, rfl, .same rfl⟩
      simp [Semaphore.forgetPermits, hn, hB]
    · have hle' : n ≤ s.total := BitVec.le_trans hle (hc hB).available_le
      have hsub : checkedSub s.total n = some (s.total - n) := checkedSub_of_le hle'
      have hm : Moves (.forgetPermits m) (.count n)
          ⟨held, pending, s.total, s.available, arrivals⟩
          ⟨flagWhere (oversized (s.total - n)) held, flagWhere (oversized (s.total - n)) pending,
            s.total - n, s.available - n, arrivals⟩ := .forgetPermitsTotal hB hz hle hle'
      have hr₀ : LawfulQueue.Rep s.queue ([] ++ (held ++ pending)) := hr
      obtain ⟨q', hq', hr'⟩ := notifyOversizedWaiters_spec
        (s := ⟨s.queue, s.total - n, s.available - n⟩) hr₀ (LawfulQueue.iterAt_none hr)
      rw [flagWhere_append] at hr'
      have hz' : n ≠ 0#B.bits := hz
      refine ⟨n, ⟨q', s.total - n, s.available - n⟩, _, ?_, hv.moves hm hr' rfl rfl, rfl, hm⟩
      simp [Semaphore.forgetPermits, hn, hB, hz', hsub, hq']

end Functions

end PriorityLock.Semaphore
