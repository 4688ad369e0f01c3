import PriorityLock.Queue.Twins
import PriorityLock.Semaphore.Shape

/-! # Semaphores over twin queues

The functions of the semaphore use a queue by its operations only. Over twin
queues they take the same branches and leave twins, and the handles that they
return are those of one entry.
-/

namespace PriorityLock.Semaphore

open Placement PriorityQueue

variable {B : Build} {P : Type} [Priority P] {f : Handle → Handle} {e : Queued B P}
  {a b c l : List (Queued B P)}

instance [Decisive P] : Decisive (SemaphoreWaiter B P) where
  ne_eq a b := by
    have hne := Decisive.ne_eq a.priority b.priority
    cases ha : a.waiter.hasLock <;> cases hb : b.waiter.hasLock <;>
      cases hc : Priority.compareNew a.priority b.priority <;> simp_all [Priority.compareNew]
  gt_trans a b c := by
    have hne := Decisive.ne_eq a.priority b.priority
    have hgt := Decisive.gt_trans a.priority b.priority c.priority
    cases ha : a.waiter.hasLock <;> cases hb : b.waiter.hasLock <;>
      cases hc : c.waiter.hasLock <;>
      cases hab : Priority.compareNew a.priority b.priority <;>
      simp_all [Priority.compare, Priority.compareNew]

theorem unlocked_behind (hd : Descending Priority.compare (e :: c)) (he : hasLock e = false) :
    ∀ g ∈ c, hasLock g = false := by
  intro g hg
  by_contra hl
  have hge : (Priority.compare e g).isGE := List.rel_of_pairwise_cons hd hg
  rw [Bool.not_eq_false] at hl
  simp_all [Priority.compare, hasLock]

omit [Priority P] in
theorem flagWhere_rename (cond : SemaphoreWaiter B P → Bool) :
    (flagWhere cond l).map (Entry.rename f) = flagWhere cond (l.map (Entry.rename f)) := by
  rw [flagWhere, flagWhere, List.map_map, List.map_map]
  apply List.map_congr_left
  intro e _
  by_cases hc : cond e.data = true <;> simp [flag, hc, Entry.rename]

variable {Q Q' : Type} [PriorityQueue Q (SemaphoreWaiter B P)]
  [PriorityQueue Q' (SemaphoreWaiter B P)] [LawfulQueue Q (SemaphoreWaiter B P)]
  [LawfulQueue Q' (SemaphoreWaiter B P)] {s s₁ : SemaphoreInner B Q} {s' s₁' : SemaphoreInner B Q'}
  {q : Q} {q' : Q'}

/-- Two inner states whose queues are twins. -/
structure Alike (f : Handle → Handle) (l : List (Queued B P)) (s : SemaphoreInner B Q)
    (s' : SemaphoreInner B Q') : Prop where
  twins : Twins f l s.queue s'.queue
  total : s'.total = s.total
  available : s'.available = s.available

/-- Both calls succeed and leave twins. -/
def Both (f : Handle → Handle) (x : Option (SemaphoreInner B Q))
    (y : Option (SemaphoreInner B Q')) : Prop :=
  ∃ s s' l, x = some s ∧ y = some s' ∧ Alike f l s s'

def BothReturn {R : Type} (f : Handle → Handle) (x : Option (R × SemaphoreInner B Q))
    (y : Option (R × SemaphoreInner B Q')) : Prop :=
  ∃ r s s' l, x = some (r, s) ∧ y = some (r, s') ∧ Alike f l s s'

section Walk

variable [ExactQueue Q (SemaphoreWaiter B P)] [ExactQueue Q' (SemaphoreWaiter B P)]

theorem Alike.activateLoop {fuel : ℕ} (hs : Alike f (a ++ c) s s') (hf : c.length ≤ fuel)
    (hd : Descending Priority.compare c) :
    Both f (activateLoop fuel s (c.head?.map Entry.handle))
      (activateLoop fuel s' ((c.head?.map Entry.handle).map f)) := by
  induction c generalizing s s' a fuel with
  | nil => exact ⟨s, s', _, by cases fuel <;> rfl, by cases fuel <;> rfl, hs⟩
  | cons e c ih =>
    obtain ⟨n, rfl⟩ : ∃ n, fuel = n + 1 := Nat.exists_eq_add_one.mpr (by simp at hf; omega)
    have hf' : c.length ≤ n := Nat.le_of_succ_le_succ hf
    have hd' : Descending Priority.compare c := hd.of_cons
    have hr := hs.twins.middle
    obtain ⟨hg, hg'⟩ := hs.twins.getByHandle
    have hn := LawfulQueue.getNextHandle_spec hs.twins.left
    have hn' := LawfulQueue.getNextHandle_spec hr
    rw [rename_handle, head?_rename] at hn'
    have hpass : Alike f ((a ++ [e]) ++ c) s s' := by simpa using hs
    obtain ⟨s₁, s₁', l, h₁, h₁', hs₁⟩ := ih hpass hf' hd'
    obtain ⟨next, hnext⟩ : ∃ next, c.head?.map Entry.handle = next := ⟨_, rfl⟩
    rw [hnext] at hn hn' h₁ h₁'
    by_cases hl : hasLock e = true
    · have hl' : e.data.waiter.hasLock = true := hl
      exact ⟨s₁, s₁', l, by simp [Semaphore.activateLoop, hg, hn, hl', h₁],
        by simp [Semaphore.activateLoop, hg', hn', hl', h₁'], hs₁⟩
    rw [Bool.not_eq_true] at hl
    have hl' : e.data.waiter.hasLock = false := hl
    by_cases hlt : s.available < e.data.count
    · have hlt' : s'.available < e.data.count := by rwa [hs.available]
      by_cases hby : B.semaphoreTotal = true ∧ e.data.waiter.wantsEvict = true
      · exact ⟨s₁, s₁', l, by simp [Semaphore.activateLoop, hg, hn, hl', hlt, hby, h₁],
          by simp [Semaphore.activateLoop, hg', hn', hl', hlt', hby, h₁'], hs₁⟩
      · exact ⟨s, s', _, by simp [Semaphore.activateLoop, hg, hn, hl', hlt, hby],
          by simp [Semaphore.activateLoop, hg', hn', hl', hlt', hby], hs⟩
    · have hlt' : ¬s'.available < e.data.count := by rwa [hs.available]
      have hu := unlocked_behind hd hl
      -- a granted entry never ties with one that waits, so that both queues settle it by a scan
      have hne : ∀ g ∈ c.head?,
          Priority.compare (⟨e.handle, e.data.start⟩ : Queued B P) g ≠ .eq := by
        intro g hg
        rw [compare_locked rfl (hu g (List.mem_of_head? hg))]
        decide
      obtain ⟨q, q', hq, hq', ht⟩ :=
        hs.twins.resettle (fun x : SemaphoreWaiter B P => (x.start, true)) rfl hne
      obtain ⟨a', ha', -⟩ :=
        settled_locked (e := ⟨e.handle, e.data.start⟩) rfl hu settled_resettle
      have ht' : Twins f (a' ++ c) q q' := ha' ▸ ht
      have hgrant : Alike f (a' ++ c) ⟨q, s.total, s.available - e.data.count⟩
          ⟨q', s'.total, s'.available - e.data.count⟩ := ⟨ht', hs.total, by rw [hs.available]⟩
      obtain ⟨s₁, s₁', l, h₁, h₁', hs₁⟩ := ih hgrant hf' hd'
      rw [hnext] at h₁ h₁'
      exact ⟨s₁, s₁', l, by simp [Semaphore.activateLoop, hg, hn, hl', hlt, hq, h₁],
        by simp [Semaphore.activateLoop, hg', hn', hl', hlt', hq', h₁'], hs₁⟩

theorem Alike.activateWaiters (hs : Alike f (a ++ c) s s') (hd : Descending Priority.compare c) :
    Both f (activateWaiters s (c.head?.map Entry.handle))
      (activateWaiters s' ((c.head?.map Entry.handle).map f)) := by
  have hf : c.length ≤ (a ++ c).length := by simp
  rw [activateWaiters_eq hs.twins.left, activateWaiters_eq hs.twins.right, List.length_map]
  exact hs.activateLoop hf hd

theorem Alike.dropWaiter (hs : Alike f (a ++ e :: c) s s') (hd : Descending Priority.compare c) :
    Both f (dropWaiter s e.handle) (dropWaiter s' (f e.handle)) := by
  obtain ⟨hg, hg'⟩ := hs.twins.getByHandle
  obtain ⟨q, q', hq, hq', ht⟩ := hs.twins.dequeue
  have ha : ∀ n, Alike f (a ++ c) ⟨q, s.total, n⟩ ⟨q', s'.total, n⟩ :=
    fun _ => ⟨ht, hs.total, rfl⟩
  have hwalk := fun n => (ha n).activateWaiters hd
  have hidle : ∀ n, Both f (some ⟨q, s.total, n⟩) (some ⟨q', s'.total, n⟩) :=
    fun n => ⟨_, _, _, rfl, rfl, ha n⟩
  obtain ⟨next, hnext⟩ : ∃ next, c.head?.map Entry.handle = next := ⟨_, rfl⟩
  rw [hnext] at hq hq' hwalk
  simp only [Semaphore.dropWaiter, hg, hg', hq, hq', Option.bind_eq_bind, Option.bind_some,
    hs.available, Option.isNone_map]
  split
  · split
    · exact hidle _
    · exact hwalk _
  · split
    · exact hidle _
    · split
      · exact hwalk _
      · exact hidle _

theorem Alike.dropPermit (hs : Alike f (a ++ e :: c) s s') (hd : Descending Priority.compare c) :
    BothReturn f (dropPermit s e.handle) (dropPermit s' (f e.handle)) := by
  obtain ⟨q, hr, hq⟩ := dropPermit_spec hs.twins.left
  obtain ⟨q', hr', hq'⟩ := dropPermit_spec hs.twins.middle
  have hc : count (e.rename f) = count e := rfl
  rw [rename_handle, head?_rename, hc, hs.available, hs.total] at hq'
  have ht : Twins f (a ++ c) q q' := ⟨hr, by simpa using hr'⟩
  rw [hq, hq']
  by_cases hf : Fits B s.available (count e)
  · have ha : Alike f (a ++ c) ⟨q, s.total, s.available + count e⟩
        ⟨q', s.total, s.available + count e⟩ := ⟨ht, rfl, rfl⟩
    obtain ⟨s₁, s₁', l, h₁, h₁', hs₁⟩ := ha.activateWaiters hd
    rw [if_pos hf, if_pos hf, h₁, h₁']
    exact ⟨_, s₁, s₁', l, rfl, rfl, hs₁⟩
  · rw [if_neg hf, if_neg hf]
    exact ⟨_, _, _, _, rfl, rfl, ht, rfl, rfl⟩

theorem Alike.tryAddPermits (hs : Alike f l s s') (hd : Descending Priority.compare l)
    (n : Usize B) : BothReturn f (tryAddPermits s n) (tryAddPermits s' n) := by
  have hh := LawfulQueue.headHandle_spec hs.twins.left
  have hh' := LawfulQueue.headHandle_spec hs.twins.right
  rw [head?_rename] at hh'
  have hwalk : ∀ total available, Both f
      (Semaphore.activateWaiters ⟨s.queue, total, available⟩ (l.head?.map Entry.handle))
      (Semaphore.activateWaiters ⟨s'.queue, total, available⟩
        ((l.head?.map Entry.handle).map f)) :=
    fun _ _ => Alike.activateWaiters (a := []) ⟨hs.twins, rfl, rfl⟩ hd
  have hadd : ∀ total available, BothReturn f
      ((headHandle s.queue).bind fun next =>
        (Semaphore.activateWaiters ⟨s.queue, total, available⟩ next).bind fun s =>
          some (some s.available, s))
      ((headHandle s'.queue).bind fun next =>
        (Semaphore.activateWaiters ⟨s'.queue, total, available⟩ next).bind fun s =>
          some (some s.available, s)) := by
    intro total available
    obtain ⟨s₁, s₁', l, h₁, h₁', hs₁⟩ := hwalk total available
    rw [hh, hh', Option.bind_some, Option.bind_some, h₁, h₁']
    exact ⟨some s₁.available, s₁, s₁', l, rfl, by rw [← hs₁.available]; rfl, hs₁⟩
  unfold Semaphore.tryAddPermits
  rw [hs.total, hs.available]
  split
  · split
    · exact hadd _ _
    · exact ⟨_, _, _, _, rfl, rfl, hs⟩
  · split
    · exact hadd _ _
    · exact ⟨_, _, _, _, rfl, rfl, hs⟩

end Walk

section Flags

theorem Alike.notifyOversizedWaiters (hs : Alike f (a ++ c) s s') {start : Option Handle}
    (h : iterAt s.queue start = some (handles c))
    (h' : iterAt s'.queue (start.map f) = some ((handles c).map f)) :
    Both f (notifyOversizedWaiters s start) (notifyOversizedWaiters s' (start.map f)) := by
  obtain ⟨q, hq, hr⟩ := notifyOversizedWaiters_spec hs.twins.left h
  obtain ⟨q', hq', hr'⟩ := notifyOversizedWaiters_spec (s := s') (a := a.map (Entry.rename f))
    (c := c.map (Entry.rename f)) (by simpa using hs.twins.right) (by rw [h', handles_rename])
  refine ⟨_, _, _, hq, hq', ⟨hr, ?_⟩, hs.total, hs.available⟩
  rw [List.map_append, flagWhere_rename, ← hs.total]
  exact hr'

theorem Alike.forgetPermits (hs : Alike f l s s')
    (hle : B.semaphoreTotal = true → s.available ≤ s.total) (m : Usize B) :
    BothReturn f (forgetPermits s m) (forgetPermits s' m) := by
  unfold Semaphore.forgetPermits
  rw [hs.total, hs.available]
  obtain ⟨n, hn, hna⟩ : ∃ n, (if m ≤ s.available then m else s.available) = n ∧
      n ≤ s.available := by
    refine ⟨_, rfl, ?_⟩
    split
    · assumption
    · exact BitVec.le_refl _
  rw [hn]
  dsimp only
  by_cases hB : (B.semaphoreTotal && n != 0) = true
  · have hB' := (Bool.and_eq_true_iff.mp hB).1
    have hsub : checkedSub s.total n = some (s.total - n) :=
      checkedSub_of_le (BitVec.le_trans hna (hle hB'))
    have hi : iterAt s.queue none = some (handles l) := LawfulQueue.iterAt_none hs.twins.left
    have hi' : iterAt s'.queue none = some ((handles l).map f) := by
      rw [LawfulQueue.iterAt_none hs.twins.right]
      exact congrArg some handles_rename
    have ha : Alike f ([] ++ l) ⟨s.queue, s.total - n, s.available - n⟩
        ⟨s'.queue, s.total - n, s.available - n⟩ := ⟨hs.twins, rfl, rfl⟩
    obtain ⟨s₁, s₁', l₁, h₁, h₁', hs₁⟩ := ha.notifyOversizedWaiters hi hi'
    have h₂ : Semaphore.notifyOversizedWaiters ⟨s'.queue, s.total - n, s.available - n⟩ none =
        some s₁' := h₁'
    rw [if_pos hB, if_pos hB, hsub]
    simp only [Option.bind_eq_bind, Option.bind_some, h₁, h₂]
    exact ⟨n, s₁, s₁', l₁, rfl, rfl, hs₁⟩
  · rw [if_neg hB, if_neg hB]
    exact ⟨n, _, _, l, rfl, rfl, hs.twins, rfl, rfl⟩

theorem Alike.forget (hs : Alike f (a ++ e :: c) s s')
    (hle : B.semaphoreTotal = true → count e ≤ s.total) :
    Both f (forget s e.handle) (forget s' (f e.handle)) := by
  obtain ⟨hg, hg'⟩ := hs.twins.getByHandle
  obtain ⟨q, q', hq, hq', ht⟩ := hs.twins.dequeue
  unfold Semaphore.forget
  simp only [hg, hg', hq, hq', hs.total, hs.available, Option.bind_eq_bind, Option.bind_some]
  cases hB : B.semaphoreTotal with
  | false => exact ⟨_, _, _, rfl, rfl, ht, rfl, rfl⟩
  | true =>
    have hsub : checkedSub s.total e.data.count = some (s.total - e.data.count) :=
      checkedSub_of_le (hle hB)
    rw [hsub]
    cases c with
    | nil => exact ⟨_, _, _, rfl, rfl, ht, rfl, rfl⟩
    | cons g c =>
      have hi := LawfulQueue.iterAt_some ht.left
      have hi' : iterAt q' (some (f g.handle)) = some ((handles (g :: c)).map f) := by
        rw [← handles_rename]
        exact LawfulQueue.iterAt_some ht.middle
      have ha : Alike f (a ++ g :: c) ⟨q, s.total - e.data.count, s.available⟩
          ⟨q', s.total - e.data.count, s.available⟩ := ⟨ht, rfl, rfl⟩
      exact ha.notifyOversizedWaiters hi hi'

end Flags

section Entries

theorem Alike.merge {g : Queued B P} (hs : Alike f (a ++ e :: c) s s') (hg : g ∈ a ++ c) :
    BothReturn f (merge s e.handle g.handle) (merge s' (f e.handle) (f g.handle)) := by
  have hm := merge_spec hs.twins.left hg
  have hg' : g.rename f ∈ a.map (Entry.rename f) ++ c.map (Entry.rename f) := by
    rw [← List.map_append]
    exact List.mem_map_of_mem hg
  have hm' := merge_spec hs.twins.middle hg'
  have he : count (e.rename f) = count e := rfl
  have hc : count (g.rename f) = count g := rfl
  rw [he, hc, hs.total, hs.available] at hm'
  by_cases hlt : maxPermits B < count e + count g
  · rw [if_pos hlt] at hm hm'
    obtain ⟨q, hq, hr⟩ := hm
    obtain ⟨q', hq', hr'⟩ := hm'
    exact ⟨false, _, _, _, hq, hq', ⟨hr, by simpa using hr'⟩, rfl, rfl⟩
  · rw [if_neg hlt] at hm hm'
    obtain ⟨q, hq, hr⟩ := hm
    obtain ⟨q', hq', hr'⟩ := hm'
    refine ⟨true, _, _, _, hq, hq', ⟨hr, ?_⟩, rfl, rfl⟩
    have hn : handles (a ++ recount e (e.data.rawCount + count g) :: c) =
        handles (a ++ e :: c) := by simp
    have hap : Apart f (a ++ recount e (e.data.rawCount + count g) :: c) := by
      rw [Apart, hn]
      exact hs.twins.apart
    have hh : g.handle ∈ handles (a ++ recount e (e.data.rawCount + count g) :: c) := by
      rw [hn]
      exact mem_handles (((List.sublist_cons_self e c).append_left a).subset hg)
    rw [← hap.without hh, List.map_append, List.map_cons]
    exact hr'

variable [Decisive P]

theorem Alike.splitOff (priority : P → P) (n : Usize B) (hs : Alike f (a ++ e :: c) s s')
    (hd : Descending Priority.compare (a ++ e :: c)) :
    BothReturn f (splitOff priority s e.handle n) (splitOff priority s' (f e.handle) n) ∧
        count e ≤ n ∨
      ∃ h h' s₁ s₁' l, splitOff priority s e.handle n = some (.ok h, s₁) ∧
        splitOff priority s' (f e.handle) n = some (.ok h', s₁') ∧
        h ∉ handles (a ++ e :: c) ∧ Alike (Function.update f h h') l s₁ s₁' := by
  have hsp := splitOff_spec priority n hs.twins.left
  have hsp' := splitOff_spec priority n hs.twins.middle
  have he : count (e.rename f) = count e := rfl
  rw [he, hs.total, hs.available] at hsp'
  by_cases hlt : n < count e
  · rw [if_pos hlt] at hsp hsp'
    obtain ⟨h, q, l, hq, hr, hh, hp⟩ := hsp
    obtain ⟨h', q', l', hq', hr', hh', hp'⟩ := hsp'
    have hmap : (a ++ recount e (e.data.rawCount - n) :: c).map (Entry.rename f) =
        a.map (Entry.rename f) ++ recount (e.rename f) ((e.rename f).data.rawCount - n) ::
          c.map (Entry.rename f) := by simp [Entry.rename, recount]
    rw [← hmap] at hp'
    have hl := placed_rename hp hp' (descending_recount hd) (by simpa using hh)
    exact Or.inr ⟨h, h', _, _, l, hq, hq', hh, ⟨hr, hl ▸ hr'⟩, rfl, rfl⟩
  · rw [if_neg hlt] at hsp hsp'
    obtain ⟨q, hq, hr⟩ := hsp
    obtain ⟨q', hq', hr'⟩ := hsp'
    exact Or.inl ⟨⟨_, _, _, _, hq, hq', ⟨hr, by simpa using hr'⟩, rfl, rfl⟩, BitVec.not_lt.mp hlt⟩

theorem Alike.doAcquire (priority : P) (word : Usize B) (hs : Alike f (a ++ c) s s')
    (hl : ∀ e ∈ a, hasLock e = true) (hu : ∀ e ∈ c, hasLock e = false)
    (ha : Descending Priority.compare a) (hc : Descending Priority.compare c) :
    ∃ h h' acquired s₁ s₁' l, doAcquire s priority word = some ((h, acquired), s₁) ∧
      doAcquire s' priority word = some ((h', acquired), s₁') ∧ h ∉ handles (a ++ c) ∧
      Alike (Function.update f h h') l s₁ s₁' := by
  have hr' := hs.twins.right
  rw [List.map_append] at hr'
  have hl' : ∀ e ∈ a.map (Entry.rename f), hasLock e = true := List.forall_mem_map.mpr hl
  have hu' : ∀ e ∈ c.map (Entry.rename f), hasLock e = false := List.forall_mem_map.mpr hu
  have hfind : (c.map (Entry.rename f)).find? blocks = (c.find? blocks).map (Entry.rename f) :=
    List.find?_map
  have hsplit : ∀ {h : Handle}, h ∉ handles (a ++ c) → h ∉ handles a ∧ h ∉ handles c := by
    intro h hh
    rwa [handles_append, List.mem_append, not_or] at hh
  by_cases hb : masked word ≤ s.available ∧
      ∀ f ∈ c.find? blocks, (Priority.compare priority f.data.priority).isGE
  · obtain ⟨hle, hge⟩ := hb
    obtain ⟨h, q, held, hq, hr, hh, hp⟩ :=
      doAcquire_granted priority word hs.twins.left hl hu hle hge
    have hge' : ∀ g ∈ (c.map (Entry.rename f)).find? blocks,
        (Priority.compare priority g.data.priority).isGE := by
      intro g hg
      rw [hfind] at hg
      obtain ⟨d, hd, rfl⟩ := Option.mem_map.mp hg
      exact hge d hd
    obtain ⟨h', q', held', hq', hr', -, hp'⟩ :=
      doAcquire_granted priority word hr' hl' hu' (by rwa [hs.available]) hge'
    obtain ⟨hna, hnc⟩ := hsplit hh
    rw [← flagWhere_rename] at hp'
    have hheld := placed_rename hp hp' (descending_flagWhere ha) (by simpa using hna)
    rw [← hheld, ← rename_update h' hnc, ← List.map_append] at hr'
    exact ⟨h, h', true, _, _, _, hq, hq', hh, ⟨hr, hr'⟩, hs.total, by rw [hs.available]⟩
  · have hlt := blocks_of_not_served hb
    obtain ⟨h, q, pending, hq, hr, hh, hp⟩ := doAcquire_queued priority word hs.twins.left hl hu hlt
    have hlt' : masked word ≤ s'.available → ∃ g, (c.map (Entry.rename f)).find? blocks = some g ∧
        Priority.compare priority g.data.priority = .lt := by
      intro hle
      obtain ⟨g, hg, hlt⟩ := hlt (hs.available ▸ hle)
      exact ⟨g.rename f, by rw [hfind, hg]; rfl, hlt⟩
    obtain ⟨h', q', pending', hq', hr', -, hp'⟩ :=
      doAcquire_queued priority word hr' hl' hu' hlt'
    obtain ⟨hna, hnc⟩ := hsplit hh
    have hpending := placed_rename hp hp' hc hnc
    have hna' : h ∉ handles (flagWhere (outranked priority) a) := by simpa using hna
    rw [← hpending, ← flagWhere_rename, ← rename_update h' hna', ← List.map_append] at hr'
    exact ⟨h, h', false, _, _, _, hq, hq', hh, ⟨hr, hr'⟩, hs.total, hs.available⟩

end Entries

end PriorityLock.Semaphore
