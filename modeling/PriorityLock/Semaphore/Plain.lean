import PriorityLock.Semaphore.Twins

/-! # The semaphore over a plain list

When callers are named by their places among all owners, oldest first, no answer
depends on how a queue picks its handles. For priorities under which new entries
never tie, a semaphore over a builtin queue then answers as one over a plain list.
-/

namespace PriorityLock.Semaphore

open Placement Transition PriorityQueue

variable {B : Build} {P : Type}

def Op.resolve (g : ℕ → Option Handle) : Op B P → Option (Op B P)
  | .poll i => (g i).map .poll
  | .finish i => (g i).map .finish
  | .cancel i => (g i).map .cancel
  | .drop i => (g i).map .drop
  | .forget i => (g i).map .forget
  | .split i n => (g i).map fun h => .split h n
  | .splitWithPriority i n p => (g i).map fun h => .splitWithPriority h n p
  | .merge i j => (g i).bind fun h => (g j).map fun o => .merge h o
  | .mergeForeign i => (g i).map .mergeForeign
  | .mergeIntoForeign i => (g i).map .mergeIntoForeign
  | .evicted i => (g i).map .evicted
  | .permits i => (g i).map .permits
  | op => some op

def Result.rename (g : Handle → ℕ) : Result B → Result B
  | .permit h => .permit (g h)
  | .pending h => .pending (g h)
  | r => r

/-- The owners that a result names are among these. -/
def Result.Of (owners : List Handle) : Result B → Prop
  | .permit h | .pending h => h ∈ owners
  | _ => True

section Places

variable {Q : Type} [Priority P] [PriorityQueue Q (SemaphoreWaiter B P)]

def System.place (s : System B Q) (h : Handle) : ℕ := (handles s.owned).idxOf h

/-- One call by owners that are named by their places; a call by nobody is refused. -/
def callAt (s : System B Q) (op : Op B P) : Option (Result B × System B Q) :=
  match op.resolve fun i => (handles s.owned)[i]? with
  | none => some (.refused, s)
  | some op => (call s op).map fun (r, s) => (r.rename s.place, s)

end Places

variable [Priority P] {Q Q' : Type} [PriorityQueue Q (SemaphoreWaiter B P)]
  [PriorityQueue Q' (SemaphoreWaiter B P)] [LawfulQueue Q (SemaphoreWaiter B P)]
  [LawfulQueue Q' (SemaphoreWaiter B P)] {f g : Handle → Handle} {l : List (Queued B P)}
  {p : Pool B P} {s s₁ : System B Q} {s' s₁' : System B Q'} {op op' : Op B P} {r : Result B}
  {h o : Handle} {d : Owned B}

/-- Two systems with twin queues and the same owners. -/
structure Same (f : Handle → Handle) (s : System B Q) (s' : System B Q') : Prop where
  alike : ∃ l, Alike f l s.inner s'.inner
  owned : s'.owned = s.owned.map (Entry.rename f)

/-- Both calls succeed, with results that differ in handles only, and leave the same. -/
def Answers (s : System B Q) (s' : System B Q') (op op' : Op B P) : Prop :=
  ∃ r s₁ s₁' g, call s op = some (r, s₁) ∧ call s' op' = some (r.rename g, s₁') ∧
    r.Of (handles s₁.owned) ∧ Same g s₁ s₁'

structure Linked (f : Handle → Handle) (p : Pool B P) (s : System B Q) (s' : System B Q') : Prop
    where
  holds : Holds s p
  sorted : p.Sorted
  alike : Alike f (p.held ++ p.pending) s.inner s'.inner
  owned : s'.owned = s.owned.map (Entry.rename f)

section Links

theorem Same.linked (h : Same f s s') (hs : Holds s p) (hp : p.Sorted) : Linked f p s s' := by
  obtain ⟨⟨l, ha⟩, ho⟩ := h
  obtain rfl : l = p.held ++ p.pending := Option.some.inj
    ((LawfulQueue.entries_eq ha.twins.left).symm.trans (LawfulQueue.entries_eq hs.view.rep))
  exact ⟨hs, hp, ha, ho⟩

theorem Linked.same (h : Linked f p s s') : Same f s s' := ⟨⟨_, h.alike⟩, h.owned⟩

theorem Linked.start (capacity : Usize B) :
    Linked f (Pool.start capacity) (System.start (new capacity : SemaphoreInner B Q))
      (System.start (new capacity : SemaphoreInner B Q')) :=
  ⟨Holds.start capacity, ⟨.nil, .nil⟩, ⟨Twins.start, rfl, rfl⟩, rfl⟩

theorem Linked.apart (h : Linked f p s s') : Apart f s.owned := by
  intro x hx y hy hxy
  exact h.alike.twins.apart (h.holds.mem_owned.mp hx) (h.holds.mem_owned.mp hy) hxy

theorem Linked.lookup_eq (hk : Linked f p s s') (hl : lookup s.owned h = some ⟨h, d⟩) :
    lookup s'.owned (f h) = some ⟨f h, d⟩ := by
  rw [hk.owned, hk.apart.lookup (mem_handles (mem_of_lookup hl).1), hl]
  rfl

theorem Linked.names (hk : Linked f p s s') (i : ℕ) :
    (handles s'.owned)[i]? = ((handles s.owned)[i]?).map f := by
  rw [hk.owned, handles_rename, List.getElem?_map]

theorem Linked.owner (hk : Linked f p s s') {i : ℕ} (hi : (handles s.owned)[i]? = some h) :
    ∃ d, lookup s.owned h = some ⟨h, d⟩ := by
  obtain ⟨⟨x, d⟩, ho, rfl⟩ := List.mem_map.mp (List.mem_of_getElem? hi)
  exact ⟨d, lookup_of_mem hk.holds.nodup_owned ho⟩

theorem Linked.place (hk : Linked f p s s') (hr : r.Of (handles s.owned)) :
    (r.rename f).rename s'.place = r.rename s.place := by
  have hp : ∀ h ∈ handles s.owned, s'.place (f h) = s.place h := by
    intro h hh
    rw [System.place, hk.owned, handles_rename]
    exact idxOf_map hk.apart hh
  cases r with
  | permit h => exact congrArg Result.permit (hp h hr)
  | pending h => exact congrArg Result.pending (hp h hr)
  | _ => rfl

theorem Linked.descending (hk : Linked f p s s') :
    Descending Priority.compare (p.held ++ p.pending) := by
  refine List.pairwise_append.mpr ⟨hk.sorted.held, hk.sorted.pending, ?_⟩
  intro e he g hg
  rw [compare_locked (hk.holds.view.wf.locked e he) (hk.holds.view.wf.unlocked g hg)]
  rfl

theorem Linked.entry (hk : Linked f p s s') (hl : lookup s.owned h = some ⟨h, d⟩) :
    ∃ a e c, p.held ++ p.pending = a ++ e :: c ∧ e.handle = h ∧
      Alike f (a ++ e :: c) s.inner s'.inner ∧ Descending Priority.compare (a ++ e :: c) := by
  have hh := hk.holds.mem_owned.mp (mem_handles (mem_of_lookup hl).1)
  obtain ⟨e, he, rfl⟩ := List.mem_map.mp hh
  obtain ⟨a, c, hac⟩ := List.append_of_mem he
  exact ⟨a, e, c, hac, rfl, hac ▸ hk.alike, hac ▸ hk.descending⟩

theorem Linked.data_eq (hk : Linked f p s s') (hl : lookup s.owned h = some ⟨h, d⟩) :
    ∃ w, getByHandle s.inner.queue h = some w ∧ getByHandle s'.inner.queue (f h) = some w := by
  obtain ⟨a, e, c, -, rfl, ha, -⟩ := hk.entry hl
  exact ⟨e.data, ha.twins.getByHandle⟩

theorem Linked.depart (hk : Linked f p s s') (hl : lookup s.owned h = some ⟨h, d⟩)
    {inner : SemaphoreInner B Q} {inner' : SemaphoreInner B Q'} (ha : Alike f l inner inner') :
    Same f ⟨inner, without s.owned h⟩ ⟨inner', without s'.owned (f h)⟩ where
  alike := ⟨l, ha⟩
  owned := by
    rw [hk.owned]
    exact hk.apart.without (mem_handles (mem_of_lookup hl).1)

theorem Linked.relabel (hk : Linked f p s s') (hl : lookup s.owned h = some ⟨h, d⟩) (d' : Owned B) :
    Same f { s with owned := relabel s.owned h d' }
      { s' with owned := relabel s'.owned (f h) d' } where
  alike := ⟨_, hk.alike⟩
  owned := by
    rw [hk.owned]
    exact hk.apart.relabel (mem_handles (mem_of_lookup hl).1)

theorem Linked.arrive (hk : Linked f p s s') {h' : Handle} (hh : h ∉ handles (p.held ++ p.pending))
    {inner : SemaphoreInner B Q} {inner' : SemaphoreInner B Q'}
    (ha : Alike (Function.update f h h') l inner inner') :
    Same (Function.update f h h') ⟨inner, s.owned ++ [⟨h, d⟩]⟩ ⟨inner', s'.owned ++ [⟨h', d⟩]⟩ where
  alike := ⟨l, ha⟩
  owned := by
    have ho : h ∉ handles s.owned := fun hm => hh (hk.holds.mem_owned.mp hm)
    rw [List.map_append, rename_update _ ho, hk.owned]
    simp [Entry.rename]

end Links

section Calls

theorem Linked.unchanged (hk : Linked f p s s') {r : Result B} (hr : r.rename f = r)
    (hof : r.Of (handles s.owned)) (hc : call s op = some (r, s))
    (hc' : call s' op' = some (r, s')) : Answers s s' op op' :=
  ⟨r, s, s', f, hc, hr.symm ▸ hc', hof, hk.same⟩

theorem Linked.refused (hk : Linked f p s s') (hc : call s op = some (.refused, s))
    (hc' : call s' op' = some (.refused, s')) : Answers s s' op op' :=
  hk.unchanged (r := .refused) rfl trivial hc hc'

theorem Linked.acquire [Decisive P] (hk : Linked f p s s') (priority : P) (word : Usize B)
    (d : Owned B) : ∃ r s₁ s₁' g, s.acquire priority word d = some (r, s₁) ∧
      s'.acquire priority word d = some (r.rename g, s₁') ∧ r.Of (handles s₁.owned) ∧
      Same g s₁ s₁' := by
  obtain ⟨h, h', acquired, i, i', l, hi, hi', hh, ha⟩ := hk.alike.doAcquire priority word
    hk.holds.view.wf.locked hk.holds.view.wf.unlocked hk.sorted.held hk.sorted.pending
  have hg : Function.update f h h' h = h' := Function.update_self ..
  cases acquired with
  | true =>
    refine ⟨.permit h, _, _, Function.update f h h', ?_, ?_, ?_, hk.arrive (d := .permit) hh ha⟩
    · rw [System.acquire, hi]
      rfl
    · rw [System.acquire, hi', Result.rename, hg]
      rfl
    · simp [Result.Of]
  | false =>
    refine ⟨.pending h, _, _, Function.update f h h', ?_, ?_, ?_, hk.arrive (d := d) hh ha⟩
    · rw [System.acquire, hi]
      rfl
    · rw [System.acquire, hi', Result.rename, hg]
      rfl
    · simp [Result.Of]

theorem Linked.poll (hk : Linked f p s s') (hl : lookup s.owned h = some ⟨h, d⟩) :
    Answers s s' (.poll h) (.poll (f h)) := by
  have hl' := hk.lookup_eq hl
  have hm : h ∈ handles s.owned := mem_handles (mem_of_lookup hl).1
  obtain ⟨w, hw, hw'⟩ := hk.data_eq hl
  cases d with
  | future =>
    cases hlock : w.waiter.hasLock with
    | true =>
      exact ⟨.permit h, _, _, f, by simp [call, hl, hw, hlock],
        by simp [call, hl', hw', hlock, Result.rename], by simpa [Result.Of] using hm,
        hk.relabel hl .permit⟩
    | false =>
      exact ⟨.pending h, s, s', f, by simp [call, hl, hw, hlock],
        by simp [call, hl', hw', hlock, Result.rename], hm, hk.same⟩
  | futureWithinTotal n =>
    cases hlock : w.waiter.hasLock with
    | true =>
      exact ⟨.permit h, _, _, f, by simp [call, hl, hw, hlock],
        by simp [call, hl', hw', hlock, Result.rename], by simpa [Result.Of] using hm,
        hk.relabel hl .permit⟩
    | false =>
      cases hev : w.waiter.wantsEvict with
      | true =>
        exact ⟨.rejected, _, _, f, by simp [call, hl, hw, hlock, hev],
          by simp [call, hl', hw', hlock, hev, Result.rename], trivial,
          hk.relabel hl (.rejected n)⟩
      | false =>
        exact ⟨.pending h, s, s', f, by simp [call, hl, hw, hlock, hev],
          by simp [call, hl', hw', hlock, hev, Result.rename], hm, hk.same⟩
  | rejected | permit => exact hk.refused (by simp [call, hl]) (by simp [call, hl'])

theorem Linked.mergeForeign (hk : Linked f p s s') (hl : lookup s.owned h = some ⟨h, d⟩) :
    Answers s s' (.mergeForeign h) (.mergeForeign (f h)) := by
  have hl' := hk.lookup_eq hl
  cases d with
  | permit =>
    exact hk.unchanged (r := .merged false) rfl trivial (by simp [call, hl]) (by simp [call, hl'])
  | future | futureWithinTotal | rejected =>
    exact hk.refused (by simp [call, hl]) (by simp [call, hl'])

theorem Linked.evicted (hk : Linked f p s s') (hl : lookup s.owned h = some ⟨h, d⟩) :
    Answers s s' (.evicted h) (.evicted (f h)) := by
  have hl' := hk.lookup_eq hl
  obtain ⟨w, hw, hw'⟩ := hk.data_eq hl
  cases hE : B.evict with
  | false => exact hk.refused (by simp [call, hE]) (by simp [call, hE])
  | true =>
    cases d with
    | permit =>
      exact hk.unchanged (r := .evicted w.waiter.wantsEvict) rfl trivial
        (by simp [call, hE, hl, hw]) (by simp [call, hE, hl', hw'])
    | future | futureWithinTotal | rejected =>
      exact hk.refused (by simp [call, hE, hl]) (by simp [call, hE, hl'])

theorem Linked.permits (hk : Linked f p s s') (hl : lookup s.owned h = some ⟨h, d⟩) :
    Answers s s' (.permits h) (.permits (f h)) := by
  have hl' := hk.lookup_eq hl
  obtain ⟨w, hw, hw'⟩ := hk.data_eq hl
  cases d with
  | permit =>
    exact hk.unchanged (r := .count w.count) rfl trivial (by simp [call, hl, hw])
      (by simp [call, hl', hw'])
  | future | futureWithinTotal | rejected =>
    exact hk.refused (by simp [call, hl]) (by simp [call, hl'])

theorem Linked.held (hk : Linked f p s s') (hl : lookup s.owned h = some ⟨h, .permit⟩) :
    ∃ e ∈ p.held, e.handle = h :=
  List.mem_map.mp (hk.holds.permits _ (mem_of_lookup hl).1 rfl)

theorem Linked.forget (hk : Linked f p s s') (hl : lookup s.owned h = some ⟨h, d⟩) :
    Answers s s' (.forget h) (.forget (f h)) := by
  have hl' := hk.lookup_eq hl
  cases d with
  | permit =>
    obtain ⟨e, he, rfl⟩ := hk.held hl
    obtain ⟨a, c, hac⟩ := List.append_of_mem (List.mem_append_left p.pending he)
    have hle : B.semaphoreTotal = true → count e ≤ s.inner.total := by
      intro hB
      rw [hk.holds.view.total]
      exact (hk.holds.view.conserved hB).count_le he
    obtain ⟨i, i', l, hi, hi', ha⟩ := Alike.forget (hac ▸ hk.alike) hle
    exact ⟨.unit, _, _, f, by simp [call, hl, hi], by simp [call, hl', hi', Result.rename], trivial,
      hk.depart hl ha⟩
  | future | futureWithinTotal | rejected =>
    exact hk.refused (by simp [call, hl]) (by simp [call, hl'])

theorem Linked.splitOff [Decisive P] (hk : Linked f p s s') (hl : lookup s.owned h = some ⟨h, d⟩)
    (priority : P → P) (n : Usize B) : ∃ r s₁ s₁' g,
    (splitOff priority s.inner h n).map s.splitResult = some (r, s₁) ∧
      (splitOff priority s'.inner (f h) n).map s'.splitResult = some (r.rename g, s₁') ∧
      r.Of (handles s₁.owned) ∧ Same g s₁ s₁' := by
  obtain ⟨a, e, c, hac, rfl, ha, hd⟩ := hk.entry hl
  obtain ⟨⟨r, i, i', l, hi, hi', ha'⟩, hle⟩ | ⟨x, x', i, i', l, hi, hi', hx, ha'⟩ :=
    ha.splitOff priority n hd
  · cases r with
    | ok x =>
      -- no entry is new unless the count is above that of the new permit
      have hsp := splitOff_spec priority n ha.twins.left
      rw [if_neg (BitVec.not_lt.mpr hle)] at hsp
      obtain ⟨q, hq, -⟩ := hsp
      rw [hi] at hq
      cases hq
    | error err =>
      refine ⟨.insufficient err, ⟨i, s.owned⟩, ⟨i', s'.owned⟩, f, ?_, ?_, trivial, ⟨l, ha'⟩,
        hk.owned⟩
      · rw [hi]
        rfl
      · rw [hi']
        rfl
  · have hx' : Function.update f x x' x = x' := Function.update_self ..
    refine ⟨.permit x, _, _, Function.update f x x', ?_, ?_, ?_,
      hk.arrive (d := .permit) (hac ▸ hx) ha'⟩
    · rw [hi]
      rfl
    · rw [hi', Result.rename, hx']
      rfl
    · simp [Result.Of]

theorem Linked.split [Decisive P] (hk : Linked f p s s') (hl : lookup s.owned h = some ⟨h, d⟩)
    (n : Usize B) : Answers s s' (.split h n) (.split (f h) n) := by
  have hl' := hk.lookup_eq hl
  cases d with
  | permit =>
    by_cases hn : n = 0
    · exact hk.unchanged (r := .panicked (.notPositive n)) rfl trivial (by simp [call, hl, hn])
        (by simp [call, hl', hn])
    · obtain ⟨r, s₁, s₁', g, hc, hc', hof, hs⟩ := hk.splitOff hl id n
      refine ⟨r, s₁, s₁', g, ?_, ?_, hof, hs⟩
      · simp only [call, hl, hn, if_false]
        exact hc
      · simp only [call, hl', hn, if_false]
        exact hc'
  | future | futureWithinTotal | rejected =>
    exact hk.refused (by simp [call, hl]) (by simp [call, hl'])

theorem Linked.splitWithPriority [Decisive P] (hk : Linked f p s s')
    (hl : lookup s.owned h = some ⟨h, d⟩) (n : Usize B) (priority : P) :
    Answers s s' (.splitWithPriority h n priority) (.splitWithPriority (f h) n priority) := by
  have hl' := hk.lookup_eq hl
  cases d with
  | permit =>
    by_cases hn : n = 0
    · exact hk.unchanged (r := .panicked (.notPositive n)) rfl trivial (by simp [call, hl, hn])
        (by simp [call, hl', hn])
    · obtain ⟨r, s₁, s₁', g, hc, hc', hof, hs⟩ := hk.splitOff hl (fun _ => priority) n
      refine ⟨r, s₁, s₁', g, ?_, ?_, hof, hs⟩
      · simp only [call, hl, hn, if_false]
        exact hc
      · simp only [call, hl', hn, if_false]
        exact hc'
  | future | futureWithinTotal | rejected =>
    exact hk.refused (by simp [call, hl]) (by simp [call, hl'])

theorem Linked.forgetPermits (hk : Linked f p s s') (n : Usize B) :
    Answers s s' (.forgetPermits n) (.forgetPermits n) := by
  have hle : B.semaphoreTotal = true → s.inner.available ≤ s.inner.total := by
    intro hB
    rw [hk.holds.view.total, hk.holds.view.available]
    exact (hk.holds.view.conserved hB).available_le
  obtain ⟨m, i, i', l, hi, hi', ha⟩ := hk.alike.forgetPermits hle n
  have hs : Same f { s with inner := i } { s' with inner := i' } := ⟨⟨l, ha⟩, hk.owned⟩
  exact ⟨.count m, _, _, f, by simp [call, hi], by simp [call, hi', Result.rename], trivial, hs⟩

theorem Linked.acquireMany [Decisive P] (hk : Linked f p s s') (priority : P) (n : Usize B) :
    Answers s s' (.acquireMany priority n) (.acquireMany priority n) := by
  by_cases hn : maxPermits B ≤ n
  · exact hk.unchanged (r := .panicked (.tooMany n)) rfl trivial (by simp [call, hn])
      (by simp [call, hn])
  · simpa [Answers, call, hn] using hk.acquire priority n .future

theorem Linked.acquireWithinTotal [Decisive P] (hk : Linked f p s s') (priority : P)
    (n : Usize B) :
    Answers s s' (.acquireWithinTotal priority n) (.acquireWithinTotal priority n) := by
  have ht := hk.alike.total
  cases hB : B.semaphoreTotal with
  | false => exact hk.refused (by simp [call, hB]) (by simp [call, hB])
  | true =>
    by_cases hn : maxPermits B ≤ n
    · exact hk.unchanged (r := .panicked (.tooMany n)) rfl trivial (by simp [call, hB, hn])
        (by simp [call, hB, hn])
    by_cases hlt : s.inner.total < n
    · exact hk.unchanged (r := .insufficient ⟨s.inner.total, n⟩) rfl trivial
        (by simp [call, hB, hn, hlt]) (by simp [call, hB, hn, hlt, ht])
    · simpa [Answers, call, hB, hn, hlt, ht] using
        hk.acquire priority (n ||| withinTotalBit B) (.futureWithinTotal n)

/-- A call by one owner. -/
theorem Linked.one (hk : Linked f p s s') (mk : Handle → Op B P)
    (hm : ∀ h d, lookup s.owned h = some ⟨h, d⟩ → Answers s s' (mk h) (mk (f h))) (i : ℕ) :
    Option.Rel (Answers s s') (((handles s.owned)[i]?).map mk)
      (((handles s'.owned)[i]?).map mk) := by
  rw [hk.names]
  cases hi : (handles s.owned)[i]? with
  | none => exact .none
  | some h =>
    obtain ⟨d, hd⟩ := hk.owner hi
    exact .some (hm h d hd)

variable [ExactQueue Q (SemaphoreWaiter B P)] [ExactQueue Q' (SemaphoreWaiter B P)]

theorem Linked.abandon (hk : Linked f p s s') (hl : lookup s.owned h = some ⟨h, d⟩)
    {r : Result B} (hr : r.rename f = r) (hof : ∀ hs, r.Of hs) : ∃ s₁ s₁' ,
    s.abandon h r = some (r, s₁) ∧ s'.abandon (f h) r = some (r.rename f, s₁') ∧
      r.Of (handles s₁.owned) ∧ Same f s₁ s₁' := by
  obtain ⟨a, e, c, -, rfl, ha, hd⟩ := hk.entry hl
  obtain ⟨i, i', l, hi, hi', ha'⟩ := ha.dropWaiter hd.right.of_cons
  rw [hr]
  refine ⟨_, _, ?_, ?_, hof _, hk.depart hl ha'⟩
  · rw [System.abandon, hi]
    rfl
  · rw [System.abandon, hi']
    rfl

theorem Linked.release (hk : Linked f p s s') (hl : lookup s.owned h = some ⟨h, d⟩)
    {r : Result B} (hr : r.rename f = r) (hof : ∀ hs, r.Of hs) : ∃ r' s₁ s₁',
    s.release h r = some (r', s₁) ∧ s'.release (f h) r = some (r'.rename f, s₁') ∧
      r'.Of (handles s₁.owned) ∧ Same f s₁ s₁' := by
  obtain ⟨a, e, c, -, rfl, ha, hd⟩ := hk.entry hl
  obtain ⟨x, i, i', l, hi, hi', ha'⟩ := ha.dropPermit hd.right.of_cons
  have hs := hk.depart hl ha'
  rcases x with panic | ⟨⟩
  · refine ⟨.panicked panic, _, _, ?_, ?_, trivial, hs⟩
    · rw [System.release, hi]
      rfl
    · rw [System.release, hi']
      rfl
  · refine ⟨r, _, _, ?_, ?_, hof _, hs⟩
    · rw [System.release, hi]
      rfl
    · rw [System.release, hi', hr]
      rfl

theorem Linked.finish (hk : Linked f p s s') (hl : lookup s.owned h = some ⟨h, d⟩) :
    Answers s s' (.finish h) (.finish (f h)) := by
  have hl' := hk.lookup_eq hl
  cases d with
  | rejected n =>
    obtain ⟨s₁, s₁', hc, hc', hof, hs⟩ :=
      hk.abandon hl (r := .insufficient ⟨BitVec.allOnes B.bits, n⟩) rfl fun _ => trivial
    exact ⟨_, s₁, s₁', f, by simp [call, hl, hc], by simp [call, hl', hc'], hof, hs⟩
  | future | futureWithinTotal | permit =>
    exact hk.refused (by simp [call, hl]) (by simp [call, hl'])

theorem Linked.cancel (hk : Linked f p s s') (hl : lookup s.owned h = some ⟨h, d⟩) :
    Answers s s' (.cancel h) (.cancel (f h)) := by
  have hl' := hk.lookup_eq hl
  obtain ⟨s₁, s₁', hc, hc', hof, hs⟩ := hk.abandon hl (r := .unit) rfl fun _ => trivial
  cases d with
  | future | futureWithinTotal =>
    exact ⟨_, s₁, s₁', f, by simp [call, hl, hc], by simp [call, hl', hc'], hof, hs⟩
  | rejected | permit => exact hk.refused (by simp [call, hl]) (by simp [call, hl'])

theorem Linked.drop (hk : Linked f p s s') (hl : lookup s.owned h = some ⟨h, d⟩) :
    Answers s s' (.drop h) (.drop (f h)) := by
  have hl' := hk.lookup_eq hl
  obtain ⟨r, s₁, s₁', hc, hc', hof, hs⟩ := hk.release hl (r := .unit) rfl fun _ => trivial
  cases d with
  | permit => exact ⟨r, s₁, s₁', f, by simp [call, hl, hc], by simp [call, hl', hc'], hof, hs⟩
  | future | futureWithinTotal | rejected =>
    exact hk.refused (by simp [call, hl]) (by simp [call, hl'])

theorem Linked.mergeIntoForeign (hk : Linked f p s s') (hl : lookup s.owned h = some ⟨h, d⟩) :
    Answers s s' (.mergeIntoForeign h) (.mergeIntoForeign (f h)) := by
  have hl' := hk.lookup_eq hl
  obtain ⟨r, s₁, s₁', hc, hc', hof, hs⟩ := hk.release hl (r := .merged false) rfl fun _ => trivial
  cases d with
  | permit => exact ⟨r, s₁, s₁', f, by simp [call, hl, hc], by simp [call, hl', hc'], hof, hs⟩
  | future | futureWithinTotal | rejected =>
    exact hk.refused (by simp [call, hl]) (by simp [call, hl'])

theorem Linked.merge (hk : Linked f p s s') {d' : Owned B} (hl : lookup s.owned h = some ⟨h, d⟩)
    (ho : lookup s.owned o = some ⟨o, d'⟩) :
    Answers s s' (.merge h o) (.merge (f h) (f o)) := by
  have hl' := hk.lookup_eq hl
  have ho' := hk.lookup_eq ho
  cases d with
  | permit =>
    cases d' with
    | permit =>
      by_cases hne : h = o
      · exact hk.refused (by simp [call, ho, hne]) (by simp [call, ho', hne])
      have hne' : f h ≠ f o := fun heq => hne (hk.apart (mem_handles (mem_of_lookup hl).1)
        (mem_handles (mem_of_lookup ho).1) heq)
      obtain ⟨a, e, c, hac, rfl, ha, -⟩ := hk.entry hl
      have hm := hk.holds.mem_owned.mp (mem_handles (mem_of_lookup ho).1)
      rw [hac] at hm
      obtain ⟨g, hg, rfl⟩ := List.mem_map.mp hm
      obtain ⟨ok, i, i', l, hi, hi', ha'⟩ := ha.merge (mem_of_ne_middle hg hne)
      cases ok with
      | true =>
        exact ⟨.merged true, _, _, f, by simp [call, hl, ho, hne, hi],
          by simp [call, hl', ho', hne', hi', Result.rename], trivial, hk.depart ho ha'⟩
      | false =>
        -- the counts and the queue are those before the call, and the other permit is dropped
        obtain ⟨ok, j, p', hq, hv, hr⟩ := hk.holds.view.merge (hk.holds.held_of_lookup hl)
          (hk.holds.held_of_lookup ho) hne
        obtain ⟨rfl, rfl⟩ := Prod.mk.inj (Option.some.inj (hi.symm.trans hq))
        obtain rfl : p' = p := hr
        have hk' : Linked f p' { s with inner := i } { s' with inner := i' } :=
          Same.linked ⟨⟨l, ha'⟩, hk.owned⟩ ⟨hv, hk.holds.arrivals, hk.holds.permits⟩ hk.sorted
        obtain ⟨r, s₁, s₁', hc, hc', hof, hs⟩ :=
          hk'.release ho (r := .merged false) rfl fun _ => trivial
        exact ⟨r, s₁, s₁', f, by simpa [call, hl, ho, hne, hi] using hc,
          by simpa [call, hl', ho', hne', hi'] using hc', hof, hs⟩
    | future | futureWithinTotal | rejected =>
      exact hk.refused (by simp [call, hl, ho]) (by simp [call, hl', ho'])
  | future | futureWithinTotal | rejected =>
    exact hk.refused (by simp [call, hl]) (by simp [call, hl'])

theorem Linked.added (hk : Linked f p s s') (n : Usize B) : ∃ r i i' l,
    tryAddPermits s.inner n = some (r, i) ∧ tryAddPermits s'.inner n = some (r, i') ∧
      Alike f l i i' :=
  hk.alike.tryAddPermits hk.descending n

theorem Linked.addPermits (hk : Linked f p s s') (n : Usize B) :
    Answers s s' (.addPermits n) (.addPermits n) := by
  obtain ⟨r, i, i', l, hi, hi', ha⟩ := hk.added n
  have hs : Same f { s with inner := i } { s' with inner := i' } := ⟨⟨l, ha⟩, hk.owned⟩
  cases r with
  | none =>
    exact ⟨.panicked .mustAdd, _, _, f, by simp [call, hi], by simp [call, hi', Result.rename],
      trivial, hs⟩
  | some m =>
    exact ⟨.count m, _, _, f, by simp [call, hi], by simp [call, hi', Result.rename], trivial, hs⟩

theorem Linked.resolve [Decisive P] (hk : Linked f p s s') (op : Op B P) :
    Option.Rel (Answers s s') (op.resolve fun i => (handles s.owned)[i]?)
      (op.resolve fun i => (handles s'.owned)[i]?) := by
  cases op with
  | poll i => exact hk.one .poll (fun _ _ => hk.poll) i
  | finish i => exact hk.one .finish (fun _ _ => hk.finish) i
  | cancel i => exact hk.one .cancel (fun _ _ => hk.cancel) i
  | drop i => exact hk.one .drop (fun _ _ => hk.drop) i
  | forget i => exact hk.one .forget (fun _ _ => hk.forget) i
  | split i n => exact hk.one (.split · n) (fun _ _ hl => hk.split hl n) i
  | splitWithPriority i n q =>
    exact hk.one (.splitWithPriority · n q) (fun _ _ hl => hk.splitWithPriority hl n q) i
  | mergeForeign i => exact hk.one .mergeForeign (fun _ _ => hk.mergeForeign) i
  | mergeIntoForeign i => exact hk.one .mergeIntoForeign (fun _ _ => hk.mergeIntoForeign) i
  | evicted i => exact hk.one .evicted (fun _ _ => hk.evicted) i
  | permits i => exact hk.one .permits (fun _ _ => hk.permits) i
  | merge i j =>
    change Option.Rel _ (((handles s.owned)[i]?).bind fun h =>
        ((handles s.owned)[j]?).map (Op.merge h))
      (((handles s'.owned)[i]?).bind fun h => ((handles s'.owned)[j]?).map (Op.merge h))
    rw [hk.names, hk.names]
    cases hi : (handles s.owned)[i]? with
    | none => exact .none
    | some h =>
      cases hj : (handles s.owned)[j]? with
      | none => exact .none
      | some o =>
        obtain ⟨d, hd⟩ := hk.owner hi
        obtain ⟨d', hd'⟩ := hk.owner hj
        exact .some (hk.merge hd hd')
  | acquireMany q n => exact .some (hk.acquireMany q n)
  | acquireWithinTotal q n => exact .some (hk.acquireWithinTotal q n)
  | tryAddPermits n =>
    obtain ⟨r, i, i', l, hi, hi', ha⟩ := hk.added n
    have hs : Same f { s with inner := i } { s' with inner := i' } := ⟨⟨l, ha⟩, hk.owned⟩
    exact .some ⟨.added r, _, _, f, by simp [call, hi], by simp [call, hi', Result.rename], trivial,
      hs⟩
  | addPermits n => exact .some (hk.addPermits n)
  | forgetPermits n => exact .some (hk.forgetPermits n)
  | availablePermits =>
    exact .some (hk.unchanged (r := .count s.inner.available) rfl trivial rfl
      (by simp [call, hk.alike.available]))
  | totalPermits =>
    cases hB : B.semaphoreTotal with
    | false => exact .some (hk.refused (by simp [call, hB]) (by simp [call, hB]))
    | true =>
      exact .some (hk.unchanged (r := .count s.inner.total) rfl trivial (by simp [call, hB])
        (by simp [call, hB, hk.alike.total]))

/-- Named alike, owners are answered alike. -/
theorem Linked.callAt [LawfulPriority P] [Decisive P] (hk : Linked f p s s') (op : Op B P) :
    ∃ r s₁ s₁' g p₁, callAt s op = some (r, s₁) ∧ callAt s' op = some (r, s₁') ∧
      Linked g p₁ s₁ s₁' := by
  unfold Semaphore.callAt
  have hr := hk.resolve op
  generalize (op.resolve fun i => (handles s.owned)[i]?) = x at hr
  generalize (op.resolve fun i => (handles s'.owned)[i]?) = x' at hr
  cases hr with
  | none => exact ⟨.refused, s, s', f, p, rfl, rfl, hk⟩
  | some ha =>
    obtain ⟨r, s₁, s₁', g, hc, hc', hof, hs⟩ := ha
    obtain ⟨r', t, p₁, ht, hp, hm⟩ := hk.holds.call _
    obtain ⟨rfl, rfl⟩ := Prod.mk.inj (Option.some.inj (hc.symm.trans ht))
    have hk₁ := hs.linked hp (hm.sorted hk.sorted)
    refine ⟨r.rename s₁.place, s₁, s₁', g, p₁, ?_, ?_, hk₁⟩
    · simp [hc]
    · simp [hc', hk₁.place hof]

end Calls

/-- With callers named by their places, a semaphore over any builtin queue gives to every sequence
of calls the answers of one over a plain list, and so any two give the same. -/
theorem plain_semaphore (k : QueueKind) {B : Build} {P : Type} [Priority P] [LawfulPriority P]
    [Decisive P] (capacity : Usize B) (ops : List (Op B P)) :
    trace callAt (System.start (new capacity) : System B (k.Queue (SemaphoreWaiter B P))) ops =
      trace callAt (System.start (new capacity) : System B (PlainQueue (SemaphoreWaiter B P)))
        ops :=
  trace_eq_of_related (R := fun s s' => ∃ f p, Linked f p s s')
    (fun _ _ op ⟨_, _, hk⟩ =>
      let ⟨r, s₁, s₁', g, p₁, hc, hc', hk₁⟩ := hk.callAt op
      ⟨r, s₁, s₁', hc, hc', g, p₁, hk₁⟩)
    ⟨id, _, Linked.start capacity⟩ ops

/-- Of two permits one evicts the other, which is split and dropped. -/
theorem plain_semaphore_evicting :
    trace callAt (System.start (new 2) : System Build.full
        (QueueKind.dualArena.Queue (SemaphoreWaiter Build.full (LIFO ℕ))))
        [.acquireMany ⟨1⟩ 2, .acquireMany ⟨2⟩ 1, .evicted 0, .split 0 1, .drop 0, .poll 0] =
      trace callAt (System.start (new 2) : System Build.full
        (PlainQueue (SemaphoreWaiter Build.full (LIFO ℕ))))
        [.acquireMany ⟨1⟩ 2, .acquireMany ⟨2⟩ 1, .evicted 0, .split 0 1, .drop 0, .poll 0] :=
  plain_semaphore .dualArena 2 _

end PriorityLock.Semaphore
