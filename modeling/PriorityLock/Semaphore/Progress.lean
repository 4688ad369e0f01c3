import PriorityLock.Semaphore.Origins
import PriorityLock.Transition.Fairness

/-! # Permits come round

When every holder leaves at some time, no request asks for more than there is
and no more calls contend with a request that waits, it is granted its permits
unless its caller gives it up. Nothing gets in front of it any more, holders in
front of it leave, and once nobody holds permits all of them are available.
-/

namespace PriorityLock.Semaphore

open Placement Transition PriorityQueue

variable {B : Build} {P : Type} [Priority P] {op : Op B P} {r : Result B} {p p' : Pool B P}
  {e e' : Queued B P} {priority : P} {x h : Handle}

/-- A call that can add a holder, or an entry in front of a request of a priority: an acquire of a
priority that is not lower, with a total any acquire, or a split. -/
def Op.contends (priority : P) : Op B P → Bool
  | .acquireMany q _ | .acquireWithinTotal q _ =>
      B.semaphoreTotal || (Priority.compare q priority).isGE
  | .split _ _ | .splitWithPriority _ _ _ => true
  | _ => false

def Pool.Enough (p : Pool B P) : Prop :=
  ∀ e ∈ p.pending, (count e).toNat ≤ p.available.toNat + permits p.held

/-- No walk passes over a waiting entry. -/
def Pool.Unflagged (p : Pool B P) : Prop := ∀ e ∈ p.pending, bypassed e = false

def InFront (x h : Handle) (l : List (Queued B P)) : Prop := [x, h].Sublist (handles l)

section Front

omit [Priority P] in
theorem inFront_append {l l' : List (Queued B P)} (hh : h ∉ handles l) :
    InFront x h (l ++ l') ↔ x ∈ handles l ∧ h ∈ handles l' ∨ InFront x h l' := by
  rw [InFront, handles_append, List.sublist_append_iff]
  constructor
  · rintro ⟨a, b, hab, ha, hb⟩
    match a with
    | [] =>
      obtain rfl : [x, h] = b := hab
      exact Or.inr hb
    | [y] =>
      obtain ⟨rfl, rfl⟩ : x = y ∧ [h] = b := by simpa using hab
      exact Or.inl ⟨List.singleton_sublist.mp ha, List.singleton_sublist.mp hb⟩
    | y :: z :: a =>
      obtain ⟨rfl, rfl, -⟩ : x = y ∧ h = z ∧ [] = a ++ b := by simpa using hab
      exact absurd (ha.subset (by simp)) hh
  · rintro (⟨hx, hm⟩ | hs)
    · exact ⟨[x], [h], rfl, List.singleton_sublist.mpr hx, List.singleton_sublist.mpr hm⟩
    · exact ⟨[], [x, h], rfl, List.nil_sublist _, hs⟩

omit [Priority P] in
theorem inFront_middle {a b : List (Queued B P)} (hn : (handles (a ++ e :: b)).Nodup) :
    InFront x e.handle (a ++ e :: b) ↔ x ∈ handles a := by
  rw [handles_append, handles_cons] at hn
  have ha : e.handle ∉ handles a := fun h => (List.disjoint_of_nodup_append hn) h (by simp)
  have hb : e.handle ∉ handles b := (List.nodup_cons.mp hn.of_append_right).1
  rw [inFront_append ha]
  constructor
  · rintro (⟨hx, -⟩ | hx)
    · exact hx
    · have hs : [x, e.handle].Sublist (e.handle :: handles b) := hx
      rcases List.sublist_cons_iff.mp hs with hs | ⟨l, hl, hs⟩
      · exact absurd (hs.subset (by simp)) hb
      · obtain ⟨-, rfl⟩ := List.cons.inj hl
        exact absurd (hs.subset (by simp)) hb
  · exact fun hx => Or.inl ⟨hx, by simp⟩

omit [Priority P] in
theorem Pool.WF.nodup_pending (hp : p.WF) : (handles p.pending).Nodup := by
  have hn := hp.nodup_handles
  rw [handles_append] at hn
  exact hn.of_append_right

omit [Priority P] in
theorem Pool.WF.inFront_iff (hp : p.WF) (he : h ∈ handles p.pending) :
    InFront x h (p.held ++ p.pending) ↔ x ∈ handles p.held ∨ InFront x h p.pending := by
  rw [inFront_append fun hh => hp.disjoint hh he]
  exact or_congr_left (and_iff_left he)

end Front

section Moves

theorem Moves.pending_order (hm : Moves op r p p') :
    (handles p'.pending).Sublist (handles p.pending) ∨ ∃ h priority n word,
      Requests op priority n word ∧
      Placed Priority.compareNew ⟨h, priority, .new false, word⟩ p.pending p'.pending := by
  cases hm with
  | enqueue hreq hA hle hplace => exact Or.inr ⟨_, _, _, _, hreq, hplace⟩
  | release hop hact | add hop hB hc hact | addTotal hop hB hc hact =>
    exact Or.inl (hact.sublist.map Entry.handle)
  | leave => exact Or.inl (((List.sublist_cons_self _ _).append_left _).map Entry.handle)
  | unblock hop hact =>
    exact Or.inl ((hact.sublist.trans (List.sublist_cons_self _ _)).map Entry.handle)
  | forgetTotal | forgetPermitsTotal => exact Or.inl (by simp)
  | _ => exact Or.inl (List.Sublist.refl _)

theorem Moves.unflagged (hm : Moves op r p p') (hen : p'.Enough)
    (hc : B.semaphoreTotal = true → p'.Conserved) (hu : p.Unflagged) : p'.Unflagged := by
  intro e he
  cases hm.pending_origin he with
  | kept h => exact hu e h
  | @oversized d h hB =>
    have hle := hen _ he
    rw [count_flag, ← hc hB, ← BitVec.le_def] at hle
    have hd : wantsEvict d = false := by simpa [bypassed, hB] using hu d h
    have hw : ¬wantsEvict (flag (oversized p'.total) d) = true := by
      rw [wantsEvict_oversized hB]
      rintro (hw | ⟨-, hlt⟩)
      · simp [hd] at hw
      · exact BitVec.not_lt.mpr hle hlt
    simp [bypassed, hw]
  | fresh => simp [bypassed, wantsEvict, Waiter.new]

theorem Requests.contends {q : P} {n word : Usize B} (hreq : Requests op q n word)
    (hop : op.contends priority = false) :
    B.semaphoreTotal = false ∧ Priority.compare q priority = .lt := by
  cases hreq <;> simpa [Op.contends, Ordering.isGE_iff_ne_lt] using hop

theorem Pool.Sorted.isGE (hs : p.Sorted) (hp : p.WF) {d : Queued B P}
    (hde : [d, e].Sublist p.pending) :
    (Priority.compare d.data.priority e.data.priority).isGE := by
  have hd := hp.unlocked d (hde.subset (by simp))
  have he := hp.unlocked e (hde.subset (by simp))
  rw [← compare_eq (hd.trans he.symm)]
  have hge := List.pairwise_pair.mp (hs.pending.sublist hde)
  exact hge

variable [LawfulPriority P]

theorem Pool.Sorted.first_isGE (hs : p.Sorted) (hp : p.WF) (he : e ∈ p.pending)
    (hB : B.semaphoreTotal = false)
    (hb : ∀ f ∈ p.pending.find? blocks, (Priority.compare priority f.data.priority).isGE) :
    (Priority.compare priority e.data.priority).isGE := by
  obtain ⟨f, t, hft⟩ := List.exists_cons_of_ne_nil (List.ne_nil_of_mem he)
  have hf := hb f (by simp [hft, blocks, hB])
  rw [hft] at he
  rcases List.mem_cons.mp he with rfl | het
  · exact hf
  · have hfe : [f, e].Sublist p.pending := by
      rw [hft]
      exact (List.singleton_sublist.mpr het).cons_cons f
    exact Std.TransCmp.isGE_trans hf (hs.isGE hp hfe)

/-- Nothing gets in front of a request that waits, unless a call contends with it. -/
theorem Moves.in_front (hm : Moves op r p p') (hp : p.WF) (hp' : p'.WF) (hs : p.Sorted)
    (hs' : p'.Sorted) (hu : p'.Unflagged) (he : e ∈ p.pending) (he' : e' ∈ p'.pending)
    (hh : e'.handle = e.handle) (hop : op.contends e.data.priority = false)
    (hx : InFront x e.handle (p'.held ++ p'.pending)) :
    InFront x e.handle (p.held ++ p.pending) := by
  rw [hp.inFront_iff (mem_handles he)]
  rw [hp'.inFront_iff (hh ▸ mem_handles he')] at hx
  rcases hx with hx | hx
  · obtain ⟨d, hd, rfl⟩ := List.mem_map.mp hx
    cases hm.held_origin hd with
    | kept h => exact Or.inl (mem_handles h)
    | recounted h => exact Or.inl (by simpa using mem_handles h)
    | asked h | oversized h =>
      rw [flag_handle]
      exact Or.inl (mem_handles h)
    | granted h hA hall =>
      have hde := (hall e' he').resolve_left (by simp [hu e' he'])
      exact Or.inr (hh ▸ hde.map Entry.handle)
    | fresh hA hpending hcr =>
      cases hcr with
      | serve hserves =>
        obtain ⟨n, word, hreq, -, hb⟩ := hserves
        obtain ⟨hB, hlt⟩ := hreq.contends hop
        exact absurd (hs.first_isGE hp he hB hb) (by simp [hlt])
      | split | splitWithPriority => cases hop
  · rcases hm.pending_order with hsub | ⟨y, q, n, word, hreq, hplace⟩
    · exact Or.inr (hx.trans hsub)
    · obtain ⟨a, b, hab, hab', -⟩ := hplace
      obtain ⟨-, hlt⟩ := hreq.contends hop
      rw [hab] at he
      rcases List.mem_append.mp he with he | he
      · obtain ⟨c, d, rfl⟩ := List.append_of_mem he
        have hn := hp.nodup_pending
        have hn' := hp'.nodup_pending
        rw [hab, List.append_assoc, List.cons_append] at hn ⊢
        rw [hab', List.append_assoc, List.cons_append] at hn' hx
        exact Or.inr ((inFront_middle hn).mpr ((inFront_middle hn').mp hx))
      · -- the new request would be in front, so that its priority would not be lower
        have hye : [⟨y, q, .new false, word⟩, e].Sublist p'.pending := by
          rw [hab']
          exact ((List.singleton_sublist.mpr he).cons_cons _).trans (List.sublist_append_right a _)
        have hge := hs'.isGE hp' hye
        simp [hlt] at hge

end Moves

section Runs

variable {Q : Type} [PriorityQueue Q (SemaphoreWaiter B P)]

/-- No queued request asks for more permits than are available or issued. -/
def Enough (s : System B Q) : Prop :=
  ∃ l, entries s.inner.queue = some l ∧
    ∀ e ∈ waiting l, (count e).toNat ≤ s.inner.available.toNat + permits (l.filter hasLock)

def HasPermits (h : Handle) (s : System B Q) : Prop :=
  Has s fun e => e.handle = h ∧ hasLock e = true

/-- An infinite run in which requests can be met and whoever has permits leaves at some time. -/
structure Circulating (capacity : Usize B) (run : ℕ → System B Q) (ops : ℕ → Op B P) : Prop where
  start : run 0 = System.start (new capacity)
  step : ∀ n, after call (run n) (ops n) = some (run (n + 1))
  positive : ∀ n, (ops n).Positive
  enough : ∀ n, Enough (run n)
  leaves : ∀ n h, HasPermits h (run n) → ∃ m ≥ n, h ∉ handles (run m).owned

variable [LawfulQueue Q (SemaphoreWaiter B P)] {capacity : Usize B} {run : ℕ → System B Q}
  {ops : ℕ → Op B P} {s : System B Q} {n : ℕ}

theorem Holds.enough_iff (hs : Holds s p) : Enough s ↔ p.Enough := by
  rw [Enough, hs.exists_entries, hs.waiting, hs.filter_hasLock, hs.view.available]
  rfl

theorem Holds.hasPermits_iff (hs : Holds s p) : HasPermits h s ↔ h ∈ handles p.held := by
  rw [HasPermits, hs.has_iff]
  constructor
  · rintro ⟨e, he, rfl, hl⟩
    exact mem_handles (hs.mem_held he hl)
  · intro hh
    obtain ⟨e, he, rfl⟩ := List.mem_map.mp hh
    exact ⟨e, List.mem_append_left _ he, rfl, hs.view.wf.locked e he⟩

def front (h : Handle) (s : System B Q) : List Handle :=
  let hs := handles ((entries s.inner.queue).getD [])
  hs.filter fun x => [x, h].Sublist hs

theorem Holds.mem_front (hs : Holds s p) :
    x ∈ front h s ↔ InFront x h (p.held ++ p.pending) := by
  rw [front, hs.entries_eq, Option.getD_some, List.mem_filter, decide_eq_true_eq, InFront,
    and_iff_right_iff_imp]
  exact fun hx => hx.subset (by simp)

theorem Holds.front_nodup (hs : Holds s p) : (front h s).Nodup := by
  rw [front, hs.entries_eq]
  exact hs.view.wf.nodup_handles.filter _

variable [LawfulPriority P]

theorem Circulating.next (hr : Circulating capacity run ops) (hs : Holds (run n) p)
    (ha : p.Awake) (hu : p.Unflagged) : ∃ r p', Holds (run (n + 1)) p' ∧
      Moves (ops n) r p p' ∧ p'.Awake ∧ p'.Unflagged ∧ p'.Enough := by
  obtain ⟨r, s', p', hc, hs', hm⟩ := hs.call (ops n)
  obtain rfl : s' = run (n + 1) := Option.some.inj ((after_eq hc).symm.trans (hr.step n))
  have hen := hs'.enough_iff.mp (hr.enough (n + 1))
  exact ⟨r, p', hs', hm, hm.awake (hr.positive n) hs.view.wf ha,
    hm.unflagged hen hs'.view.conserved hu, hen⟩

theorem Circulating.holds (hr : Circulating capacity run ops) (n : ℕ) :
    ∃ p, Holds (run n) p ∧ p.Awake ∧ p.Unflagged ∧ p.Enough := by
  induction n with
  | zero =>
    have hs : Holds (run 0) (Pool.start capacity) := hr.start ▸ Holds.start capacity
    exact ⟨_, hs, .start capacity, by simp [Pool.Unflagged, Pool.start],
      hs.enough_iff.mp (hr.enough 0)⟩
  | succ n ih =>
    obtain ⟨p, hs, ha, hu, -⟩ := ih
    obtain ⟨r, p', hs', -, ha', hu', hen⟩ := hr.next hs ha hu
    exact ⟨p', hs', ha', hu', hen⟩

/-- A request waits, and can be met. -/
def Awaits (h : Handle) (priority : P) (s : System B Q) : Prop :=
  ∃ p, Holds s p ∧ p.Awake ∧ p.Unflagged ∧ p.Enough ∧
    ∃ e ∈ p.pending, e.handle = h ∧ e.data.priority = priority

theorem Circulating.awaits_step (hr : Circulating capacity run ops)
    (hw : Awaits h priority (run n)) (hq : h ∈ handles (run (n + 1)).owned)
    (hl : ¬HasPermits h (run (n + 1))) : Awaits h priority (run (n + 1)) ∧
      ((ops n).contends priority = false → front h (run (n + 1)) ⊆ front h (run n)) := by
  obtain ⟨p, hs, ha, hu, -, e, he, rfl, rfl⟩ := hw
  obtain ⟨r, p', hs', hm, ha', hu', hen'⟩ := hr.next hs ha hu
  rw [hs'.hasPermits_iff] at hl
  rw [hs'.mem_owned, handles_append, List.mem_append] at hq
  obtain ⟨e', he', hh⟩ := List.mem_map.mp (hq.resolve_left hl)
  have hsame : ∀ d ∈ p.pending, d.handle = e.handle → d = e := fun d hd hde =>
    List.inj_on_of_nodup_map hs.view.wf.nodup_pending hd he hde
  have hprio : e'.data.priority = e.data.priority := by
    cases hm.pending_origin he' with
    | kept hd => rw [hsame e' hd hh]
    | oversized hd =>
      rw [flag_handle] at hh
      rw [flag_priority, hsame _ hd hh]
    | fresh hA =>
      obtain rfl : _ = e.handle := hh
      exact absurd (hs.view.wf.pending_mem he) hA
  refine ⟨⟨p', hs', ha', hu', hen', e', he', hh, hprio⟩, fun hop x hx => ?_⟩
  rw [hs'.mem_front] at hx
  rw [hs.mem_front]
  exact hm.in_front hs.view.wf hs'.view.wf ha.sorted ha'.sorted hu' he he' hh hop hx

/-- A request is granted its permits or given up once no more calls contend with it. -/
theorem Circulating.reaches (hr : Circulating capacity run ops) {N : ℕ}
    (hw : Awaits h priority (run n)) (hN : ∀ m ≥ N, (ops m).contends priority = false) :
    ∃ m ≥ n, h ∉ handles (run m).owned ∨ HasPermits h (run m) := by
  by_contra hnot
  have hq : ∀ m ≥ n, h ∈ handles (run m).owned :=
    fun m hm => by_contra fun h => hnot ⟨m, hm, Or.inl h⟩
  have hl : ∀ m ≥ n, ¬HasPermits h (run m) := fun m hm h => hnot ⟨m, hm, Or.inr h⟩
  have hwait : ∀ m ≥ n, Awaits h priority (run m) := by
    intro m hm
    induction m, hm using Nat.le_induction with
    | base => exact hw
    | succ m hm ih =>
      have hm' : m + 1 ≥ n := Nat.le_succ_of_le hm
      exact (hr.awaits_step ih (hq (m + 1) hm') (hl (m + 1) hm')).1
  have hnd : ∀ m ≥ max n N, (front h (run m)).Nodup := by
    intro m hm
    obtain ⟨p, hs, -⟩ := hwait m (le_of_max_le_left hm)
    exact hs.front_nodup
  have hsub : ∀ m ≥ max n N, front h (run (m + 1)) ⊆ front h (run m) := by
    intro m hm
    have hm' : m + 1 ≥ n := Nat.le_succ_of_le (le_of_max_le_left hm)
    exact (hr.awaits_step (hwait m (le_of_max_le_left hm)) (hq (m + 1) hm') (hl (m + 1) hm')).2
      (hN m (le_of_max_le_right hm))
  obtain ⟨M, hM, hc⟩ := members_settle hnd hsub
  obtain ⟨p, hs, ha, hu, hen, e, he, rfl, rfl⟩ := hwait M (le_of_max_le_left hM)
  -- a holder would be in front of the request for ever
  have hheld : p.held = [] := by
    by_contra hne
    obtain ⟨d, t, hdt⟩ := List.exists_cons_of_ne_nil hne
    have hd : d.handle ∈ handles p.held := by simp [hdt]
    have hfront : d.handle ∈ front e.handle (run M) := by
      rw [hs.mem_front, hs.view.wf.inFront_iff (mem_handles he)]
      exact Or.inl hd
    obtain ⟨m, hm, hgone⟩ := hr.leaves M d.handle (hs.hasPermits_iff.mpr hd)
    obtain ⟨p', hs', -⟩ := hr.holds m
    have hin := (hs'.mem_front.mp ((hc m hm _).mpr hfront)).subset (List.mem_cons_self)
    exact hgone (hs'.mem_owned.mpr hin)
  -- so that all permits are available, and enough for the first one that waits
  obtain ⟨w, t, hwt⟩ := List.exists_cons_of_ne_nil (List.ne_nil_of_mem he)
  have hmem : w ∈ p.pending := by simp [hwt]
  have hlt := (ha.head w (by simp [hwt])).resolve_left (by simp [hu w hmem])
  have hle := hen w hmem
  rw [hheld] at hle
  rw [BitVec.lt_def] at hlt
  simp only [permits, List.map_nil, List.sum_nil] at hle
  omega

end Runs

/-- A queued request is granted its permits, or its caller gives it up, if all holders leave at some
time, requests ask for no more than there is, and only finitely many calls contend with it. -/
theorem permits_reached (k : QueueKind) {B : Build} {P : Type} [Priority P] [LawfulPriority P]
    {capacity : Usize B} {run : ℕ → System B (k.Queue (SemaphoreWaiter B P))} {ops : ℕ → Op B P}
    (hr : Circulating capacity run ops) {n N : ℕ} {l : List (Queued B P)} {e : Queued B P}
    (hl : entries (run n).inner.queue = some l) (he : e ∈ waiting l)
    (hN : ∀ m ≥ N, (ops m).contends e.data.priority = false) :
    ∃ m ≥ n, e.handle ∉ handles (run m).owned ∨ HasPermits e.handle (run m) := by
  obtain ⟨p, hs, ha, hu, hen⟩ := hr.holds n
  obtain rfl := Option.some.inj (hs.entries_eq.symm.trans hl)
  rw [hs.waiting] at he
  exact hr.reaches ⟨p, hs, ha, hu, hen, e, he, rfl, rfl⟩ hN

/-- Two permits are returned, a request for one gets it and is dropped, and then nothing happens. -/
def circulating : List (Op Build.full ℕ) :=
  [.acquireMany 0 2, .acquireMany 0 1, .drop 0, .cancel 48]

def circulatingRun (n : ℕ) :
    System Build.full (QueueKind.dualArena.Queue (SemaphoreWaiter Build.full ℕ)) :=
  (run (after call) (System.start (new 2)) (circulating.take n)).getD (System.start (new 2))

theorem circulatingRun_add (n : ℕ) : circulatingRun (n + 4) = circulatingRun 4 := by
  rw [circulatingRun, List.take_of_length_le (Nat.le_add_left 4 n)]
  rfl

theorem circulates : Circulating 2 circulatingRun
    fun n => circulating[n]?.getD .availablePermits where
  start := rfl
  step n := by
    match n with
    | 0 | 1 | 2 | 3 => rfl
    | n + 4 =>
      have h : after call (circulatingRun 4) .availablePermits = some (circulatingRun 4) := rfl
      rw [Nat.add_right_comm, circulatingRun_add, circulatingRun_add]
      exact h
  positive n := by
    match n with
    | 0 | 1 | 2 | 3 => simp [circulating, Op.Positive, Op.request]
    | n + 4 => simp [circulating, Op.Positive, Op.request]
  enough n := by
    match n with
    | 0 => exact ⟨_, rfl, by decide⟩
    | 1 => exact ⟨_, rfl, by decide⟩
    | 2 => exact ⟨_, rfl, by decide⟩
    | 3 => exact ⟨_, rfl, by decide⟩
    | n + 4 =>
      rw [circulatingRun_add]
      exact ⟨_, rfl, by decide⟩
  leaves n h _ := by
    refine ⟨n + 4, Nat.le_add_right n 4, ?_⟩
    have hn : (circulatingRun 4).owned = [] := rfl
    rw [circulatingRun_add, hn]
    exact List.not_mem_nil

theorem permits_reached_circulating :
    ∃ m ≥ 2, 48 ∉ handles (circulatingRun m).owned ∨ HasPermits 48 (circulatingRun m) := by
  have hl : entries (circulatingRun 2).inner.queue =
      some [⟨0, 0, .new true, 2⟩, ⟨48, 0, .new false, 1⟩] := rfl
  have he : (⟨48, 0, .new false, 1⟩ : Queued Build.full ℕ) ∈
      waiting [⟨0, 0, .new true, 2⟩, ⟨48, 0, .new false, 1⟩] := by
    simp [waiting, hasLock, Waiter.new]
  refine permits_reached .dualArena circulates hl he (N := 4) fun m hm => ?_
  obtain ⟨n, rfl⟩ := Nat.exists_eq_add_of_le' hm
  rfl

end PriorityLock.Semaphore
