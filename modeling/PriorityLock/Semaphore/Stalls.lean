import PriorityLock.Semaphore.Shape

/-! # Nobody sleeps on free permits

After every call the first waiting entry is flagged or asks for more permits
than are available. Each walk ends at such an entry, and every other move
leaves the first waiting entry or takes permits away.
-/

namespace PriorityLock.Semaphore

open Placement Transition PriorityQueue

variable {B : Build} {P : Type} {op : Op B P} {r : Result B} {p p' : Pool B P}
  {e f : Queued B P} {priority : P} {n : Usize B}

section Walk

theorem bypassed_flag {cond : SemaphoreWaiter B P → Bool} (h : bypassed e = true) :
    bypassed (flag cond e) = true := by
  obtain ⟨hB, hw⟩ := (Bool.and_eq_true _ _).mp h
  exact (Bool.and_eq_true _ _).mpr ⟨hB, wantsEvict_flag hw⟩

variable [Priority P] {held skipped rest held' pending' : List (Queued B P)}
  {available available' : Usize B}

/-- The walk ends behind the last entry or at one that it cannot afford. -/
theorem Activates.stops (h : Activates held skipped rest available held' pending' available')
    (hs : ∀ f ∈ skipped, bypassed f = true) :
    ∀ w ∈ pending'.head?, bypassed w = true ∨ available' < count w := by
  induction h with
  | finish => exact fun w hw => Or.inl (hs w (List.mem_of_mem_head? hw))
  | @stop held skipped rest e available hlt hby =>
    intro w hw
    cases skipped with
    | nil =>
      obtain rfl : e = w := by simpa using hw
      exact Or.inr hlt
    | cons f skipped =>
      obtain rfl : f = w := by simpa using hw
      exact Or.inl (hs f (by simp))
  | skip hlt hby _ ih =>
    apply ih
    intro f hf
    rcases List.mem_append.mp hf with hf | hf
    · exact hs f hf
    · rw [List.mem_singleton.mp hf]
      exact hby
  | grant _ _ _ ih => exact ih hs

end Walk

section Stalls

/-- An acquire asks for a permit at least. -/
def Op.Positive (op : Op B P) : Prop := ∀ request ∈ op.request, request.2 ≠ 0

theorem Requests.request {word : Usize B} (h : Requests op priority n word) :
    op.request = some (priority, n) := by
  cases h <;> rfl

theorem lt_of_sub {m w : Usize B} (hle : n ≤ m) (h : m < w) : m - n < w := by
  have hs := toNat_sub_of_le hle
  have hlt := BitVec.lt_def.mp h
  apply BitVec.lt_def.mpr
  omega

theorem awake_flagWhere {cond : SemaphoreWaiter B P → Bool} {l : List (Queued B P)}
    {available : Usize B} (h : ∀ w ∈ l.head?, bypassed w = true ∨ available < count w) :
    ∀ w ∈ (flagWhere cond l).head?, bypassed w = true ∨ available < count w := by
  intro w hw
  rw [flagWhere, List.head?_map] at hw
  obtain ⟨e, he, rfl⟩ := Option.mem_map.mp hw
  rw [count_flag]
  exact (h e he).imp_left bypassed_flag

theorem positive_flagWhere {cond : SemaphoreWaiter B P → Bool} {l : List (Queued B P)}
    (h : ∀ e ∈ l, count e ≠ 0) : ∀ e ∈ flagWhere cond l, count e ≠ 0 := by
  intro e he
  obtain ⟨d, hd, rfl⟩ := List.mem_map.mp he
  rw [count_flag]
  exact h d hd

variable [Priority P]

/-- Nobody waits for permits that are available. -/
structure Pool.Awake (p : Pool B P) : Prop where
  sorted : p.Sorted
  positive : ∀ e ∈ p.pending, count e ≠ 0
  head : ∀ w ∈ p.pending.head?, bypassed w = true ∨ p.available < count w

theorem Pool.Awake.start (capacity : Usize B) :
    (Pool.start capacity : Pool B P).Awake :=
  ⟨⟨.nil, .nil⟩, by simp [Pool.start], by simp [Pool.start]⟩

variable [LawfulPriority P]

/-- A new entry that comes first is above the one that kept it waiting. -/
theorem placed_head {x : Queued B P} {l l' : List (Queued B P)} {available : Usize B}
    (h : Placed Priority.compareNew x l l') (hd : Descending Priority.compare l)
    (hl : ∀ w ∈ l.head?, bypassed w = true ∨ available < count w)
    (hx : count x ≤ available → ∃ f ∈ l, Priority.compare x f = .lt) :
    ∀ w ∈ l'.head?, bypassed w = true ∨ available < count w := by
  have hd' := h.descending (LawfulPriority.agree_entry x l) hd
  obtain ⟨a, b, rfl, rfl, -, -⟩ := h
  cases a with
  | cons e a => exact hl
  | nil =>
    intro w hw
    obtain rfl : x = w := by simpa using hw
    refine Or.inr (BitVec.not_le.mp fun hle => ?_)
    obtain ⟨f, hf, hlt⟩ := hx hle
    have hge := (List.pairwise_cons.mp hd').1 f hf
    simp [hlt] at hge

theorem Moves.awake (h : Moves op r p p') (hop : op.Positive) (hp : p.WF) (ha : p.Awake) :
    p'.Awake := by
  have hsorted := h.sorted ha.sorted
  obtain ⟨hs, hpos, hh⟩ := ha
  refine ⟨hsorted, ?_, ?_⟩
  · cases h with
    | acquire | discard | forget | split | merge | forgetPermits | unchanged => exact hpos
    | enqueue hreq hA hle hplace =>
      intro e he
      rcases List.mem_cons.mp (hplace.perm.mem_iff.mp he) with rfl | he
      · rw [hreq.count]
        exact hop _ hreq.request
      · exact hpos e he
    | leave =>
      exact fun e he => hpos e ((List.sublist_cons_self _ _).append_left _ |>.subset he)
    | release hop' hact | add hop' hB hc hact | addTotal hop' hB hc hact =>
      exact fun e he => hpos e (hact.sublist.subset he)
    | unblock hop' hact =>
      exact fun e he => hpos e (List.mem_cons_of_mem _ (hact.sublist.subset he))
    | forgetTotal | forgetPermitsTotal => exact positive_flagWhere hpos
  · cases h with
    | acquire hreq hA hle => exact fun w hw => (hh w hw).imp_right (lt_of_sub hle)
    | @enqueue _ q n word _ _ h _ _ _ _ hreq hA hle hplace =>
      refine placed_head hplace hs.pending hh fun hc => ?_
      rw [hreq.count] at hc
      obtain ⟨f, hf, hlt⟩ := hle hc
      have hm := List.mem_of_find?_eq_some hf
      have hx : hasLock (⟨h, q, .new false, word⟩ : Queued B P) = hasLock f :=
        (hp.unlocked f hm).symm
      exact ⟨f, hm, (compare_eq hx).trans hlt⟩
    | release hop' hact | unblock hop' hact | add hop' hB hc hact | addTotal hop' hB hc hact =>
      exact hact.stops (by simp)
    | @leave _ _ _ available e held a b _ hop' ha =>
      intro w hw
      rcases ha with hne | rfl
      · obtain ⟨f, a, rfl⟩ := List.exists_cons_of_ne_nil hne
        exact hh w hw
      · have hm : w ∈ a ++ e :: b :=
          (List.sublist_cons_self e b).append_left a |>.subset (List.mem_of_mem_head? hw)
        exact Or.inr ((BitVec.pos_iff_ne_zero _).mpr (hpos w hm))
    | forgetPermits hB hle => exact fun w hw => (hh w hw).imp_right (lt_of_sub hle)
    | discard | forget | split | merge | unchanged => exact hh
    | forgetTotal => exact awake_flagWhere hh
    | forgetPermitsTotal hB hne hle hle' =>
      exact awake_flagWhere fun w hw => (hh w hw).imp_right (lt_of_sub hle)

end Stalls

section Runs

def waiting (l : List (Queued B P)) : List (Queued B P) := l.filter fun e => !hasLock e

theorem waiting_eq {held pending : List (Queued B P)} (hl : ∀ e ∈ held, hasLock e = true)
    (hu : ∀ e ∈ pending, hasLock e = false) : waiting (held ++ pending) = pending := by
  have hh : held.filter (fun e => !hasLock e) = [] :=
    List.filter_eq_nil_iff.mpr fun e he => by simp [hl e he]
  have hp : pending.filter (fun e => !hasLock e) = pending :=
    List.filter_eq_self.mpr fun e he => by simp [hu e he]
  rw [waiting, List.filter_append, hh, hp, List.nil_append]

variable {Q : Type} [Priority P] [PriorityQueue Q (SemaphoreWaiter B P)]
  [LawfulQueue Q (SemaphoreWaiter B P)]

theorem Holds.waiting {s : System B Q} (hs : Holds s p) :
    waiting (p.held ++ p.pending) = p.pending :=
  waiting_eq hs.view.wf.locked hs.view.wf.unlocked

end Runs

/-- After every run of calls whose acquires ask for permits, the first waiting entry is flagged
or asks for more than is available. -/
theorem no_stalled_waiter (k : QueueKind) {B : Build} {P : Type} [Priority P] [LawfulPriority P]
    (capacity : Usize B) (ops : List (Op B P)) (hops : ∀ op ∈ ops, op.Positive) :
    ∃ (s : System B (k.Queue (SemaphoreWaiter B P))) (l : List (Queued B P)),
      run (after call) (System.start (new capacity)) ops = some s ∧
      entries s.inner.queue = some l ∧
      ∀ w ∈ (waiting l).head?, (B.semaphoreTotal = true ∧ wantsEvict w = true) ∨
        s.inner.available < count w := by
  have hmove : ∀ {op : Op B P} {r p p'}, op.Positive → Moves op r p p' → p.WF → p.Awake →
      p'.Awake := fun hop hm hp ha => hm.awake hop hp ha
  obtain ⟨s, p, hr, hs, ha⟩ := run_moves (Q := k.Queue (SemaphoreWaiter B P)) capacity
    (Pool.Awake.start capacity) hmove hops
  refine ⟨s, _, hr, hs.entries_eq, ?_⟩
  rw [hs.waiting, hs.view.available]
  intro w hw
  exact (ha.head w hw).imp_left (Bool.and_eq_true _ _).mp

/-- The request in front is cancelled, and the one behind it still asks for too much. -/
theorem no_stalled_waiter_after_cancel :
    ∃ (s : System Build.full (QueueKind.dualArena.Queue (SemaphoreWaiter Build.full ℕ)))
      (l : List (Queued Build.full ℕ)) (w : Queued Build.full ℕ),
      run (after call) (System.start (new 5))
        [.acquireMany 1 4, .acquireMany 3 2, .acquireMany 2 3, .cancel 48] = some s ∧
      entries s.inner.queue = some l ∧ (waiting l).head? = some w ∧
      ((Build.full.semaphoreTotal = true ∧ wantsEvict w = true) ∨
        s.inner.available < count w) := by
  obtain ⟨s, l, hr, hl, hw⟩ := no_stalled_waiter .dualArena (B := Build.full) (5 : Usize Build.full)
    [.acquireMany 1 4, .acquireMany 3 2, .acquireMany 2 3, .cancel 48]
    (by simp [Op.Positive, Op.request])
  obtain ⟨s₁, l₁, w, hr₁, hl₁, hw₁⟩ : ∃ s₁ l₁ w,
      run (after call) (System.start (new 5) :
          System Build.full (QueueKind.dualArena.Queue (SemaphoreWaiter Build.full ℕ)))
        [.acquireMany 1 4, .acquireMany 3 2, .acquireMany 2 3, .cancel 48] = some s₁ ∧
      entries s₁.inner.queue = some l₁ ∧ (waiting l₁).head? = some w := ⟨_, _, _, rfl, rfl, rfl⟩
  obtain rfl := Option.some.inj (hr.symm.trans hr₁)
  obtain rfl := Option.some.inj (hl.symm.trans hl₁)
  exact ⟨s, l, w, hr, hl, hw₁, hw w hw₁⟩

end PriorityLock.Semaphore
