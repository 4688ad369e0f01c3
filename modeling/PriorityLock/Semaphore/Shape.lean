import PriorityLock.Semaphore.Conservation

/-! # The shape of a semaphore's queue

Entries with the lock come first. They and the pending ones are descending by
priority, and pending entries of equal priority are ordered as the priority's
own comparison of new entries says: by count, by arrival or by reverse arrival.
-/

namespace PriorityLock.Semaphore

open Placement Transition PriorityQueue

variable {B : Build} {P : Type} {e f x : Queued B P} {a b l l' : List (Queued B P)}
  {A : List Handle} {h : Handle}

section Rank

variable {cond : SemaphoreWaiter B P → Bool} {word : Usize B}

/-- What the order of queued entries depends on. -/
def rank (e : Queued B P) : SemaphoreWaiter B P := ⟨e.data.priority, .new (hasLock e), 0⟩

@[simp] theorem rank_flag : rank (flag cond e) = rank e := by simp [rank]

@[simp] theorem rank_recount : rank (recount e word) = rank e := by simp [rank]

@[simp] theorem map_rank_flagWhere : (flagWhere cond l).map rank = l.map rank := by
  rw [flagWhere, List.map_map]
  exact List.map_congr_left fun e _ => rank_flag

variable [Priority P]

/-- Entries that change neither lock nor priority stay descending. -/
theorem descending_of_rank (h : l'.map rank = l.map rank) (hd : Descending Priority.compare l) :
    Descending Priority.compare l' := by
  have hr : (l.map rank).Pairwise fun a b => (Priority.compare a b).isGE := List.pairwise_map.mpr hd
  rw [← h] at hr
  exact List.pairwise_map.mp hr

theorem descending_flagWhere (hd : Descending Priority.compare l) :
    Descending Priority.compare (flagWhere cond l) :=
  descending_of_rank map_rank_flagWhere hd

theorem descending_recount (hd : Descending Priority.compare (a ++ e :: b)) :
    Descending Priority.compare (a ++ recount e word :: b) :=
  descending_of_rank (by simp) hd

end Rank

variable [Priority P]

section Sorted

variable [LawfulPriority P] {op : Op B P} {r : Result B} {p p' : Pool B P}

theorem Activates.sorted {held skipped rest held' pending' : List (Queued B P)}
    {available available' : Usize B}
    (h : Activates held skipped rest available held' pending' available')
    (hd : Descending Priority.compare held) : Descending Priority.compare held' := by
  induction h with
  | finish | stop => exact hd
  | skip _ _ _ ih => exact ih hd
  | grant _ hs _ ih => exact ih (hs.descending (LawfulPriority.agree_entry _ _) hd)

/-- The held and the pending entries are each descending. -/
structure Pool.Sorted (p : Pool B P) : Prop where
  held : Descending Priority.compare p.held
  pending : Descending Priority.compare p.pending

theorem Moves.sorted (h : Moves op r p p') (hp : p.Sorted) : p'.Sorted := by
  obtain ⟨hh, hq⟩ := hp
  cases h with
  | acquire hreq hA hle hb hplace =>
    have hf := hplace.descending (LawfulPriority.agree_entry _ _) (descending_flagWhere hh)
    exact ⟨hf, hq⟩
  | enqueue hreq hA hle hplace =>
    exact ⟨descending_flagWhere hh, hplace.descending (LawfulPriority.agree_entry _ _) hq⟩
  | release hop hact => exact ⟨hact.sorted hh.erase, hq.sublist hact.sublist⟩
  | discard | forget => exact ⟨hh.erase, hq⟩
  | leave => exact ⟨hh, hq.erase⟩
  | unblock hop hact =>
    exact ⟨hact.sorted hh, hq.sublist (hact.sublist.trans (List.sublist_cons_self _ _))⟩
  | forgetTotal =>
    constructor
    · exact descending_of_rank (by simp) hh.erase
    · exact descending_flagWhere hq
  | split hop hA hlt hplace =>
    have hr := hplace.descending (LawfulPriority.agree_entry _ _) (descending_recount hh)
    exact ⟨hr, hq⟩
  | merge =>
    exact ⟨(descending_recount hh).sublist List.filter_sublist, hq⟩
  | add hop hB hc hact | addTotal hop hB hc hact =>
    exact ⟨hact.sorted hh, hq.sublist hact.sublist⟩
  | forgetPermits | unchanged => exact ⟨hh, hq⟩
  | forgetPermitsTotal => exact ⟨descending_flagWhere hh, descending_flagWhere hq⟩

end Sorted

section Ties

variable {tie : List Handle → Queued B P → Queued B P → Prop}

/-- Entries of equal priority are in some order, which may look at the arrivals. -/
def Ties (tie : List Handle → Queued B P → Queued B P → Prop) (A : List Handle)
    (l : List (Queued B P)) : Prop :=
  l.Pairwise fun e f => Priority.compare e f = .eq → tie A e f

/-- An order of ties that a priority establishes: other moves respect it, and a new
pending entry is placed by it. -/
structure TieRule (tie : List Handle → Queued B P → Queued B P → Prop) : Prop where
  flag : ∀ {A e f} (cond : SemaphoreWaiter B P → Bool), tie A e f →
    tie A (flag cond e) (flag cond f)
  concat : ∀ {A e f} (h : Handle), tie A e f → tie (A ++ [h]) e f
  filter : ∀ {A e f h}, tie A e f → e.handle ≠ h → f.handle ≠ h → tie (A.filter (· ≠ h)) e f
  place : ∀ {A x l l'}, hasLock x = false → (∀ e ∈ l, hasLock e = false) →
    (∀ e ∈ l, e.handle ∈ A) → Descending Priority.compare l → Ties tie A l →
    Placed Priority.compareNew x l l' → Ties tie (A ++ [x.handle]) l'

theorem Ties.sublist (h : Ties tie A l) (hs : l'.Sublist l) : Ties tie A l' :=
  List.Pairwise.sublist hs h

theorem TieRule.flagWhere (ht : TieRule tie) {cond : SemaphoreWaiter B P → Bool}
    (h : Ties tie A l) : Ties tie A (flagWhere cond l) := by
  refine List.pairwise_map.mpr (h.imp ?_)
  intro e f hef heq
  have he : rank (Semaphore.flag cond e) = rank e := rank_flag
  have hf : rank (Semaphore.flag cond f) = rank f := rank_flag
  have hc : Priority.compare (rank e) (rank f) = .eq := by
    rw [← he, ← hf]
    exact heq
  exact ht.flag cond (hef hc)

/-- An entry that leaves takes its handle from the arrivals. -/
theorem TieRule.remove (ht : TieRule tie) (h : Ties tie A l) (hl : ∀ e ∈ l, e.handle ≠ x.handle) :
    Ties tie (A.filter (· ≠ x.handle)) l := by
  refine List.Pairwise.imp_of_mem ?_ h
  intro e f he hf hef heq
  exact ht.filter (hef heq) (hl e he) (hl f hf)

theorem TieRule.arrive (ht : TieRule tie) (h : Ties tie A l) (x : Handle) :
    Ties tie (A ++ [x]) l :=
  List.Pairwise.imp (fun hef heq => ht.concat x (hef heq)) h

variable {op : Op B P} {r : Result B} {p p' : Pool B P}

theorem Moves.ties (ht : TieRule tie) (h : Moves op r p p') (hp : p.WF) (hs : p.Sorted)
    (hd : Ties tie p.arrivals p.pending) : Ties tie p'.arrivals p'.pending := by
  have hw := h.wf hp
  have hne : ∀ {A : List Handle} {y : Handle}, p'.arrivals = A.filter (· ≠ y) →
      ∀ e ∈ p'.pending, e.handle ≠ y := by
    intro A y hA e he
    have hf := hw.pending_mem he
    rw [hA] at hf
    exact of_decide_eq_true (List.mem_filter.mp hf).2
  cases h with
  | acquire | split => exact ht.arrive hd _
  | enqueue hreq hA hle hplace =>
    exact ht.place rfl hp.unlocked (fun _ he => hp.pending_mem he) hs.pending hd hplace
  | release hop hact => exact ht.remove (hd.sublist hact.sublist) (hne rfl)
  | discard | forget | merge => exact ht.remove hd (hne rfl)
  | leave =>
    exact ht.remove (hd.sublist ((List.sublist_cons_self _ _).append_left _)) (hne rfl)
  | unblock hop hact =>
    exact ht.remove (hd.sublist (hact.sublist.trans (List.sublist_cons_self _ _))) (hne rfl)
  | forgetTotal => exact ht.remove (ht.flagWhere hd) (hne rfl)
  | add hop hB hc hact | addTotal hop hB hc hact => exact hd.sublist hact.sublist
  | forgetPermits | unchanged => exact hd
  | forgetPermitsTotal => exact ht.flagWhere hd

end Ties

section Rules

theorem trivial_rule : TieRule fun _ (_ _ : Queued B P) => True where
  flag _ _ := trivial
  concat _ _ := trivial
  filter _ _ _ := trivial
  place _ _ _ _ _ _ := List.pairwise_of_forall fun _ _ _ => trivial

def byCount (_ : List Handle) (e f : Queued B P) : Prop := count e ≤ count f

def byArrival (A : List Handle) (e f : Queued B P) : Prop := [e.handle, f.handle].Sublist A

def byReverseArrival (A : List Handle) (e f : Queued B P) : Prop := byArrival A f e

/-- Priorities first, then lower counts. -/
def lexCompare : Queued B P → Queued B P → Ordering :=
  compareLex Priority.compare fun e f => compare (count f).toNat (count e).toNat

instance [LawfulPriority P] : Std.TransCmp (lexCompare (B := B) (P := P)) :=
  have := transCmp_comap (fun m n : ℕ => compare n m) fun e : Queued B P => (count e).toNat
  inferInstanceAs (Std.TransCmp (compareLex _ _))

theorem compareNew_eq_lex [DefaultCompareNew P] (he : hasLock e = false) (hf : hasLock f = false) :
    Priority.compareNew e f = lexCompare e f := by
  rw [compareNew_pending he hf, DefaultCompareNew.eq, ← compare_eq (he.trans hf.symm),
    Nat.compare_swap]
  rfl

theorem lexCompare_isGE : (lexCompare e f).isGE ↔
    (Priority.compare e f).isGE ∧ (Priority.compare e f = .eq → byCount A e f) := by
  unfold lexCompare compareLex byCount
  cases Priority.compare e f <;> simp [BitVec.le_def, Ordering.isGE_iff_ne_lt, Nat.compare_eq_lt]

theorem byCount_rule [LawfulPriority P] [DefaultCompareNew P] :
    TieRule (byCount (B := B) (P := P)) where
  flag cond h := by simpa [byCount] using h
  concat _ h := h
  filter h _ _ := h
  place := by
    intro A x l l' hx hl _ hd ht hp
    have hlex : Descending lexCompare l :=
      List.Pairwise.imp (fun h => lexCompare_isGE.mpr h) (List.pairwise_and_iff.mpr ⟨hd, ht⟩)
    have hagree : Agree lexCompare Priority.compareNew x l := fun e he _ =>
      compareNew_eq_lex hx (hl e he)
    exact List.Pairwise.imp (fun h => (lexCompare_isGE.mp h).2) (hp.descending hagree hlex)

variable [LawfulPriority P]

theorem byArrival_rule [DefaultCompareNew P] : TieRule (byArrival (B := B) (P := FIFO P)) where
  flag cond h := by simpa [byArrival] using h
  concat x h := Before.concat h x
  filter h he hf := Before.filter h he hf
  place := by
    intro A x l l' hx hl hA hd ht hp
    have hn : ∀ e ∈ l, Priority.compareNew x e = (Priority.compare x e).then .lt := by
      intro e he
      rw [compareNew_pending hx (hl e he), FIFO.compareNew_eq, compare_eq (hx.trans (hl e he).symm)]
      cases Priority.compare x.data.priority e.data.priority <;> rfl
    have ht' : Ties byArrival (A ++ [x.handle]) l :=
      List.Pairwise.imp (fun h heq => Before.concat (h heq) _) ht
    exact hp.ties_last hd hn ht' fun e he => before_last (hA e he)

theorem byReverseArrival_rule [DefaultCompareNew P] :
    TieRule (byReverseArrival (B := B) (P := LIFO P)) where
  flag cond h := by simpa [byReverseArrival, byArrival] using h
  concat x h := Before.concat h x
  filter h he hf := Before.filter h hf he
  place := by
    intro A x l l' hx hl hA hd ht hp
    have hn : ∀ e ∈ l, Priority.compareNew x e = (Priority.compare x e).then .gt := by
      intro e he
      rw [compareNew_pending hx (hl e he), LIFO.compareNew_eq, compare_eq (hx.trans (hl e he).symm)]
      cases Priority.compare x.data.priority e.data.priority <;> rfl
    have ht' : Ties byReverseArrival (A ++ [x.handle]) l :=
      List.Pairwise.imp (fun h heq => Before.concat (h heq) _) ht
    exact hp.ties_first hd hn ht' fun f hf => before_last (hA f hf)

end Rules

section Runs

variable {Q : Type} [PriorityQueue Q (SemaphoreWaiter B P)]

/-- The queue is held entries, then pending ones, with their orders. -/
structure Shaped (tie : List Handle → Queued B P → Queued B P → Prop) (s : System B Q)
    (held pending : List (Queued B P)) : Prop where
  entries : entries s.inner.queue = some (held ++ pending)
  locked : ∀ e ∈ held, hasLock e = true
  unlocked : ∀ e ∈ pending, hasLock e = false
  held_descending : Descending Priority.compare (held.map fun e => e.data.priority)
  pending_descending : Descending Priority.compare (pending.map fun e => e.data.priority)
  ties : pending.Pairwise fun e f =>
    Priority.compare e.data.priority f.data.priority = .eq → tie (handles s.owned) e f

theorem descending_priorities {v : Bool} (hl : ∀ e ∈ l, hasLock e = v)
    (hd : Descending Priority.compare l) :
    Descending Priority.compare (l.map fun e => e.data.priority) := by
  refine List.pairwise_map.mpr (List.Pairwise.imp_of_mem ?_ hd)
  intro e f he hf hef
  rw [← compare_eq ((hl e he).trans (hl f hf).symm)]
  exact hef

variable [LawfulQueue Q (SemaphoreWaiter B P)] [LawfulPriority P]

theorem run_tied {tie : List Handle → Queued B P → Queued B P → Prop} (ht : TieRule tie)
    (capacity : Usize B) (ops : List (Op B P)) : ∃ s p,
    run (after call) (System.start (new capacity : SemaphoreInner B Q)) ops = some s ∧
      Holds s p ∧ p.Sorted ∧ Ties tie p.arrivals p.pending := by
  have hmove : ∀ {op : Op B P} {r p p'}, True → Moves op r p p' → p.WF →
      p.Sorted ∧ Ties tie p.arrivals p.pending → p'.Sorted ∧ Ties tie p'.arrivals p'.pending :=
    fun _ hm hp hi => ⟨hm.sorted hi.1, hm.ties ht hp hi.1 hi.2⟩
  exact run_moves (Q := Q) capacity ⟨⟨.nil, .nil⟩, .nil⟩ hmove fun _ _ => trivial

theorem run_shaped {tie : List Handle → Queued B P → Queued B P → Prop} (ht : TieRule tie)
    (capacity : Usize B) (ops : List (Op B P)) : ∃ s held pending,
    run (after call) (System.start (new capacity : SemaphoreInner B Q)) ops = some s ∧
      Shaped tie s held pending := by
  obtain ⟨s, p, hr, hs, hsorted, hties⟩ := run_tied (Q := Q) ht capacity ops
  have hw := hs.view.wf
  refine ⟨s, p.held, p.pending, hr, hs.entries_eq, hw.locked, hw.unlocked,
    descending_priorities hw.locked hsorted.held, descending_priorities hw.unlocked hsorted.pending,
    ?_⟩
  rw [← hs.arrivals]
  refine List.Pairwise.imp_of_mem ?_ hties
  intro e f he hf hef
  rw [← compare_eq ((hw.unlocked e he).trans (hw.unlocked f hf).symm)]
  exact hef

end Runs

/-- After every run over a builtin queue, entries with the lock come first, both parts are
descending, and pending ties are by count for a priority that does not decide them, by
arrival for `FIFO` and by reverse arrival for `LIFO`. -/
theorem queue_shape (k : QueueKind) (capacity : Usize B) :
    (∀ {P : Type} [Priority P] [LawfulPriority P] (ops : List (Op B P)),
      ∃ (s : System B (k.Queue (SemaphoreWaiter B P))) (held pending : List (Queued B P)),
        run (after call) (System.start (new capacity)) ops = some s ∧
        Shaped (fun _ _ _ => True) s held pending) ∧
    ∀ {P : Type} [Priority P] [LawfulPriority P] [DefaultCompareNew P],
      (∀ ops : List (Op B P),
        ∃ (s : System B (k.Queue (SemaphoreWaiter B P))) (held pending : List (Queued B P)),
          run (after call) (System.start (new capacity)) ops = some s ∧
          Shaped byCount s held pending) ∧
      (∀ ops : List (Op B (FIFO P)),
        ∃ (s : System B (k.Queue (SemaphoreWaiter B (FIFO P))))
          (held pending : List (Queued B (FIFO P))),
          run (after call) (System.start (new capacity)) ops = some s ∧
          Shaped byArrival s held pending) ∧
      ∀ ops : List (Op B (LIFO P)),
        ∃ (s : System B (k.Queue (SemaphoreWaiter B (LIFO P))))
          (held pending : List (Queued B (LIFO P))),
          run (after call) (System.start (new capacity)) ops = some s ∧
          Shaped byReverseArrival s held pending := by
  refine ⟨run_shaped trivial_rule capacity, fun {P} _ _ _ => ⟨?_, ?_, ?_⟩⟩
  · exact run_shaped byCount_rule capacity
  · exact run_shaped byArrival_rule capacity
  · exact run_shaped byReverseArrival_rule capacity

theorem queue_shape_fifo :
    ∃ (s : System Build.full (QueueKind.dualArena.Queue (SemaphoreWaiter Build.full (FIFO ℕ))))
      (held pending : List (Queued Build.full (FIFO ℕ))),
      run (after call) (System.start (new 2))
        [.acquireMany ⟨0⟩ 2, .acquireMany ⟨1⟩ 2, .acquireMany ⟨1⟩ 1, .drop 0] = some s ∧
      Shaped byArrival s held pending :=
  ((queue_shape _ 2).2).2.1 _

end PriorityLock.Semaphore
