import PriorityLock.Mutex.Exclusion

/-! # The order of grants

Behind the holder the entries of a mutex are descending, whatever the holder's
priority is, and ties are in the order that the priority decides. The lock is
handed to the first of them.
-/

namespace PriorityLock.Mutex

open Placement Transition PriorityQueue

variable {P : Type}

/-- The handles of the callers after a call, oldest first. -/
def Op.arrive : Op P → Result → List Handle → List Handle
  | .lock _, .acquired h, A | .lock _, .pending h, A | .tryLock _, .acquired h, A => A ++ [h]
  | .cancel h, .unit, A | .drop h, .unit, A => A.filter (· ≠ h)
  | _, _, A => A

theorem Op.arrive_release {op : Op P} {h : Handle} (hop : op.releases = some h)
    (A : List Handle) : op.arrive .unit A = A.filter (· ≠ h) := by
  cases op <;> simp_all [Op.releases, Op.arrive]

section Ties

variable [Priority P] {tie : List Handle → Entry (MutexWaiter P) → Entry (MutexWaiter P) → Prop}
  {A : List Handle} {e f x : Entry (MutexWaiter P)} {a b t t' l l' : List (Entry (MutexWaiter P))}

/-- Entries of equal priority are in some order, which may look at the arrivals. -/
def Ties (tie : List Handle → Entry (MutexWaiter P) → Entry (MutexWaiter P) → Prop)
    (A : List Handle) (l : List (Entry (MutexWaiter P))) : Prop :=
  l.Pairwise fun e f => Priority.compare e f = .eq → tie A e f

/-- An order of ties that a priority establishes for the entries behind the holder. -/
structure TieRule
    (tie : List Handle → Entry (MutexWaiter P) → Entry (MutexWaiter P) → Prop) : Prop where
  concat : ∀ {A e f} (h : Handle), tie A e f → tie (A ++ [h]) e f
  filter : ∀ {A e f h}, tie A e f → e.handle ≠ h → f.handle ≠ h → tie (A.filter (· ≠ h)) e f
  grant : ∀ {A e f}, tie A e f → tie A ⟨e.handle, e.data.start⟩ f
  place : ∀ {A x t t'}, (∀ e ∈ t, hasLock e = false) → (∀ e ∈ t, e.handle ∈ A) →
    Descending Priority.compare t → Ties tie A t → Placed Priority.compareNew x t t' →
    Ties tie (A ++ [x.handle]) t'

theorem trivial_rule : TieRule fun _ (_ _ : Entry (MutexWaiter P)) => True where
  concat _ _ := trivial
  filter _ _ _ := trivial
  grant _ := trivial
  place _ _ _ _ _ := List.pairwise_of_forall fun _ _ _ => trivial

theorem compareNew_waiting (he : hasLock e = false) :
    Priority.compareNew x e = Priority.compareNew x.data.priority e.data.priority :=
  if_neg (by simpa [hasLock] using he)

variable [LawfulPriority P]

/-- The pin of the holder is not part of the plain comparison. -/
instance : Std.TransCmp (Priority.compare (P := Entry (MutexWaiter P))) :=
  transCmp_comap (Priority.compare (P := P)) fun e : Entry (MutexWaiter P) => e.data.priority

theorem agree_waiting (hl : ∀ e ∈ t, hasLock e = false) :
    Agree Priority.compare Priority.compareNew x t := by
  intro e he hne
  rw [compareNew_waiting (hl e he)]
  exact LawfulPriority.agree x.data.priority e.data.priority hne

end Ties

section Rules

variable [Priority P] [LawfulPriority P] [DefaultCompareNew P]

theorem before_rule : TieRule (Before (D := MutexWaiter (FIFO P))) where
  concat x h := h.concat x
  filter h he hf := h.filter he hf
  grant h := h
  place := by
    intro A x t t' hl hA hd ht hp
    have hn : ∀ e ∈ t, Priority.compareNew x e = (Priority.compare x e).then .lt := by
      intro e he
      rw [compareNew_waiting (hl e he), FIFO.compareNew_eq]
      rfl
    have ht' : Ties Before (A ++ [x.handle]) t :=
      List.Pairwise.imp (fun h heq => (h heq).concat _) ht
    exact hp.ties_last hd hn ht' fun e he => before_last (hA e he)

theorem after_rule : TieRule fun A (e f : Entry (MutexWaiter (LIFO P))) => Before A f e where
  concat x h := h.concat x
  filter h he hf := h.filter hf he
  grant h := h
  place := by
    intro A x t t' hl hA hd ht hp
    have hn : ∀ e ∈ t, Priority.compareNew x e = (Priority.compare x e).then .gt := by
      intro e he
      rw [compareNew_waiting (hl e he), LIFO.compareNew_eq]
      rfl
    have ht' : Ties (fun A e f => Before A f e) (A ++ [x.handle]) t :=
      List.Pairwise.imp (fun h heq => (h heq).concat _) ht
    exact hp.ties_first hd hn ht' fun f hf => before_last (hA f hf)

end Rules

section Moves

variable [Priority P] [LawfulPriority P] {evict : Bool} {op : Op P} {r : Result}
  {tie : List Handle → Entry (MutexWaiter P) → Entry (MutexWaiter P) → Prop}
  {A : List Handle} {e : Entry (MutexWaiter P)} {a b t l l' : List (Entry (MutexWaiter P))}

/-- Behind the holder, whatever its priority, the order is the one of the priorities. -/
structure Ordered (tie : List Handle → Entry (MutexWaiter P) → Entry (MutexWaiter P) → Prop)
    (A : List Handle) (l : List (Entry (MutexWaiter P))) : Prop where
  descending : Descending Priority.compare l.tail
  ties : Ties tie A l.tail

omit [LawfulPriority P] in
theorem Ordered.sublist (h : Ordered tie A l) (hs : t.Sublist l.tail) :
    Descending Priority.compare t ∧ Ties tie A t :=
  ⟨h.descending.sublist hs, List.Pairwise.sublist hs h.ties⟩

omit [LawfulPriority P] in
/-- An entry that leaves takes its handle from the arrivals. -/
theorem TieRule.remove (ht : TieRule tie) (h : Ties tie A t)
    (hl : ∀ f ∈ t, f.handle ≠ e.handle) : Ties tie (A.filter (· ≠ e.handle)) t := by
  refine List.Pairwise.imp_of_mem ?_ h
  intro f g hf hg hfg heq
  exact ht.filter (hfg heq) (hl f hf) (hl g hg)

omit [Priority P] [LawfulPriority P] in
theorem tail_handOver (t : List (Entry (MutexWaiter P))) : (handOver t).tail = t.tail := by
  cases t <;> rfl

theorem Moves.ordered (ht : TieRule tie) (h : Moves evict op r l l') (hl : Led l)
    (hA : ∀ e ∈ l, e.handle ∈ A) (hn : (handles l).Nodup) (ho : Ordered tie A l) :
    Ordered tie (op.arrive r A) l' := by
  cases h with
  | lock_free => exact ⟨.nil, .nil⟩
  | lock_wait hh hp =>
    constructor
    · exact hp.descending (agree_waiting hl.2) ho.descending
    · exact ht.place hl.2 (fun f hf => hA f (List.mem_cons_of_mem _ hf)) ho.descending ho.ties hp
  | tryLock_free => exact ⟨.nil, .nil⟩
  | @release _ e t hop =>
    rw [Op.arrive_release hop]
    obtain ⟨hd, hts⟩ := ho.sublist (t := t.tail) (List.tail_sublist t)
    have hne : ∀ f ∈ t.tail, f.handle ≠ e.handle := by
      intro f hf hfe
      have hm := mem_handles (List.mem_of_mem_tail hf)
      exact (List.nodup_cons.mp hn).1 (hfe ▸ hm)
    constructor
    · rw [tail_handOver]
      exact hd
    · rw [tail_handOver]
      exact ht.remove hts hne
  | @leave _ e a b hop he =>
    rw [Op.arrive_release hop]
    obtain ⟨g, c, rfl⟩ := hl.ne_nil he
    obtain ⟨hd, hts⟩ := ho.sublist (t := c ++ b) ((List.sublist_cons_self e b).append_left c)
    have hne : ∀ f ∈ c ++ b, f.handle ≠ e.handle := by
      intro f hf hfe
      have hm : e.handle ∈ handles (g :: c ++ b) := by
        rw [← hfe]
        exact mem_handles (List.mem_cons_of_mem g hf)
      rw [handles_append, handles_cons] at hn
      rw [handles_append] at hm
      exact (List.nodup_cons.mp (List.nodup_middle.mp hn)).1 hm
    exact ⟨hd, ht.remove hts hne⟩
  | tryLock_held | poll_ready | poll_pending | evicted => exact ho
  | refused => cases op <;> exact ho

end Moves

section Calls

variable {Q : Type} [Priority P] [PriorityQueue Q (MutexWaiter P)] {evict : Bool}
  {s s' : System Q} {op : Op P} {r : Result}

theorem handles_call (h : call evict s op = some (r, s')) :
    handles s'.owned = op.arrive r (handles s.owned) := by
  cases op with
  | lock p =>
    obtain ⟨⟨⟨x, acquired⟩, m⟩, -, heq⟩ := Option.map_eq_some_iff.mp h
    cases acquired <;> obtain ⟨rfl, rfl⟩ := Prod.mk.inj heq <;> simp [Op.arrive]
  | tryLock p =>
    obtain ⟨⟨x, m⟩, -, heq⟩ := Option.map_eq_some_iff.mp h
    cases x <;> obtain ⟨rfl, rfl⟩ := Prod.mk.inj heq <;> simp [Op.arrive]
  | poll x =>
    rcases ho : lookup s.owned x with _ | ⟨y, _ | _⟩
    case some.future =>
      simp only [call, ho] at h
      obtain ⟨w, -, heq⟩ := Option.map_eq_some_iff.mp h
      split at heq <;> obtain ⟨rfl, rfl⟩ := Prod.mk.inj heq <;> simp [Op.arrive]
    all_goals
      obtain ⟨rfl, rfl⟩ : .refused = r ∧ s = s' := by simpa [call, ho] using h
      rfl
  | cancel x =>
    rcases ho : lookup s.owned x with _ | ⟨y, _ | _⟩
    case some.future =>
      simp only [call, ho] at h
      obtain ⟨m, -, heq⟩ := Option.map_eq_some_iff.mp h
      obtain ⟨rfl, rfl⟩ := Prod.mk.inj heq
      exact handles_without
    all_goals
      obtain ⟨rfl, rfl⟩ : .refused = r ∧ s = s' := by simpa [call, ho] using h
      rfl
  | drop x =>
    rcases ho : lookup s.owned x with _ | ⟨y, _ | _⟩
    case some.guard =>
      simp only [call, ho] at h
      obtain ⟨m, -, heq⟩ := Option.map_eq_some_iff.mp h
      obtain ⟨rfl, rfl⟩ := Prod.mk.inj heq
      exact handles_without
    all_goals
      obtain ⟨rfl, rfl⟩ : .refused = r ∧ s = s' := by simpa [call, ho] using h
      rfl
  | evicted x =>
    cases evict with
    | false =>
      obtain ⟨rfl, rfl⟩ : .refused = r ∧ s = s' := by simpa [call] using h
      rfl
    | true =>
      rcases ho : lookup s.owned x with _ | ⟨y, _ | _⟩
      case some.guard =>
        simp only [call, ho] at h
        obtain ⟨w, -, heq⟩ := Option.map_eq_some_iff.mp h
        obtain ⟨-, rfl⟩ := Prod.mk.inj heq
        rfl
      all_goals
        obtain ⟨rfl, rfl⟩ : .refused = r ∧ s = s' := by simpa [call, ho] using h
        rfl

variable [LawfulQueue Q (MutexWaiter P)] [LawfulPriority P]
  {tie : List Handle → Entry (MutexWaiter P) → Entry (MutexWaiter P) → Prop}
  {l l' : List (Entry (MutexWaiter P))}

omit [LawfulPriority P] in
theorem Holds.mem_owned (hs : Holds s l) : ∀ e ∈ l, e.handle ∈ handles s.owned :=
  fun _ he => hs.perm.mem_iff.mp (mem_handles he)

theorem run_ordered (ht : TieRule tie) (evict : Bool) (ops : List (Op P)) : ∃ s l,
    run (after (call evict)) (System.start (new : Mutex Q)) ops = some s ∧ Holds s l ∧
      Ordered tie (handles s.owned) l := by
  have hstep : ∀ (s : System Q) (op : Op P), (∃ l, Holds s l ∧ Ordered tie (handles s.owned) l) →
      ∃ s', after (call evict) s op = some s' ∧
        ∃ l, Holds s' l ∧ Ordered tie (handles s'.owned) l := by
    rintro s op ⟨l, hs, ho⟩
    obtain ⟨r, s', l', hc, hs', hm⟩ := hs.call evict op
    refine ⟨s', after_eq hc, l', hs', ?_⟩
    rw [handles_call hc]
    exact hm.ordered ht hs.led hs.mem_owned (LawfulQueue.nodup hs.rep) ho
  obtain ⟨s, hr, l, hs, ho⟩ := run_keeps hstep ⟨[], Holds.start, .nil, .nil⟩ ops
  exact ⟨s, l, hr, hs, ho⟩

end Calls

section Grants

variable [Priority P] {evict : Bool} {op : Op P} {r : Result}
  {tie : List Handle → Entry (MutexWaiter P) → Entry (MutexWaiter P) → Prop}
  {A : List Handle} {e f : Entry (MutexWaiter P)} {l l' : List (Entry (MutexWaiter P))}

def GivesUp (op : Op P) (r : Result) (l : List (Entry (MutexWaiter P))) : Prop :=
  r = .unit ∧ (∃ e ∈ l, op.releases = some e.handle ∧ hasLock e = true) ∧ ∃ f ∈ l, hasLock f = false

/-- One request that waited has the lock. Nothing that is queued is above it, and it is the
first of its ties. -/
def Grants (tie : List Handle → Entry (MutexWaiter P) → Entry (MutexWaiter P) → Prop)
    (A : List Handle) (l l' : List (Entry (MutexWaiter P))) : Prop :=
  ∃ g, l'.filter hasLock = [g] ∧
    (∃ f ∈ l, hasLock f = false ∧ f.handle = g.handle ∧ f.data.priority = g.data.priority) ∧
    ∀ f ∈ l', f.handle ≠ g.handle →
      (Priority.compare g.data.priority f.data.priority).isGE ∧
      (Priority.compare g.data.priority f.data.priority = .eq → tie A g f)

/-- The holder that gives up the lock is the first entry, and the next one gets it. -/
theorem Moves.gives_up (h : Moves evict op r l l') (hl : Led l) (hn : (handles l).Nodup)
    (hg : GivesUp op r l) : ∃ e f t, l = e :: f :: t ∧ op.releases = some e.handle ∧
      l' = handOver (f :: t) := by
  obtain ⟨rfl, ⟨e, he, hop, hle⟩, f, hf, hlf⟩ := hg
  cases h with
  | @release _ d t hop' =>
    cases t with
    | nil =>
      obtain rfl : f = d := by simpa using hf
      simp [hl.1] at hlf
    | cons g t => exact ⟨d, g, t, rfl, hop', rfl⟩
  | @leave _ d a b hop' hd =>
    have hh : e.handle = d.handle := Option.some.inj (hop.symm.trans hop')
    obtain rfl : e = d := List.inj_on_of_nodup_map hn he (by simp) hh
    simp [hle] at hd

theorem Moves.grants (ht : TieRule tie) (h : Moves evict op r l l') (hl : Led l)
    (hn : (handles l).Nodup) (ho : Ordered tie A l) (hg : GivesUp op r l) :
    Grants tie (op.arrive r A) l l' := by
  obtain ⟨e, f, t, rfl, hop, rfl⟩ := h.gives_up hl hn hg
  rw [hg.1, Op.arrive_release hop]
  have hne : ∀ g ∈ f :: t, g.handle ≠ e.handle := fun g hg hge =>
    (List.nodup_cons.mp hn).1 (hge ▸ mem_handles hg)
  have hts : Ties tie (A.filter (· ≠ e.handle)) (f :: t) := ht.remove ho.ties hne
  refine ⟨⟨f.handle, f.data.start⟩, (Led.handOver hl.2).filter,
    ⟨f, by simp, hl.2 f (by simp), rfl, rfl⟩, ?_⟩
  intro g hg hgf
  rcases List.mem_cons.mp hg with rfl | hg
  · exact absurd rfl hgf
  constructor
  · exact List.rel_of_pairwise_cons ho.descending hg
  · intro heq
    exact ht.grant (List.rel_of_pairwise_cons hts hg heq)

end Grants

/-- After a run over a builtin queue, a call that gives up the lock grants it in order. -/
def GrantsInOrder (k : QueueKind) [Priority P] (evict : Bool)
    (tie : List Handle → Entry (MutexWaiter P) → Entry (MutexWaiter P) → Prop)
    (ops : List (Op P)) (op : Op P) : Prop :=
  ∃ (s : System (k.Queue (MutexWaiter P))) (l : List (Entry (MutexWaiter P))) (r : Result)
    (s' : System (k.Queue (MutexWaiter P))) (l' : List (Entry (MutexWaiter P))),
    run (after (call evict)) (System.start new) ops = some s ∧
    entries s.mutex.queue = some l ∧ call evict s op = some (r, s') ∧
    entries s'.mutex.queue = some l' ∧ (GivesUp op r l → Grants tie (handles s'.owned) l l')

theorem TieRule.grantsInOrder (k : QueueKind) [Priority P] [LawfulPriority P] (evict : Bool)
    {tie : List Handle → Entry (MutexWaiter P) → Entry (MutexWaiter P) → Prop}
    (ht : TieRule tie) (ops : List (Op P)) (op : Op P) : GrantsInOrder k evict tie ops op := by
  obtain ⟨s, l, hr, hs, ho⟩ := run_ordered (Q := k.Queue (MutexWaiter P)) ht evict ops
  obtain ⟨r, s', l', hc, hs', hm⟩ := hs.call evict op
  refine ⟨s, l, r, s', l', hr, LawfulQueue.entries_eq hs.rep, hc, LawfulQueue.entries_eq hs'.rep,
    ?_⟩
  intro hg
  rw [handles_call hc]
  exact hm.grants ht hs.led (LawfulQueue.nodup hs.rep) ho hg

/-- Whoever held it, the lock goes to one request that none of the others is above: under `FIFO`
the first of these to arrive, under `LIFO` the last. -/
theorem grant_order (k : QueueKind) (evict : Bool) :
    (∀ {P : Type} [Priority P] [LawfulPriority P] (ops : List (Op P)) (op : Op P),
      GrantsInOrder k evict (fun _ _ _ => True) ops op) ∧
    ∀ {P : Type} [Priority P] [LawfulPriority P] [DefaultCompareNew P],
      (∀ (ops : List (Op (FIFO P))) (op : Op (FIFO P)), GrantsInOrder k evict Before ops op) ∧
      ∀ (ops : List (Op (LIFO P))) (op : Op (LIFO P)),
        GrantsInOrder k evict (fun A e f => Before A f e) ops op := by
  constructor
  · exact trivial_rule.grantsInOrder k evict
  · exact fun {P} _ _ _ => ⟨before_rule.grantsInOrder k evict, after_rule.grantsInOrder k evict⟩

theorem grant_order_fifo : GrantsInOrder QueueKind.dualArena true Before
    [.lock ⟨0⟩, .lock ⟨1⟩, .lock ⟨2⟩, .cancel 96, .lock ⟨1⟩] (.drop 0 : Op (FIFO ℕ)) :=
  ((grant_order QueueKind.dualArena true).2).1 _ _

end PriorityLock.Mutex
