import PriorityLock.Queue.Builtin
import PriorityLock.Transition.Runs

/-! # The queues agree and are stable

Entries are named by their arrival, since handles differ from queue to queue. The
entries of a queue are then in an order that their priorities and arrivals
determine, so all queues yield them alike.
-/

namespace PriorityLock.Stability

open Placement Transition

/-- Enqueue data, or dequeue the entry of an earlier arrival. -/
inductive Op (D : Type)
  | enqueue (data : D)
  | dequeue (arrival : ℕ)
  deriving DecidableEq, Repr

inductive Result (D : Type)
  | enqueued (arrival : ℕ)
  | dequeued (prev : Option D) (next : Option ℕ)
  | refused
  deriving DecidableEq, Repr

/-- A queue, its live handles with their arrivals, and the next arrival. -/
structure Numbered (Q : Type) where
  queue : Q
  live : List (Entry ℕ)
  next : ℕ

variable {Q Q' D : Type}

namespace Numbered

variable [PriorityQueue Q D]

def start (q : Q) : Numbered Q := ⟨q, [], 0⟩

def arrival (c : Numbered Q) (h : Handle) : Option ℕ := (lookup c.live h).map Entry.data

/-- One operation; a dequeue of an entry that is not live is refused. -/
def call (c : Numbered Q) : Op D → Option (Result D × Numbered Q)
  | .enqueue d => (PriorityQueue.enqueue c.queue d).map fun (h, q) =>
      (.enqueued c.next, ⟨q, c.live ++ [⟨h, c.next⟩], c.next + 1⟩)
  | .dequeue i => match c.live.find? (·.data = i) with
    | none => some (.refused, c)
    | some e => (PriorityQueue.dequeue c.queue e.handle).map fun ((prev, next), q) =>
        (.dequeued prev (next.bind c.arrival), ⟨q, without c.live e.handle, c.next⟩)

def order (c : Numbered Q) : Option (List (ℕ × D)) :=
  (PriorityQueue.entries c.queue).bind fun l =>
    l.mapM fun e => (c.arrival e.handle).map fun i => (i, e.data)

end Numbered

def remaining : ℕ → List (ℕ × D) → List (Op D) → List (ℕ × D)
  | _, live, [] => live
  | n, live, .enqueue d :: ops => remaining (n + 1) (live ++ [(n, d)]) ops
  | n, live, .dequeue i :: ops => remaining n (live.filter (·.1 ≠ i)) ops

section Order

variable [Priority D] {tie : ℕ → ℕ → Prop} {op : Op D} {r r' : Result D} {n n' n'' : ℕ}
  {o o' o'' : List (ℕ × D)}

/-- By descending priority, and ties by arrival. -/
def Stable (tie : ℕ → ℕ → Prop) (o : List (ℕ × D)) : Prop :=
  o.Pairwise fun x y => (Priority.compare x.2 y.2).isGE ∧
    (Priority.compare x.2 y.2 = .eq → tie x.1 y.1)

/-- A stable queue: what an operation returns and how it changes the order. -/
inductive Moves (tie : ℕ → ℕ → Prop) :
    Op D → Result D → ℕ → List (ℕ × D) → ℕ → List (ℕ × D) → Prop

  | enqueue {d : D} {n : ℕ} {o o' : List (ℕ × D)} : o'.Perm ((n, d) :: o) → Stable tie o' →
      Moves tie (.enqueue d) (.enqueued n) n o (n + 1) o'

  | dequeue {i n : ℕ} {d : D} {a b : List (ℕ × D)} :
      Moves tie (.dequeue i) (.dequeued (a.getLast?.map Prod.snd) (b.head?.map Prod.fst))
        n (a ++ (i, d) :: b) n (a ++ b)

  | refused {i n : ℕ} {o : List (ℕ × D)} : i ∉ o.map Prod.fst →
      Moves tie (.dequeue i) .refused n o n o

variable [LawfulPriority D]

/-- A stable order is determined by its entries. -/
theorem Stable.eq_of_perm (ht : ∀ i j, tie i j → ¬tie j i) (h : Stable tie o)
    (h' : Stable tie o') (hp : o.Perm o') : o = o' := by
  refine hp.eq_of_pairwise ?_ h h'
  rintro x y - - ⟨hxy, hx⟩ ⟨hyx, hy⟩
  have hle := Std.OrientedCmp.isGE_iff_isLE.mp hyx
  have heq : Priority.compare x.2 y.2 = .eq := by
    cases hc : Priority.compare x.2 y.2 <;> simp_all
  exact absurd (hy (Std.OrientedCmp.eq_comm.mp heq)) (ht _ _ (hx heq))

omit [Priority D] [LawfulPriority D] in
theorem split_unique {i : ℕ} {d d' : D} {a a' b b' : List (ℕ × D)}
    (h : a ++ (i, d) :: b = a' ++ (i, d') :: b')
    (hn : ((a ++ (i, d) :: b).map Prod.fst).Nodup) : a = a' ∧ b = b' := by
  have hm : (i, d') ∈ a ++ (i, d) :: b := by simp [h]
  obtain ⟨-, rfl⟩ : i = i ∧ d' = d :=
    Prod.mk.inj (List.inj_on_of_nodup_map hn hm (by simp) rfl)
  have hnd := (List.nodup_middle.mp (hn.of_map _))
  have hnot := (List.nodup_cons.mp hnd).1
  rw [List.mem_append, not_or] at hnot
  obtain ⟨ha, -, hb⟩ := (List.append_cons_inj_of_notMem hnot.1 hnot.2).mp h
  exact ⟨ha, hb⟩

omit [LawfulPriority D] in
theorem Moves.remaining (h : Moves tie op r n o n' o') {live : List (ℕ × D)} (hl : o.Perm live)
    (hn : (o.map Prod.fst).Nodup) : ∃ live', o'.Perm live' ∧
      ∀ ops, remaining n live (op :: ops) = remaining n' live' ops := by
  cases h with
  | @enqueue d _ _ _ hp hs =>
    exact ⟨live ++ [(n, d)],
      hp.trans ((hl.cons _).trans (List.perm_append_singleton _ _).symm), fun ops => rfl⟩
  | @dequeue i _ d a b =>
    refine ⟨live.filter (·.1 ≠ i), ?_, fun ops => rfl⟩
    have hnot := (List.nodup_cons.mp (List.nodup_middle.mp (by simpa using hn))).1
    have hkeep : ∀ x ∈ a ++ b, decide (x.1 ≠ i) = true := fun x hx => decide_eq_true fun hxi =>
      hnot (by rw [← List.map_append]; exact hxi ▸ List.mem_map_of_mem hx)
    have hf := hl.filter (·.1 ≠ i)
    rwa [List.filter_append, List.filter_cons_of_neg (by simp), ← List.filter_append,
      List.filter_eq_self.mpr hkeep] at hf
  | @refused i _ _ hi =>
    refine ⟨live.filter (·.1 ≠ i), ?_, fun ops => rfl⟩
    have hkeep : ∀ x ∈ o, decide (x.1 ≠ i) = true := fun x hx => decide_eq_true fun hxi =>
      hi (hxi ▸ List.mem_map_of_mem hx)
    have hf := hl.filter (·.1 ≠ i)
    rwa [List.filter_eq_self.mpr hkeep] at hf

/-- A stable queue answers in one way. -/
theorem Moves.unique (ht : ∀ i j, tie i j → ¬tie j i) (hn : (o.map Prod.fst).Nodup)
    (h : Moves tie op r n o n' o') (h' : Moves tie op r' n o n'' o'') :
    r = r' ∧ n' = n'' ∧ o' = o'' := by
  cases h with
  | enqueue hp hs =>
    cases h' with
    | enqueue hp' hs' => exact ⟨rfl, rfl, hs.eq_of_perm ht hs' (hp.trans hp'.symm)⟩
  | @dequeue i _ d a b =>
    generalize heq : a ++ (i, d) :: b = o at h'
    cases h' with
    | dequeue =>
      obtain ⟨rfl, rfl⟩ := split_unique heq hn
      exact ⟨rfl, rfl, rfl⟩
    | refused hi => simp [← heq] at hi
  | refused hi =>
    cases h' with
    | dequeue => simp at hi
    | refused => exact ⟨rfl, rfl, rfl⟩

end Order

section Shows

variable [Priority D] [PriorityQueue Q D] [LawfulQueue Q D] {c : Numbered Q}
  {tie : ℕ → ℕ → Prop} {m : List (ℕ × Entry D)} {i : ℕ} {h : Handle}

def observed (m : List (ℕ × Entry D)) : List (ℕ × D) := m.map fun x => (x.1, x.2.data)

def named (x : ℕ × Entry D) : Entry ℕ := ⟨x.2.handle, x.1⟩

/-- The queue holds the numbered entries, in this order. -/
structure Shows (c : Numbered Q) (m : List (ℕ × Entry D)) : Prop where
  rep : LawfulQueue.Rep c.queue (m.map Prod.snd)
  live : c.live.Perm (m.map named)
  nodup : (m.map Prod.fst).Nodup
  lt : ∀ x ∈ m, x.1 < c.next

/-- An order of ties that a priority keeps when an entry is placed. -/
structure Rule (D : Type) [Priority D] (tie : ℕ → ℕ → Prop) : Prop where
  asymm : ∀ i j, tie i j → ¬tie j i
  place : ∀ {m m' : List (ℕ × Entry D)} {n : ℕ} {x : Entry D}, (∀ y ∈ m, y.1 < n) →
    Stable tie (observed m) → Placed (fun a b => Priority.compareNew a.2 b.2) (n, x) m m' →
    Stable tie (observed m')

theorem Shows.start :
    Shows (Numbered.start (PriorityQueue.default : Q)) ([] : List (ℕ × Entry D)) :=
  ⟨LawfulQueue.rep_default, .nil, .nil, by simp⟩

omit [Priority D] [PriorityQueue Q D] [LawfulQueue Q D] in
theorem observed_fst (m : List (ℕ × Entry D)) : (observed m).map Prod.fst = m.map Prod.fst := by
  simp [observed, Function.comp_def]

theorem Shows.observed_nodup (hc : Shows c m) : ((observed m).map Prod.fst).Nodup := by
  rw [observed_fst]
  exact hc.nodup

theorem Shows.handles_nodup (hc : Shows c m) : (handles c.live).Nodup := by
  have hn := LawfulQueue.nodup hc.rep
  have hp := hc.live.map Entry.handle
  rw [List.map_map] at hn hp
  exact hp.nodup_iff.mpr hn

theorem Shows.mem_live (hc : Shows c m) {x : ℕ × Entry D} (hx : x ∈ m) : named x ∈ c.live :=
  hc.live.mem_iff.mpr (List.mem_map_of_mem hx)

theorem Shows.arrival (hc : Shows c m) {x : ℕ × Entry D} (hx : x ∈ m) :
    c.arrival x.2.handle = some x.1 := by
  have hm : named x ∈ c.live := hc.mem_live hx
  rw [Numbered.arrival, show x.2.handle = (named x).handle from rfl,
    lookup_of_mem hc.handles_nodup hm]
  rfl

theorem Shows.order (hc : Shows c m) : c.order = some (observed m) := by
  have hm : ∀ m', m' ⊆ m → (m'.map Prod.snd).mapM (fun e : Entry D =>
      (c.arrival e.handle).map fun i => (i, e.data)) = some (observed m') := by
    intro m' hm'
    induction m' with
    | nil => rfl
    | cons x m' ih =>
      have hx := hc.arrival (hm' List.mem_cons_self)
      have hr := ih fun y hy => hm' (List.mem_cons_of_mem x hy)
      simp [observed, List.mapM_cons, hx] at hr ⊢
      simp [hr]
  rw [Numbered.order, LawfulQueue.entries_eq hc.rep, Option.bind_some]
  exact hm m (List.Subset.refl m)

theorem Shows.call (ht : Rule D tie) (hc : Shows c m) (hs : Stable tie (observed m)) (op : Op D) :
    ∃ r c' m', c.call op = some (r, c') ∧ Shows c' m' ∧ Stable tie (observed m') ∧
      Moves tie op r c.next (observed m) c'.next (observed m') := by
  cases op with
  | enqueue d =>
    obtain ⟨h, q, l, hq, hr, hh, hp⟩ := LawfulQueue.enqueue_spec d hc.rep
    obtain ⟨m', rfl, hp'⟩ := Placed.of_map (f := Prod.snd) (y := (c.next, (⟨h, d⟩ : Entry D))) hp
    have hs' := ht.place hc.lt hs hp'
    have hperm := hp'.perm
    have hc' : Shows ⟨q, c.live ++ [⟨h, c.next⟩], c.next + 1⟩ m' := by
      refine ⟨hr, ?_, ?_, ?_⟩
      · exact (List.perm_append_singleton _ _).trans
          ((hc.live.cons _).trans (hperm.symm.map named))
      · refine (hperm.map Prod.fst).nodup_iff.mpr (List.nodup_cons.mpr ⟨?_, hc.nodup⟩)
        intro hmem
        obtain ⟨x, hx, hxn⟩ := List.mem_map.mp hmem
        exact absurd (hc.lt x hx) (hxn ▸ Nat.lt_irrefl _)
      · intro x hx
        rcases List.mem_cons.mp (hperm.mem_iff.mp hx) with rfl | hx
        · exact Nat.lt_succ_self _
        · exact Nat.lt_succ_of_lt (hc.lt x hx)
    exact ⟨_, _, m', by simp [Numbered.call, hq], hc', hs', .enqueue (hperm.map _) hs'⟩
  | dequeue i =>
    cases hf : c.live.find? (·.data = i) with
    | none =>
      have hi : i ∉ (observed m).map Prod.fst := by
        intro hm
        obtain ⟨x, hx, rfl⟩ : ∃ x ∈ m, x.1 = i := by simpa [observed] using hm
        have hne := List.find?_eq_none.mp hf _ (hc.mem_live hx)
        simp [named] at hne
      exact ⟨.refused, c, m, by simp [Numbered.call, hf], hc, hs, .refused hi⟩
    | some e =>
      obtain ⟨x, hx, rfl⟩ := List.mem_map.mp (hc.live.mem_iff.mp (List.mem_of_find?_eq_some hf))
      have hi := List.find?_some hf
      obtain rfl : x.1 = i := of_decide_eq_true hi
      obtain ⟨a, b, rfl⟩ := List.append_of_mem hx
      have hr := hc.rep
      rw [List.map_append, List.map_cons] at hr
      obtain ⟨q, hq, hr'⟩ := LawfulQueue.dequeue_spec hr
      have hsub : (a ++ b).Sublist (a ++ x :: b) := (List.sublist_cons_self x b).append_left a
      have hlive : (without c.live x.2.handle).Perm ((a ++ b).map named) := by
        have hp : (without c.live x.2.handle).Perm
            (without ((a ++ x :: b).map named) x.2.handle) := hc.live.filter _
        have hn := (hc.live.map Entry.handle).nodup_iff.mp hc.handles_nodup
        rw [List.map_append, List.map_cons] at hp hn
        rw [List.map_append]
        exact hp.trans (.of_eq (without_middle hn))
      have hc' : Shows ⟨q, without c.live x.2.handle, c.next⟩ (a ++ b) :=
        ⟨by simpa using hr', hlive, hc.nodup.sublist (hsub.map _),
          fun y hy => hc.lt y (hsub.subset hy)⟩
      have hs' : Stable tie (observed (a ++ b)) := List.Pairwise.sublist (hsub.map _) hs
      have hm : Moves tie (.dequeue x.1) (.dequeued ((observed a).getLast?.map Prod.snd)
          ((observed b).head?.map Prod.fst)) c.next (observed (a ++ x :: b)) c.next
          (observed (a ++ b)) := by
        have hab : observed (a ++ x :: b) = observed a ++ (x.1, x.2.data) :: observed b := by
          simp [observed]
        have hab' : observed (a ++ b) = observed a ++ observed b := by simp [observed]
        rw [hab, hab']
        exact .dequeue
      have hprev : ((a.map Prod.snd).getLast?.map Entry.data) =
          (observed a).getLast?.map Prod.snd := by simp [observed, Function.comp_def]
      have hnext : ((b.map Prod.snd).head?.map Entry.handle).bind c.arrival =
          (observed b).head?.map Prod.fst := by
        cases b with
        | nil => rfl
        | cons y b => exact hc.arrival (by simp)
      refine ⟨_, _, a ++ b, ?_, hc', hs', hm⟩
      simp only [Numbered.call, hf, named, hq, Option.map_some, hprev, hnext]

end Shows

section Rules

variable {P : Type} [Priority P] [LawfulPriority P] [DefaultCompareNew P]

omit [Priority P] [LawfulPriority P] [DefaultCompareNew P] in
theorem stable_observed [Priority D] {tie : ℕ → ℕ → Prop} {m : List (ℕ × Entry D)} :
    Stable tie (observed m) ↔ Descending (fun a b => Priority.compare a.2 b.2) m ∧
      m.Pairwise fun a b => Priority.compare a.2 b.2 = .eq → tie a.1 b.1 := by
  rw [Stable, observed, List.pairwise_map]
  exact ⟨fun h => ⟨h.imp And.left, h.imp And.right⟩, fun h => h.1.and h.2⟩

omit [Priority P] [LawfulPriority P] [DefaultCompareNew P] in
/-- A new entry that is placed by priority and then by arrival keeps the order stable. -/
theorem rule_of_ties [Priority D] [LawfulPriority D] {tie : ℕ → ℕ → Prop}
    (ht : ∀ i j, tie i j → ¬tie j i)
    (hp : ∀ {m m' : List (ℕ × Entry D)} {n : ℕ} {x : Entry D}, (∀ y ∈ m, y.1 < n) →
      Descending (fun a b => Priority.compare a.2 b.2) m →
      (m.Pairwise fun a b => Priority.compare a.2 b.2 = .eq → tie a.1 b.1) →
      Placed (fun a b => Priority.compareNew a.2 b.2) (n, x) m m' →
      m'.Pairwise fun a b => Priority.compare a.2 b.2 = .eq → tie a.1 b.1) : Rule D tie where
  asymm := ht
  place := by
    intro m m' n x hlt hs hplace
    have hcmp : Std.TransCmp fun a b : ℕ × Entry D => Priority.compare a.2 b.2 :=
      transCmp_comap Priority.compare Prod.snd
    have hagree : Agree (fun a b : ℕ × Entry D => Priority.compare a.2 b.2)
        (fun a b => Priority.compareNew a.2 b.2) (n, x) m :=
      fun y _ hne => LawfulPriority.agree x y.2 hne
    obtain ⟨hd, hties⟩ := stable_observed.mp hs
    exact stable_observed.mpr ⟨hplace.descending hagree hd, hp hlt hd hties hplace⟩

theorem fifo_rule : Rule (FIFO P) (· < ·) := by
  apply rule_of_ties fun i j => Nat.lt_asymm
  intro m m' n x hlt hd hties hplace
  have hcmp : Std.TransCmp fun a b : ℕ × Entry (FIFO P) => Priority.compare a.2 b.2 :=
    transCmp_comap Priority.compare Prod.snd
  exact hplace.ties_last hd (fun y _ => FIFO.compareNew_eq x.data y.2.data) hties hlt

theorem lifo_rule : Rule (LIFO P) (· > ·) := by
  apply rule_of_ties fun i j => Nat.lt_asymm
  intro m m' n x hlt hd hties hplace
  have hcmp : Std.TransCmp fun a b : ℕ × Entry (LIFO P) => Priority.compare a.2 b.2 :=
    transCmp_comap Priority.compare Prod.snd
  exact hplace.ties_first hd (fun y _ => LIFO.compareNew_eq x.data y.2.data) hties hlt

end Rules

section Runs

variable [Priority D] [LawfulPriority D] [PriorityQueue Q D] [LawfulQueue Q D]
  [PriorityQueue Q' D] [LawfulQueue Q' D] {tie : ℕ → ℕ → Prop}

theorem run_agree (ht : Rule D tie) (ops : List (Op D)) {c : Numbered Q} {c' : Numbered Q'}
    {m m' : List (ℕ × Entry D)} {live : List (ℕ × D)} (hc : Shows c m) (hc' : Shows c' m')
    (hm : observed m = observed m') (hn : c.next = c'.next) (hs : Stable tie (observed m))
    (hl : (observed m).Perm live) : ∃ c₁ c₁' m₁ m₁',
    run (after Numbered.call) c ops = some c₁ ∧ run (after Numbered.call) c' ops = some c₁' ∧
      Shows c₁ m₁ ∧ Shows c₁' m₁' ∧ observed m₁ = observed m₁' ∧ Stable tie (observed m₁) ∧
      (observed m₁).Perm (remaining c.next live ops) ∧
      trace Numbered.call c ops = trace Numbered.call c' ops := by
  induction ops generalizing c c' m m' live with
  | nil => exact ⟨c, c', m, m', rfl, rfl, hc, hc', hm, hs, hl, rfl⟩
  | cons op ops ih =>
    obtain ⟨r, c₁, m₁, hcall, hc₁, hs₁, hmove⟩ := hc.call ht hs op
    obtain ⟨r', c₁', m₁', hcall', hc₁', hs₁', hmove'⟩ := hc'.call ht (hm ▸ hs) op
    have hnd := hc.observed_nodup
    rw [← hm, ← hn] at hmove'
    obtain ⟨rfl, hn₁, hm₁⟩ := hmove.unique ht.asymm hnd hmove'
    obtain ⟨live', hl', hrem⟩ := hmove.remaining hl hnd
    obtain ⟨c₂, c₂', m₂, m₂', hr, hr', hc₂, hc₂', hm₂, hs₂, hl₂, htr⟩ :=
      ih hc₁ hc₁' hm₁ hn₁ hs₁ hl'
    refine ⟨c₂, c₂', m₂, m₂', ?_, ?_, hc₂, hc₂', hm₂, hs₂, hrem ops ▸ hl₂, ?_⟩
    · simp [after_eq hcall, hr]
    · simp [after_eq hcall', hr']
    · simp [trace, hcall, hcall', htr]

end Runs

/-- After every sequence of enqueues and dequeues, any two builtin queues yield the remaining
entries in one order, by descending priority and by arrival, for `LIFO` by reverse arrival, and
every dequeue has returned the same. -/
theorem queues_agree (k k' : QueueKind) {P : Type} [Priority P] [LawfulPriority P]
    [DefaultCompareNew P] :
    (∀ ops : List (Op (FIFO P)), ∃ (c : Numbered (k.Queue (FIFO P)))
        (c' : Numbered (k'.Queue (FIFO P))) (o : List (ℕ × FIFO P)),
      run (after Numbered.call) (Numbered.start PriorityQueue.default) ops = some c ∧
      run (after Numbered.call) (Numbered.start PriorityQueue.default) ops = some c' ∧
      c.order = some o ∧ c'.order = some o ∧ o.Perm (remaining 0 [] ops) ∧ Stable (· < ·) o ∧
      trace Numbered.call (Numbered.start (PriorityQueue.default : k.Queue (FIFO P))) ops =
        trace Numbered.call (Numbered.start (PriorityQueue.default : k'.Queue (FIFO P))) ops) ∧
    ∀ ops : List (Op (LIFO P)), ∃ (c : Numbered (k.Queue (LIFO P)))
        (c' : Numbered (k'.Queue (LIFO P))) (o : List (ℕ × LIFO P)),
      run (after Numbered.call) (Numbered.start PriorityQueue.default) ops = some c ∧
      run (after Numbered.call) (Numbered.start PriorityQueue.default) ops = some c' ∧
      c.order = some o ∧ c'.order = some o ∧ o.Perm (remaining 0 [] ops) ∧ Stable (· > ·) o ∧
      trace Numbered.call (Numbered.start (PriorityQueue.default : k.Queue (LIFO P))) ops =
        trace Numbered.call (Numbered.start (PriorityQueue.default : k'.Queue (LIFO P))) ops := by
  constructor
  · intro ops
    obtain ⟨c, c', m, m', hr, hr', hc, hc', hm, hs, hl, ht⟩ :=
      run_agree (fifo_rule (P := P)) ops (Shows.start (Q := k.Queue (FIFO P)))
        (Shows.start (Q := k'.Queue (FIFO P))) rfl rfl .nil .nil
    exact ⟨c, c', observed m, hr, hr', hc.order, hm ▸ hc'.order, hl, hs, ht⟩
  · intro ops
    obtain ⟨c, c', m, m', hr, hr', hc, hc', hm, hs, hl, ht⟩ :=
      run_agree (lifo_rule (P := P)) ops (Shows.start (Q := k.Queue (LIFO P)))
        (Shows.start (Q := k'.Queue (LIFO P))) rfl rfl .nil .nil
    exact ⟨c, c', observed m, hr, hr', hc.order, hm ▸ hc'.order, hl, hs, ht⟩

theorem queues_agree_arrivals : ∃ (c : Numbered (QueueKind.dualArena.Queue (FIFO ℕ)))
    (c' : Numbered (ArenaQueue .single ⟨64, 40, by decide, by decide, by decide⟩ (FIFO ℕ)))
    (o : List (ℕ × FIFO ℕ)),
    run (after Numbered.call) (Numbered.start PriorityQueue.default)
      [.enqueue ⟨1⟩, .enqueue ⟨1⟩, .dequeue 0, .enqueue ⟨2⟩] = some c ∧
    run (after Numbered.call) (Numbered.start PriorityQueue.default)
      [.enqueue ⟨1⟩, .enqueue ⟨1⟩, .dequeue 0, .enqueue ⟨2⟩] = some c' ∧
    c.order = some o ∧ c'.order = some o ∧ o.Perm [(1, ⟨1⟩), (2, ⟨2⟩)] := by
  obtain ⟨c, c', o, hc, hc', ho, ho', hp, -, -⟩ := (queues_agree QueueKind.dualArena
    (.arena .single ⟨64, 40, by decide, by decide, by decide⟩) (P := ℕ)).1 _
  exact ⟨c, c', o, hc, hc', ho, ho', hp⟩

end PriorityLock.Stability
