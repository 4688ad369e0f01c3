import PriorityLock.Semaphore.Conservation

/-! # The walk that grants permits

From its start `activate_waiters` visits the entries in the order that they had
before, although those that it grants move to the front while it goes on. It
grants the entries that can have their permits and leaves the others alone.
-/

namespace PriorityLock.Semaphore

open Placement Transition PriorityQueue Greedy

variable {B : Build} {Q P : Type} {e : Queued B P} {a b c l : List (Queued B P)}

section Walk

def others (granted l : List (Queued B P)) : List (Queued B P) :=
  l.filter fun e => e.handle ∉ handles granted

theorem others_append {g : List (Queued B P)} : others g (a ++ b) = others g a ++ others g b :=
  List.filter_append a b

theorem others_middle {g : List (Queued B P)} (h : e.handle ∈ handles g) :
    others g (a ++ e :: b) = others g (a ++ b) := by
  simp [others, h]

variable [Priority P] {held skipped rest held' pending' : List (Queued B P)}
  {available available' : Usize B}

/-- The steps of a walk grant what it visits with that verdict. -/
theorem Activates.spent (h : Activates held skipped rest available held' pending' available')
    (hu : ∀ e ∈ rest, hasLock e = false) :
    held'.Perm ((Greedy.granted (grantRule.visits available.toNat rest)).map
        (fun g => ⟨g.handle, g.data.start⟩) ++ held) ∧
      available'.toNat + grantRule.spent (grantRule.visits available.toNat rest) =
        available.toNat := by
  induction h with
  | finish => exact ⟨.refl _, rfl⟩
  | stop hlt hby =>
    rw [visits_stop (hu _ List.mem_cons_self) hlt hby]
    exact ⟨.refl _, rfl⟩
  | skip hlt hby _ ih =>
    rw [visits_skip (hu _ List.mem_cons_self) hlt hby]
    exact ih fun f hf => hu f (List.mem_cons_of_mem _ hf)
  | @grant _ _ _ _ _ _ e available _ hle hs _ ih =>
    obtain ⟨hp, ha⟩ := ih fun f hf => hu f (List.mem_cons_of_mem _ hf)
    rw [visits_grant (hu e List.mem_cons_self) hle]
    constructor
    · simp only [granted_granted, List.map_cons, List.cons_append]
      exact hp.trans ((hs.perm.append_left _).trans List.perm_middle)
    · have hsub := toNat_sub_of_le hle
      have hle' := BitVec.le_def.mp hle
      have hcost : grantRule.cost e = (count e).toNat := rfl
      simp only [Rule.spent, granted_granted, List.map_cons, List.sum_cons, hcost] at ha ⊢
      omega

theorem Activates.others {g : List (Queued B P)}
    (h : Activates held skipped rest available held' pending' available')
    (hu : ∀ e ∈ rest, hasLock e = false)
    (hg : Greedy.granted (grantRule.visits available.toNat rest) ⊆ g) :
    others g held' = others g held ∧ others g pending' = others g (skipped ++ rest) := by
  induction h with
  | finish => exact ⟨rfl, by rw [List.append_nil]⟩
  | stop => exact ⟨rfl, rfl⟩
  | skip hlt hby _ ih =>
    rw [visits_skip (hu _ List.mem_cons_self) hlt hby] at hg
    simpa using ih (fun f hf => hu f (List.mem_cons_of_mem _ hf)) hg
  | @grant _ _ _ _ _ _ e _ _ hle hs _ ih =>
    rw [visits_grant (hu e List.mem_cons_self) hle, granted_granted, List.cons_subset] at hg
    obtain ⟨hheld, hpend⟩ := ih (fun f hf => hu f (List.mem_cons_of_mem _ hf)) hg.2
    have he : e.handle ∈ handles g := mem_handles hg.1
    obtain ⟨x, y, rfl, rfl, -⟩ := hs
    exact ⟨hheld.trans (others_middle he), hpend.trans (others_middle he).symm⟩

end Walk

section Starts

/-- Where a caller starts the walk: at the head, or behind an entry that it takes out. -/
inductive Start
  | head
  | behind (handle : Handle)

/-- The entries in front of the start, and those from there on. -/
inductive Start.Splits : Start → List (Queued B P) → List (Queued B P) → List (Queued B P) → Prop

  | head {l : List (Queued B P)} : Splits .head l [] l

  | behind {a c : List (Queued B P)} {e : Queued B P} :
      Splits (.behind e.handle) (a ++ e :: c) a c

theorem locked_first {held pending : List (Queued B P)} (hl : ∀ e ∈ held, hasLock e = true)
    (hu : ∀ e ∈ pending, hasLock e = false) (h : held ++ pending = a ++ e :: c) :
    ∃ b u, c = b ++ u ∧ (∀ e ∈ b, hasLock e = true) ∧ ∀ e ∈ u, hasLock e = false := by
  rcases List.append_eq_append_iff.mp h with ⟨t, rfl, rfl⟩ | ⟨t, rfl, ht⟩
  · exact ⟨[], c, rfl, by simp, fun f hf => hu f (by simp [hf])⟩
  · cases t with
    | nil =>
      obtain rfl : e :: c = pending := by simpa using ht
      exact ⟨[], c, rfl, by simp, fun f hf => hu f (List.mem_cons_of_mem e hf)⟩
    | cons f t =>
      obtain ⟨rfl, rfl⟩ := List.cons_eq_cons.mp ht
      exact ⟨t, pending, rfl, fun d hd => hl d (by simp [hd]), hu⟩

variable [Priority P] [PriorityQueue Q (SemaphoreWaiter B P)] {s s' : SemaphoreInner B Q} {q : Q}

def Start.enter (q : Q) : Start → Option (Option Handle × Q)
  | .head => (headHandle q).map fun next => (next, q)
  | .behind handle => (dequeue q handle).map fun ((_, next), q) => (next, q)

/-- What a walk over the entries `c` of a queue `a ++ c` visits, and what it leaves. -/
structure Activated (s : SemaphoreInner B Q) (a c : List (Queued B P))
    (visits : List (Queued B P × Verdict)) (s' : SemaphoreInner B Q) (l' : List (Queued B P)) :
    Prop where
  ends : activateWaiters s (c.head?.map Entry.handle) = some s'
  log : activateLog (a ++ c).length s (c.head?.map Entry.handle) = some (visits, s')
  order : visits.map Prod.fst <+: c
  once : (handles (visits.map Prod.fst)).Nodup
  through : (∀ y ∈ visits, y.2 ≠ .stopped) → visits.map Prod.fst = c
  verdict : ∀ b y d, visits = b ++ y :: d → ∃ left : ℕ,
    left + permits (granted b) = s.available.toNat ∧ y.2 = grantRule.judge left y.1 ∧
      (y.2 = .stopped → d = [])
  left : s'.available.toNat + permits (granted visits) = s.available.toNat
  entries_eq : entries s'.queue = some l'
  perm : (handles l').Perm (handles (a ++ c))
  granted_mem : ∀ e ∈ granted visits, ⟨e.handle, e.data.start⟩ ∈ l'
  others_eq : others (granted visits) l' = others (granted visits) (a ++ c)

variable [LawfulQueue Q (SemaphoreWaiter B P)] {held pending : List (Queued B P)}

theorem activated (hr : LawfulQueue.Rep s.queue (a ++ (b ++ pending)))
    (hb : ∀ e ∈ b, hasLock e = true) (hu : ∀ e ∈ pending, hasLock e = false) :
    ∃ visits s' l', Activated s a (b ++ pending) visits s' l' := by
  have hn := LawfulQueue.nodup hr
  obtain ⟨s', held', pending', hl, -, hr', ha⟩ := activateLog_spec hr hb hu
  have hlast : granted (grantRule.visits s.available.toNat (b ++ pending)) =
      granted (grantRule.visits s.available.toNat pending) := by
    rw [visits_settled hb]
    simp [granted]
  obtain ⟨hperm, hleft⟩ := ha.spent hu
  obtain ⟨hheld, hpend⟩ := ha.others hu (List.Subset.refl _)
  have horder := visits_initial grantRule s.available.toNat (b ++ pending)
  refine ⟨_, s', held' ++ pending', ?_, hl, horder, ?_, visits_all, ?_, ?_,
    LawfulQueue.entries_eq hr', ?_, ?_, ?_⟩
  · rw [activateWaiters_eq hr, ← activateLog_snd, hl]
    rfl
  · rw [List.map_append] at hn
    exact hn.of_append_right.sublist (horder.sublist.map Entry.handle)
  · exact fun _ _ _ => visits_judge
  · rw [hlast]
    exact hleft
  · simpa using ha.perm
  · intro e he
    rw [hlast] at he
    apply List.mem_append_left
    exact hperm.mem_iff.mpr (List.mem_append_left _ (List.mem_map_of_mem he))
  · rw [hlast, others_append, hheld, hpend]
    simp [others_append]

theorem View.activated {p : Pool B P} {start : Start} (hv : View s p)
    (hs : start.Splits (p.held ++ p.pending) a c) (total available : Usize B) :
    ∃ q visits s' l', start.enter s.queue = some (c.head?.map Entry.handle, q) ∧
      entries q = some (a ++ c) ∧ Activated ⟨q, total, available⟩ a c visits s' l' := by
  have hr := hv.rep
  generalize hl : p.held ++ p.pending = l at hs hr
  cases hs with
  | head =>
    subst hl
    have hh := LawfulQueue.headHandle_spec hr
    obtain ⟨visits, s', l', h⟩ := Semaphore.activated (s := ⟨s.queue, total, available⟩) (a := [])
      hr hv.wf.locked hv.wf.unlocked
    exact ⟨s.queue, visits, s', l', by simp [Start.enter, hh], LawfulQueue.entries_eq hr, h⟩
  | behind =>
    obtain ⟨b, u, rfl, hb, hu⟩ := locked_first hv.wf.locked hv.wf.unlocked hl
    obtain ⟨q, hq, hr'⟩ := LawfulQueue.dequeue_spec hr
    obtain ⟨visits, s', l', h⟩ := Semaphore.activated (s := ⟨q, total, available⟩) hr' hb hu
    exact ⟨q, visits, s', l', by simp [Start.enter, hq], LawfulQueue.entries_eq hr', h⟩

end Starts

/-- After every run, whatever is available, a walk from the head or from behind an entry that is
taken out ends. It visits the entries in their order up to the first that it cannot pass, and
grants those that can have their permits then. -/
theorem activate_waiters_greedy (k : QueueKind) {B : Build} {P : Type} [Priority P]
    (capacity : Usize B) (ops : List (Op B P)) :
    ∃ (s : System B (k.Queue (SemaphoreWaiter B P))) (l : List (Queued B P)),
      run (after call) (System.start (new capacity)) ops = some s ∧
      entries s.inner.queue = some l ∧ ∀ (start : Start) (a c : List (Queued B P)),
        start.Splits l a c → ∀ total available : Usize B, ∃ q visits s' l',
          start.enter s.inner.queue = some (c.head?.map Entry.handle, q) ∧
          entries q = some (a ++ c) ∧ Activated ⟨q, total, available⟩ a c visits s' l' := by
  obtain ⟨s, p, hr, hs⟩ := run_holds (Q := k.Queue (SemaphoreWaiter B P)) capacity ops
  exact ⟨s, _, hr, hs.entries_eq, fun _ _ _ h => hs.view.activated h⟩

end PriorityLock.Semaphore
