import Mathlib.Data.List.Find
import PriorityLock.Lists.Placement
import PriorityLock.Priority

/-! # A lock by priority

What a lock is for, without entries, handles or waiters: a list of requests with
the holder in front and the others by their priorities. Clients are of any type
and only compared for equality, so that they may be renamed.
-/

namespace PriorityLock

/-- The comparison of a new entry never ties, and whom it is above it is above of those behind. -/
class Decisive (P : Type) [Priority P] : Prop where
  ne_eq : ∀ a b : P, Priority.compareNew a b ≠ .eq
  gt_trans : ∀ a b c : P, Priority.compareNew a b = .gt → (Priority.compare b c).isGE →
    Priority.compareNew a c = .gt

section Decisive

variable {P : Type} [Priority P] [LawfulPriority P] {a b c : P}

theorem gt_of_gt_of_isGE (hab : Priority.compare a b = .gt) (hbc : (Priority.compare b c).isGE) :
    Priority.compare a c = .gt :=
  Std.TransCmp.gt_of_gt_of_isGE hab hbc

instance [DefaultCompareNew P] : Decisive (FIFO P) where
  ne_eq a b := by
    rw [FIFO.compareNew_eq]
    cases Priority.compare a b <;> simp
  gt_trans a b c := by
    rw [FIFO.compareNew_eq, FIFO.compareNew_eq]
    intro hab hbc
    have hgt : Priority.compare a b = .gt := by
      cases h : Priority.compare a b <;> simp [h] at hab ⊢
    rw [gt_of_gt_of_isGE hgt hbc]
    rfl

instance [DefaultCompareNew P] : Decisive (LIFO P) where
  ne_eq a b := by
    rw [LIFO.compareNew_eq]
    cases Priority.compare a b <;> simp
  gt_trans a b c := by
    rw [LIFO.compareNew_eq, LIFO.compareNew_eq]
    intro hab hbc
    have hge : (Priority.compare a b).isGE := by
      cases h : Priority.compare a b <;> simp [h] at hab ⊢
    have hac : (Priority.compare a c).isGE := Std.TransCmp.isGE_trans hge hbc
    cases h : Priority.compare a c <;> simp [h] at hac ⊢

end Decisive

/-- Where the comparison of a new element never ties, and stays above once it is, a scan is the only
way to place it. -/
theorem Placement.Placed.map_eq_scan {α β : Type} {cn : α → α → Ordering} {cn' : β → β → Ordering}
    {f : α → β} {x : α} {l l' : List α} (h : Placed cn x l l')
    (hcn : ∀ e ∈ l, cn x e = cn' (f x) (f e)) (hne : ∀ e ∈ l, cn x e ≠ .eq)
    (hgt : l.Pairwise fun e e' => cn x e = .gt → cn x e' = .gt) :
    l'.map f = scan cn' (f x) (l.map f) := by
  obtain ⟨a, b, rfl, rfl, ha, hb⟩ := h
  have hlt : ∀ e ∈ a, cn x e = .lt := by
    intro e he
    have hng : cn x e ≠ .gt := by
      intro hge
      rcases List.eq_nil_or_concat' a with rfl | ⟨c, t, rfl⟩
      · cases he
      · refine ha t (by simp) ?_
        rcases List.mem_append.mp he with he | he
        · exact (List.pairwise_append.mp (List.pairwise_append.mp hgt).1).2.2 e he t (by simp) hge
        · rwa [← List.mem_singleton.mp he]
    have hnq := hne e (List.mem_append_left b he)
    cases hc : cn x e <;> simp_all
  have hscan : ∀ c : List α, (∀ e ∈ c, cn' (f x) (f e) = .lt) →
      scan cn' (f x) ((c ++ b).map f) = c.map f ++ scan cn' (f x) (b.map f) := by
    intro c hc
    induction c with
    | nil => rfl
    | cons e c ih =>
      rw [List.cons_append, List.map_cons, scan, hc e (by simp),
        ih fun e' he' => hc e' (List.mem_cons_of_mem e he')]
      rfl
  rw [hscan a fun e he => (hcn e (List.mem_append_left b he)).symm.trans (hlt e he),
    List.map_append, List.map_cons]
  congr 1
  cases b with
  | nil => rfl
  | cons e b =>
    have hge : (cn' (f x) (f e)).isGE := by
      rw [← hcn e (by simp), Ordering.isGE_iff_ne_lt]
      intro hc
      obtain ⟨t, ht, heq⟩ := hb e rfl hc
      exact hne t (List.mem_append_left _ (List.mem_of_getLast? ht)) heq
    rw [List.map_cons, scan, if_pos hge]

namespace FairLock

structure Request (κ P : Type) where
  client : κ
  priority : P
  /-- It holds the lock and is asked to leave. -/
  evict : Bool
  /-- It has taken the lock. -/
  guard : Bool

inductive Answer | acquired | pending | evicted (ready : Bool) | unit | refused
  deriving DecidableEq, Repr

inductive Act | poll | cancel | drop | evicted
  deriving DecidableEq, Repr

section Operations

variable {κ P : Type} [Priority P]

def Request.compareNew (a b : Request κ P) : Ordering := Priority.compareNew a.priority b.priority

/-- A new request goes in front of the first one that it is not below. -/
def place (x : Request κ P) (q : List (Request κ P)) : List (Request κ P) :=
  Placement.scan Request.compareNew x q

/-- The holder once a request of some priority waits. -/
def outranked (evict : Bool) (p : P) (r : Request κ P) : Request κ P :=
  { r with evict := r.evict || evict && Priority.compare p r.priority == .gt }

def lock (evict : Bool) (p : P) (c : κ) : List (Request κ P) → Answer × List (Request κ P)
  | [] => (.acquired, [⟨c, p, false, true⟩])
  | holder :: q => (.pending, outranked evict p holder :: place ⟨c, p, false, false⟩ q)

variable [DecidableEq κ] (c : κ) (q : List (Request κ P))

def take : List (Request κ P) :=
  q.map fun r => if r.client = c then { r with guard := true } else r

def leave : List (Request κ P) := q.filter (·.client ≠ c)

def act (evict : Bool) (k : Act) : Answer × List (Request κ P) :=
  match q.find? (·.client = c), k with
  | none, _ => (.refused, q)
  | some r, .poll =>
      if r.guard then (.refused, q)
      else if q.head?.any (·.client = c) then (.acquired, take c q)
      else (.pending, q)
  | some r, .cancel => if r.guard then (.refused, q) else (.unit, leave c q)
  | some r, .drop => if r.guard then (.unit, leave c q) else (.refused, q)
  | some r, .evicted => if evict && r.guard then (.evicted r.evict, q) else (.refused, q)

end Operations

inductive Op (P : Type)
  | lock (priority : P)
  | act (act : Act) (client : ℕ)

structure State (P : Type) where
  queue : List (Request ℕ P)
  next : ℕ

def State.start {P : Type} : State P := ⟨[], 0⟩

def call {P : Type} [Priority P] (evict : Bool) (s : State P) : Op P → Answer × State P
  | .lock p => ((lock evict p s.next s.queue).1, ⟨(lock evict p s.next s.queue).2, s.next + 1⟩)
  | .act k c => ((act c s.queue evict k).1, { s with queue := (act c s.queue evict k).2 })

section Rename

variable {κ ι P : Type} [Priority P] {evict : Bool} {f : κ → ι} {c : κ} {p : P} {k : Act}
  {q : List (Request κ P)}

def Request.rename (f : κ → ι) (r : Request κ P) : Request ι P :=
  ⟨f r.client, r.priority, r.evict, r.guard⟩

theorem place_rename {x : Request κ P} :
    place (x.rename f) (q.map (Request.rename f)) = (place x q).map (Request.rename f) :=
  (Placement.map_scan (f := Request.rename f) q).symm

theorem lock_rename (evict : Bool) (p : P) (f : κ → ι) (c : κ) (q : List (Request κ P)) :
    lock evict p (f c) (q.map (Request.rename f)) =
    ((lock evict p c q).1, (lock evict p c q).2.map (Request.rename f)) := by
  cases q with
  | nil => rfl
  | cons r q =>
    have hp := place_rename (f := f) (x := ⟨c, p, false, false⟩) (q := q)
    rw [List.map_cons, lock, lock, List.map_cons, ← hp]
    rfl

variable [DecidableEq κ] [DecidableEq ι]

omit [Priority P] in
/-- Clients that keep apart may be renamed. -/
theorem act_rename (hf : ∀ r ∈ q, f r.client = f c → r.client = c) :
    act (f c) (q.map (Request.rename f)) evict k =
      ((act c q evict k).1, (act c q evict k).2.map (Request.rename f)) := by
  have hc : ∀ r ∈ q, (r.rename f).client = f c ↔ r.client = c :=
    fun r hr => ⟨hf r hr, congrArg f⟩
  have hfind : (q.map (Request.rename f)).find? (·.client = f c) =
      (q.find? (·.client = c)).map (Request.rename f) := by
    rw [List.find?_map]
    congr 1
    exact List.find?_congr fun r hr => decide_eq_decide.mpr (hc r hr)
  have hhead : (q.map (Request.rename f)).head?.any (·.client = f c) =
      q.head?.any (·.client = c) := by
    cases q with
    | nil => rfl
    | cons r q => exact decide_eq_decide.mpr (hc r (by simp))
  have htake : take (f c) (q.map (Request.rename f)) = (take c q).map (Request.rename f) := by
    rw [take, take, List.map_map, List.map_map]
    apply List.map_congr_left
    intro r hr
    by_cases h : r.client = c
    · simp [Request.rename, h]
    · have h' : f r.client ≠ f c := fun he => h (hf r hr he)
      simp [Request.rename, h, h']
  have hleave : leave (f c) (q.map (Request.rename f)) = (leave c q).map (Request.rename f) := by
    rw [leave, leave, List.filter_map]
    congr 1
    exact List.filter_congr fun r hr => decide_eq_decide.mpr (not_congr (hc r hr))
  unfold act
  rw [hfind, hhead, htake, hleave]
  cases q.find? (·.client = c) with
  | none => rfl
  | some r =>
    cases k with
    | poll =>
      simp only [Option.map_some, Request.rename]
      split
      · rfl
      · split <;> rfl
    | cancel | drop | evicted =>
      simp only [Option.map_some, Request.rename]
      split <;> rfl

end Rename

end FairLock

end PriorityLock
