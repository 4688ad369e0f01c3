import PriorityLock.Mutex.Order
import PriorityLock.Transition.History

/-! # Requests to give up the lock

The holder is flagged exactly when a request above it arrived while it had the
lock. Nothing that waits is flagged, and since a new holder is never below what
waits, an unflagged holder is not below any request.
-/

namespace PriorityLock.Mutex

open Placement Transition PriorityQueue

variable {P : Type}

def wantsEvict (e : Entry (MutexWaiter P)) : Bool := e.data.waiter.wantsEvict

section Moves

variable [Priority P] {op : Op P} {r : Result} {e f : Entry (MutexWaiter P)}
  {t l l' : List (Entry (MutexWaiter P))} {A : List Handle} {p : P}

@[simp] theorem outranked_priority {evict : Bool} :
    (outranked evict p e).data.priority = e.data.priority := by
  unfold outranked
  split <;> rfl

theorem wantsEvict_outranked : wantsEvict (outranked true p e) = true ↔
    wantsEvict e = true ∨ Priority.compare p e.data.priority = .gt := by
  unfold outranked
  split
  · next h => exact ⟨fun _ => Or.inr h.2, fun _ => rfl⟩
  · next h =>
    have hne : Priority.compare p e.data.priority ≠ .gt := by simpa using h
    simp [hne]

/-- No request that waits is flagged, and a holder below one of them is. -/
structure Notified (l : List (Entry (MutexWaiter P))) : Prop where
  waiting : ∀ f ∈ l, hasLock f = false → wantsEvict f = false
  holder : ∀ e ∈ l, hasLock e = true → ∀ f ∈ l, hasLock f = false →
    Priority.compare f.data.priority e.data.priority = .gt → wantsEvict e = true

omit [Priority P] in
theorem Led.eq_head (h : Led (e :: t)) (hf : f ∈ e :: t) (hl : hasLock f = true) : f = e := by
  rcases List.mem_cons.mp hf with rfl | hf
  · rfl
  · simp [h.2 f hf] at hl

variable [LawfulPriority P]

theorem Moves.notified (h : Moves true op r l l') (hl : Led l)
    (hd : Descending Priority.compare l.tail) (hn : Notified l) : Notified l' := by
  have hl' := h.led hl
  obtain ⟨hw, hh⟩ := id hn
  cases h with
  | lock_free | tryLock_free => constructor <;> simp [hasLock, MutexWaiter.new, Waiter.new]
  | @lock_wait p x e t t' hx hp =>
    have hmem : ∀ f ∈ outranked true p e :: t', hasLock f = false →
        f = ⟨x, .new p false⟩ ∨ f ∈ t := by
      intro f hf hlf
      rcases List.mem_cons.mp hf with rfl | hf
      · simp [hl.1] at hlf
      · exact List.mem_cons.mp (hp.perm.mem_iff.mp hf)
    constructor
    · intro f hf hlf
      rcases hmem f hf hlf with rfl | hf
      · rfl
      · exact hw f (List.mem_cons_of_mem e hf) hlf
    · intro g hg hlg f hf hlf hgt
      obtain rfl : g = outranked true p e := hl'.eq_head hg hlg
      rw [outranked_priority] at hgt
      rw [wantsEvict_outranked]
      rcases hmem f hf hlf with rfl | hf
      · exact Or.inr hgt
      · exact Or.inl (hh e (by simp) hl.1 f (List.mem_cons_of_mem e hf) hlf hgt)
  | @release _ e t hop =>
    cases t with
    | nil => constructor <;> simp [handOver]
    | cons f t =>
      constructor
      · intro g hg hlg
        rcases List.mem_cons.mp hg with rfl | hg
        · cases hlg
        · exact hw g (by simp [hg]) hlg
      · intro g hg hlg d hd' hld hgt
        obtain rfl := hl'.eq_head hg hlg
        rcases List.mem_cons.mp hd' with rfl | hd'
        · cases hld
        -- the new holder comes first in the order, so nothing is above it
        have hge : (Priority.compare f.data.priority d.data.priority).isGE :=
          List.rel_of_pairwise_cons hd hd'
        exact absurd hgt (Ordering.isLE_iff_ne_gt.mp (Std.OrientedCmp.isGE_iff_isLE.mp hge))
  | @leave _ e a b hop he =>
    have hsub : ∀ f ∈ a ++ b, f ∈ a ++ e :: b :=
      fun f hf => ((List.sublist_cons_self e b).append_left a).subset hf
    constructor
    · exact fun f hf => hw f (hsub f hf)
    · exact fun g hg hlg f hf => hh g (hsub g hg) hlg f (hsub f hf)
  | _ => exact hn

end Moves

section Calls

variable {Q : Type} [Priority P] [PriorityQueue Q (MutexWaiter P)]

def Locks (h : Handle) (s : System Q) : Prop :=
  ∃ l, entries s.mutex.queue = some l ∧ ∃ e ∈ l, e.handle = h ∧ hasLock e = true

/-- A call of `lock` with a greater priority is queued. -/
def Outranks (p : P) (s : System Q) (op : Op P) : Prop :=
  ∃ q h s', op = .lock q ∧ Priority.compare q p = .gt ∧ call true s op = some (.pending h, s')

/-- A request above the holder was queued since it has had the lock. -/
def Challenged (s₀ : System Q) (e : Entry (MutexWaiter P)) (ops : List (Op P)) : Prop :=
  SinceStep (after (call true)) s₀ (Locks e.handle) (Outranks e.data.priority) ops

variable [LawfulQueue Q (MutexWaiter P)] {s₀ s s' : System Q} {op : Op P} {ops : List (Op P)}
  {r : Result} {e e' f : Entry (MutexWaiter P)} {l l' t t' : List (Entry (MutexWaiter P))}

theorem Holds.locks_iff (hs : Holds s (e :: t)) {h : Handle} : Locks h s ↔ e.handle = h := by
  constructor
  · rintro ⟨l, hl, f, hf, rfl, hlock⟩
    rw [LawfulQueue.entries_eq hs.rep] at hl
    obtain rfl := Option.some.inj hl
    rcases List.mem_cons.mp hf with rfl | hf
    · rfl
    · simp [hs.led.2 f hf] at hlock
  · rintro rfl
    exact ⟨e :: t, LawfulQueue.entries_eq hs.rep, e, by simp, rfl, hs.led.1⟩

theorem Holds.not_locks (hs : Holds s ([] : List (Entry (MutexWaiter P)))) {h : Handle} :
    ¬Locks h s := by
  rintro ⟨l, hl, f, hf, -⟩
  rw [LawfulQueue.entries_eq hs.rep] at hl
  obtain rfl := Option.some.inj hl
  simp at hf

theorem Holds.challenged_stay (hs : Holds s (e :: t)) (hs' : Holds s' (e' :: t'))
    (hr : run (after (Mutex.call true)) s₀ ops = some s) (hc : Mutex.call true s op = some (r, s'))
    (hh : e'.handle = e.handle) (hp : e'.data.priority = e.data.priority) :
    Challenged s₀ e' (ops ++ [op]) ↔ Challenged s₀ e ops ∨ Outranks e.data.priority s op := by
  rw [Challenged, sinceStep_concat hr (after_eq hc), hh, hp, hs.locks_iff, hs'.locks_iff,
    Challenged]
  tauto

omit [LawfulQueue Q (MutexWaiter P)] in
theorem not_challenged (hl : ¬Locks e.handle s)
    (hr : run (after (Mutex.call true)) s₀ ops = some s)
    (hc : Mutex.call true s op = some (r, s')) : ¬Challenged s₀ e (ops ++ [op]) := by
  rw [Challenged, sinceStep_concat hr (after_eq hc)]
  rintro ⟨-, ⟨h, -⟩ | h⟩
  · exact hl h
  · exact hl (h.now hr)

theorem Holds.flagged_stay (hs : Holds s (e :: t)) (hs' : Holds s' (e :: t'))
    (hr : run (after (Mutex.call true)) s₀ ops = some s) (hc : Mutex.call true s op = some (r, s'))
    (hop : ∀ q h, op = .lock q → r ≠ .pending h)
    (hi : wantsEvict e = true ↔ Challenged s₀ e ops) :
    wantsEvict e = true ↔ Challenged s₀ e (ops ++ [op]) := by
  rw [hs.challenged_stay hs' hr hc rfl rfl, hi, or_iff_left]
  rintro ⟨q, h, s'', rfl, -, hc'⟩
  rw [hc] at hc'
  exact hop q h rfl (Prod.mk.inj (Option.some.inj hc')).1

/-- A call keeps the flag of the holder exact. -/
theorem Holds.flagged (hs : Holds s l) (hs' : Holds s' l')
    (hr : run (after (Mutex.call true)) s₀ ops = some s) (hc : Mutex.call true s op = some (r, s'))
    (hm : Moves true op r l l') (hn : Notified l)
    (hi : ∀ e ∈ l.head?, wantsEvict e = true ↔ Challenged s₀ e ops) :
    ∀ e ∈ l'.head?, wantsEvict e = true ↔ Challenged s₀ e (ops ++ [op]) := by
  have hstay : ∀ {l t t' : List (Entry (MutexWaiter P))} {e : Entry (MutexWaiter P)}, Holds s l →
      l = e :: t → Holds s' (e :: t') → (∀ q h, op = .lock q → r ≠ .pending h) →
      (∀ e ∈ l.head?, wantsEvict e = true ↔ Challenged s₀ e ops) →
      (wantsEvict e = true ↔ Challenged s₀ e (ops ++ [op])) := by
    rintro l t t' e hs rfl hs' hop hi
    exact hs.flagged_stay hs' hr hc hop (hi e rfl)
  intro e' he'
  cases hm with
  | lock_free | tryLock_free =>
    obtain rfl := (Option.some.inj he')
    exact iff_of_false nofun (not_challenged hs.not_locks hr hc)
  | @lock_wait p x e t t' hx hp =>
    obtain rfl := (Option.some.inj he')
    rw [hs.challenged_stay hs' hr hc outranked_handle outranked_priority, wantsEvict_outranked,
      hi e rfl]
    have hcall : Outranks e.data.priority s (.lock p) ↔
        Priority.compare p e.data.priority = .gt := by
      constructor
      · rintro ⟨q, h, s'', hq, hgt, -⟩
        obtain rfl := Op.lock.inj hq
        exact hgt
      · exact fun hgt => ⟨p, x, s', rfl, hgt, hc⟩
    rw [hcall]
  | @release _ e t hop =>
    cases t with
    | nil => cases he'
    | cons f t =>
      obtain rfl := (Option.some.inj he')
      have hw : wantsEvict ⟨f.handle, f.data.start⟩ = false :=
        hn.waiting f (by simp) (hs.led.2 f (by simp))
      have hne : e.handle ≠ f.handle := by
        intro heq
        have hnd := List.nodup_cons.mp (LawfulQueue.nodup hs.rep)
        exact hnd.1 (by simp [heq])
      refine iff_of_false (by simp [hw]) (not_challenged ?_ hr hc)
      exact fun hlock => hne (hs.locks_iff.mp hlock)
  | @leave _ e a b hop he =>
    obtain ⟨g, c, rfl⟩ := hs.led.ne_nil he
    obtain rfl := (Option.some.inj he')
    refine hstay hs rfl hs' ?_ hi
    rintro q h rfl
    cases hop
  | tryLock_held | poll_ready =>
    obtain rfl := (Option.some.inj he')
    exact hstay hs rfl hs' (by simp) hi
  | poll_pending | evicted | refused =>
    obtain ⟨t, ht⟩ := List.head?_eq_some_iff.mp he'
    exact hstay hs ht (ht ▸ hs') (by simp) hi

theorem run_notified [LawfulPriority P] (ops : List (Op P)) : ∃ s l,
    run (after (Mutex.call true)) (System.start (new : Mutex Q)) ops = some s ∧ Holds s l ∧
      Notified l ∧ ∀ e ∈ l.head?, wantsEvict e = true ↔
        Challenged (System.start (new : Mutex Q)) e ops := by
  have hstep : ∀ (ops : List (Op P)) (s : System Q) (op : Op P),
      run (after (Mutex.call true)) (System.start (new : Mutex Q)) ops = some s →
      (∃ l, Holds s l ∧ Ordered (fun _ _ _ => True) (handles s.owned) l ∧ Notified l ∧
        ∀ e ∈ l.head?, wantsEvict e = true ↔ Challenged (System.start (new : Mutex Q)) e ops) →
      ∃ s', after (Mutex.call true) s op = some s' ∧
        ∃ l, Holds s' l ∧ Ordered (fun _ _ _ => True) (handles s'.owned) l ∧ Notified l ∧
          ∀ e ∈ l.head?, wantsEvict e = true ↔
            Challenged (System.start (new : Mutex Q)) e (ops ++ [op]) := by
    rintro ops s op hr ⟨l, hs, ho, hn, hi⟩
    obtain ⟨r, s', l', hc, hs', hm⟩ := hs.call true op
    have ho' := hm.ordered trivial_rule hs.led hs.mem_owned (LawfulQueue.nodup hs.rep) ho
    rw [← handles_call hc] at ho'
    exact ⟨s', after_eq hc, l', hs', ho', hm.notified hs.led ho.descending hn,
      hs.flagged hs' hr hc hm hn hi⟩
  obtain ⟨s, hr, l, hs, -, hn, hi⟩ := run_history
    ⟨[], Holds.start, ⟨.nil, .nil⟩, ⟨by simp, by simp⟩, by simp⟩ hstep ops
  exact ⟨s, l, hr, hs, hn, hi⟩

end Calls

/-- A holder is flagged if and only if a request above it was queued since it has had the lock,
pending requests are not flagged, and a holder below one of them is. -/
theorem eviction_exact (k : QueueKind) {P : Type} [Priority P] [LawfulPriority P]
    (ops : List (Op P)) :
    ∃ (s : System (k.Queue (MutexWaiter P))) (l : List (Entry (MutexWaiter P))),
      run (after (call true)) (System.start new) ops = some s ∧ entries s.mutex.queue = some l ∧
      (∀ e ∈ l, hasLock e = true →
        (wantsEvict e = true ↔
          Challenged (System.start (new : Mutex (k.Queue (MutexWaiter P)))) e ops)) ∧
      (∀ f ∈ l, hasLock f = false → wantsEvict f = false) ∧
      ∀ e ∈ l, hasLock e = true → ∀ f ∈ l, hasLock f = false →
        Priority.compare f.data.priority e.data.priority = .gt → wantsEvict e = true := by
  obtain ⟨s, l, hr, hs, hn, hi⟩ := run_notified (Q := k.Queue (MutexWaiter P)) ops
  refine ⟨s, l, hr, LawfulQueue.entries_eq hs.rep, ?_, hn.waiting, hn.holder⟩
  intro e he hl
  cases l with
  | nil => simp at he
  | cons g t =>
    obtain rfl := hs.led.eq_head he hl
    exact hi e rfl

theorem eviction_exact_handed_over :
    ∃ (s : System (QueueKind.dualArena.Queue (MutexWaiter ℕ))) (l : List (Entry (MutexWaiter ℕ))),
      run (after (call true)) (System.start new)
        [.lock 0, .lock 1, .lock 2, .drop 0, .lock 3] = some s ∧
      entries s.mutex.queue = some l ∧
      (∀ e ∈ l, hasLock e = true → (wantsEvict e = true ↔
        Challenged (System.start (new : Mutex (QueueKind.dualArena.Queue (MutexWaiter ℕ)))) e
          [.lock 0, .lock 1, .lock 2, .drop 0, .lock 3])) ∧
      (∀ f ∈ l, hasLock f = false → wantsEvict f = false) ∧
      ∀ e ∈ l, hasLock e = true → ∀ f ∈ l, hasLock f = false →
        Priority.compare f.data.priority e.data.priority = .gt → wantsEvict e = true :=
  eviction_exact _ _

end PriorityLock.Mutex
