import PriorityLock.Mutex.Eviction
import PriorityLock.Transition.Tally

/-! # Waiting is bounded

Under `FIFO` a request that waits is only overtaken by later ones of strictly
greater priority. So who is in front of it, and how many such requests arrive,
bounds how many others leave before the lock is handed to it.
-/

namespace PriorityLock.Mutex

open Placement Transition PriorityQueue

section Ahead

variable {a b hs : List Handle} {h x : Handle}

def ahead (h : Handle) (hs : List Handle) : List Handle := hs.takeWhile (· ≠ h)

theorem ahead_middle (ha : h ∉ a) : ahead h (a ++ h :: b) = a := by
  rw [ahead, List.takeWhile_append_of_pos, List.takeWhile_cons_of_neg]
  · simp
  · simp
  · intro x hx
    have hne : x ≠ h := by
      rintro rfl
      exact ha hx
    simpa using hne

theorem ahead_entry {D : Type} {e : Entry D} {a b : List (Entry D)}
    (hn : (handles (a ++ e :: b)).Nodup) :
    ahead e.handle (handles (a ++ e :: b)) = handles a := by
  rw [handles_append, handles_cons] at hn ⊢
  apply ahead_middle
  intro ha
  exact (List.nodup_cons.mp (List.nodup_middle.mp hn)).1 (List.mem_append_left _ ha)

theorem ahead_eq_nil (hh : h ∈ hs) : ahead h hs = [] ↔ hs.head? = some h := by
  cases hs with
  | nil => simp at hh
  | cons x hs => by_cases hx : x = h <;> simp [ahead, hx]

end Ahead

variable {P : Type} [Priority P]

/-- A call that requests the lock with a strictly greater priority. -/
def outbids (p : P) : Op P → Bool
  | .lock q => Priority.compare q p == .gt
  | _ => false

/-- A call takes an entry in front of `h` out of the queue. -/
def Departs (h : Handle) (op : Op P) (r : Result) (l : List (Entry (MutexWaiter P))) : Prop :=
  r = .unit ∧ ∃ x ∈ op.releases, x ∈ ahead h (handles l)

instance (h : Handle) (op : Op P) (r : Result) (l : List (Entry (MutexWaiter P))) :
    Decidable (Departs h op r l) :=
  inferInstanceAs (Decidable (_ ∧ _))

section Step

variable [LawfulPriority P] [DefaultCompareNew P] {evict : Bool} {op : Op (FIFO P)} {r : Result}
  {e x : Entry (MutexWaiter (FIFO P))} {a b l l' : List (Entry (MutexWaiter (FIFO P)))}

/-- A new request is only placed in front of those that it is strictly above. -/
theorem placed_above (hl : ∀ e ∈ a ++ b, hasLock e = false) (hd : Descending Priority.compare b)
    (hb : ∀ e ∈ b.head?, Priority.compareNew x e = .lt →
      ∃ t ∈ a.getLast?, Priority.compareNew x t = .eq)
    (he : e ∈ b) : Priority.compare x.data.priority e.data.priority = .gt := by
  have hn : ∀ f ∈ a ++ b, Priority.compareNew x f =
      (Priority.compare x.data.priority f.data.priority).then .lt := by
    intro f hf
    rw [compareNew_waiting (hl f hf), FIFO.compareNew_eq]
  cases b with
  | nil => simp at he
  | cons f b =>
    have hf : Priority.compare x.data.priority f.data.priority = .gt := by
      by_contra hc
      have hlt : Priority.compareNew x f = .lt := by
        rw [hn f (by simp)]
        cases hx : Priority.compare x.data.priority f.data.priority <;> simp_all
      obtain ⟨t, ht, heq⟩ := hb f rfl hlt
      rw [hn t (List.mem_append_left _ (List.mem_of_getLast? ht))] at heq
      cases hx : Priority.compare x.data.priority t.data.priority <;> simp [hx] at heq
    have hge : (Priority.compare f.data.priority e.data.priority).isGE := hd.head_isGE e he
    exact Std.TransCmp.gt_of_gt_of_isGE hf hge

/-- An entry is still queued. Whoever left in front of it has brought it forward, and only a request
that is strictly above it may have put it back. -/
def Stays (e : Entry (MutexWaiter P)) (op : Op P) (r : Result)
    (l l' : List (Entry (MutexWaiter P))) : Prop :=
  ∃ f ∈ l', f.handle = e.handle ∧ f.data.priority = e.data.priority ∧
    (ahead e.handle (handles l')).length + (if Departs e.handle op r l then 1 else 0) ≤
      (ahead e.handle (handles l)).length + if outbids e.data.priority op = true then 1 else 0

omit [LawfulPriority P] [DefaultCompareNew P] in
theorem stays_same {e : Entry (MutexWaiter P)} {op : Op P} {l : List (Entry (MutexWaiter P))}
    (he : e ∈ l) (hr : r ≠ .unit) : Stays e op r l l := by
  have hd : ¬ Departs e.handle op r l := fun h => hr h.1
  refine ⟨e, he, rfl, rfl, ?_⟩
  rw [if_neg hd]
  exact Nat.le_add_right _ _

omit [LawfulPriority P] [DefaultCompareNew P] in
theorem Stays.of_split {e f : Entry (MutexWaiter P)} {op : Op P}
    {l l' : List (Entry (MutexWaiter P))} (a a' b b' : List (Entry (MutexWaiter P)))
    (hn : (handles l).Nodup) (hn' : (handles l').Nodup) (hl : l = a ++ e :: b)
    (hl' : l' = a' ++ f :: b') (hfe : f.handle = e.handle) (hp : f.data.priority = e.data.priority)
    (hle : a'.length + (if r = .unit ∧ ∃ x ∈ op.releases, x ∈ handles a then 1 else 0) ≤
      a.length + if outbids e.data.priority op = true then 1 else 0) : Stays e op r l l' := by
  subst hl hl'
  refine ⟨f, by simp, hfe, hp, ?_⟩
  have hf := ahead_entry hn'
  rw [hfe] at hf
  have hlen : ∀ l : List (Entry (MutexWaiter P)), (handles l).length = l.length :=
    fun l => List.length_map _
  simp only [Departs, ahead_entry hn, hf, hlen]
  exact hle

theorem Moves.stays (hm : Moves evict op r l l') (hl : Led l) (hn : (handles l).Nodup)
    (hn' : (handles l').Nodup) (hd : Descending Priority.compare l.tail) (he : e ∈ l)
    (hh : e.handle ∈ handles l') : Stays e op r l l' := by
  cases hm with
  | lock_free | tryLock_free => simp at he
  | @lock_wait p h d t t' hnew hp =>
    rcases List.mem_cons.mp he with rfl | he
    · exact Stays.of_split [] [] _ _ hn hn' rfl rfl outranked_handle outranked_priority (by simp)
    obtain ⟨u, v, rfl, rfl, -, hv⟩ := hp
    rcases List.mem_append.mp he with he | he
    · obtain ⟨u, w, rfl⟩ := List.append_of_mem he
      exact Stays.of_split (d :: u) (outranked evict p d :: u) (w ++ v) _ hn hn' (by simp)
        (by simp; rfl) rfl rfl (by simp)
    · have habove := placed_above hl.2 hd.right hv he
      obtain ⟨w, v, rfl⟩ := List.append_of_mem he
      refine Stays.of_split (d :: u ++ w) (outranked evict p d :: u ++ ⟨h, .new p false⟩ :: w) v v
        hn hn' (by simp) (by simp) rfl rfl ?_
      have hout : outbids e.data.priority (.lock p) = true := beq_iff_eq.mpr habove
      simp [hout]
      omega
  | tryLock_held | poll_ready | poll_pending | evicted | refused => exact stays_same he nofun
  | @release _ d t hop =>
    have hne : e ≠ d := by
      rintro rfl
      cases t <;> exact (List.nodup_cons.mp hn).1 hh
    obtain ⟨u, w, rfl⟩ := List.append_of_mem (List.mem_of_ne_of_mem hne he)
    cases u with
    | nil =>
      refine Stays.of_split [d] [] w w hn hn' rfl rfl rfl rfl ?_
      split <;> simp
    | cons c u =>
      refine Stays.of_split (d :: c :: u) (⟨c.handle, c.data.start⟩ :: u) w w hn hn' rfl rfl rfl
        rfl ?_
      split
      · simp
      · simp
        omega
  | @leave _ d a b hop hd' =>
    have hnd : d.handle ∉ handles (a ++ b) := by
      rw [handles_append, handles_cons] at hn
      rw [handles_append]
      exact (List.nodup_cons.mp (List.nodup_middle.mp hn)).1
    have hne : e ≠ d := by
      rintro rfl
      exact hnd hh
    have hmem : e ∈ a ++ b := by
      rcases List.mem_append.mp he with he | he
      · exact List.mem_append_left _ he
      · exact List.mem_append_right _ (List.mem_of_ne_of_mem hne he)
    rcases List.mem_append.mp hmem with he | he
    · obtain ⟨u, w, rfl⟩ := List.append_of_mem he
      refine Stays.of_split u u (w ++ d :: b) (w ++ b) hn hn' (by simp) (by simp) rfl rfl ?_
      -- the entry that leaves is behind this one
      have hnot : ¬ ∃ x ∈ op.releases, x ∈ handles u := by
        rintro ⟨x, hx, hxu⟩
        obtain rfl : d.handle = x := Option.some.inj (hop.symm.trans hx)
        exact hnd (by simp [hxu])
      rw [if_neg fun h => hnot h.2]
      exact Nat.le_add_right _ _
    · obtain ⟨u, w, rfl⟩ := List.append_of_mem he
      refine Stays.of_split (a ++ d :: u) (a ++ u) w w hn hn' (by simp) (by simp) rfl rfl ?_
      split <;> simp <;> omega

end Step

section Runs

variable {Q : Type} [PriorityQueue Q (MutexWaiter P)] {evict : Bool} {h : Handle}

def departures (evict : Bool) (h : Handle) (s : System Q) (op : Op P) : ℕ :=
  match call evict s op, entries s.mutex.queue with
  | some (r, _), some l => if Departs h op r l then 1 else 0
  | _, _ => 0

variable [LawfulQueue Q (MutexWaiter P)]

/-- An entry that is queued with so many others in front of it. -/
def Behind (h : Handle) (p : P) (s : System Q) (n : ℕ) : Prop :=
  ∃ l, Holds s l ∧ Ordered (fun _ _ _ => True) (handles s.owned) l ∧
    ∃ e ∈ l, e.handle = h ∧ e.data.priority = p ∧ (ahead h (handles l)).length = n

theorem Holds.departures {s s' : System Q} {op : Op P} {r : Result}
    {l : List (Entry (MutexWaiter P))} (hs : Holds s l)
    (hc : Mutex.call evict s op = some (r, s')) :
    Mutex.departures evict h s op = if Departs h op r l then 1 else 0 := by
  rw [Mutex.departures, hc, LawfulQueue.entries_eq hs.rep]

omit [Priority P] in
theorem Led.hasLock_iff {l : List (Entry (MutexWaiter P))} {e : Entry (MutexWaiter P)}
    (hl : Led l) (hn : (handles l).Nodup) (he : e ∈ l) :
    hasLock e = true ↔ ahead e.handle (handles l) = [] := by
  rw [ahead_eq_nil (mem_handles he)]
  cases l with
  | nil => cases he
  | cons d t =>
    rw [handles_cons, List.head?_cons, Option.some.injEq]
    constructor
    · intro hle
      rcases List.mem_cons.mp he with rfl | he
      · rfl
      · rw [hl.2 e he] at hle
        cases hle
    · intro hd
      obtain rfl : d = e := List.inj_on_of_nodup_map hn (by simp) he hd
      exact hl.1

end Runs

section Bound

variable [LawfulPriority P] [DefaultCompareNew P] {Q : Type}
  [PriorityQueue Q (MutexWaiter (FIFO P))] [LawfulQueue Q (MutexWaiter (FIFO P))]
  {evict : Bool} {h : Handle} {p : FIFO P}

theorem Behind.step {s s' : System Q} {op : Op (FIFO P)} {n : ℕ} (hb : Behind h p s n)
    (hs' : after (call evict) s op = some s') (hq : h ∈ handles s'.owned) :
    ∃ n', Behind h p s' n' ∧ n' + departures evict h s op ≤
      n + if outbids p op = true then 1 else 0 := by
  obtain ⟨l, hs, ho, e, he, rfl, rfl, rfl⟩ := hb
  obtain ⟨r, t, l', hc, ht, hm⟩ := hs.call evict op
  obtain rfl : t = s' := Option.some.inj ((after_eq hc).symm.trans hs')
  have hn := LawfulQueue.nodup hs.rep
  obtain ⟨f, hf, hfe, hfp, hle⟩ := hm.stays hs.led hn (LawfulQueue.nodup ht.rep) ho.descending he
    (ht.perm.mem_iff.mpr hq)
  refine ⟨_, ⟨l', ht, ?_, f, hf, hfe, hfp, rfl⟩, ?_⟩
  · rw [handles_call hc]
    exact hm.ordered trivial_rule hs.led hs.mem_owned hn ho
  · rw [hs.departures hc]
    exact hle

end Bound

/-- While a request is queued under `FIFO`, the entries in front of it at the end and those that
have left in front of it are no more than those in front of it at the start and the later requests
of strictly greater priority. It has the lock as soon as nobody is in front of it. -/
theorem waiting_bounded (k : QueueKind) {P : Type} [Priority P] [LawfulPriority P]
    [DefaultCompareNew P] (evict : Bool) (before later : List (Op (FIFO P))) (h : Handle)
    (hq : Throughout (after (call evict))
      (System.start (new : Mutex (k.Queue (MutexWaiter (FIFO P))))) (fun s => h ∈ handles s.owned)
      before later) :
    ∃ (s : System (k.Queue (MutexWaiter (FIFO P)))) (l : List (Entry (MutexWaiter (FIFO P))))
      (s' : System (k.Queue (MutexWaiter (FIFO P)))) (l' : List (Entry (MutexWaiter (FIFO P)))),
      run (after (call evict)) (System.start new) before = some s ∧
      entries s.mutex.queue = some l ∧ run (after (call evict)) s later = some s' ∧
      entries s'.mutex.queue = some l' ∧ ∃ e ∈ l, e.handle = h ∧ ∃ f ∈ l', f.handle = h ∧
        (hasLock f = true ↔ ahead h (handles l') = []) ∧
        (ahead h (handles l')).length + tally (after (call evict)) (departures evict h) s later ≤
          (ahead h (handles l)).length + later.countP (outbids e.data.priority) := by
  obtain ⟨s, l, hr, hs, ho⟩ :=
    run_ordered (Q := k.Queue (MutexWaiter (FIFO P))) (trivial_rule (P := FIFO P)) evict before
  have hin : h ∈ handles s.owned := by
    obtain ⟨t, ht, hh⟩ := hq [] List.nil_prefix
    rw [List.append_nil, hr] at ht
    exact Option.some.inj ht ▸ hh
  obtain ⟨e, he, rfl⟩ := List.mem_map.mp (hs.perm.mem_iff.mpr hin)
  have hb : Behind e.handle e.data.priority s _ := ⟨l, hs, ho, e, he, rfl, rfl, rfl⟩
  obtain ⟨s', n, hr', ⟨l', hs', -, f, hf, hfe, -, rfl⟩, hle⟩ :=
    tally_le (outbids e.data.priority) (fun s o s' n => Behind.step) hr hq hb
  have hlock := hs'.led.hasLock_iff (LawfulQueue.nodup hs'.rep) hf
  rw [hfe] at hlock
  exact ⟨s, l, s', l', hr, LawfulQueue.entries_eq hs.rep, hr', LawfulQueue.entries_eq hs'.rep,
    e, he, rfl, f, hf, hfe, hlock, hle⟩

theorem waiting_bounded_outbid :
    ∃ (s s' : System (QueueKind.dualArena.Queue (MutexWaiter (FIFO ℕ))))
    (l l' : List (Entry (MutexWaiter (FIFO ℕ)))),
    run (after (call true)) (System.start new) [.lock ⟨0⟩, .lock ⟨0⟩, .lock ⟨0⟩] = some s ∧
    entries s.mutex.queue = some l ∧
    run (after (call true)) s [.lock ⟨1⟩, .drop 0] = some s' ∧ entries s'.mutex.queue = some l' ∧
    (ahead 96 (handles l')).length +
      tally (after (call true)) (departures true 96) s [.lock ⟨1⟩, .drop 0] ≤
        (ahead 96 (handles l)).length + 1 := by
  have hq : Throughout (after (call true))
      (System.start (new : Mutex (QueueKind.dualArena.Queue (MutexWaiter (FIFO ℕ)))))
      (fun s => (96 : Handle) ∈ handles s.owned) [.lock ⟨0⟩, .lock ⟨0⟩, .lock ⟨0⟩]
      ([] ++ [.lock ⟨1⟩] ++ [.drop 0]) := by
    rw [throughout_concat, throughout_concat, throughout_nil]
    exact ⟨⟨⟨_, rfl, by decide⟩, _, rfl, by decide⟩, _, rfl, by decide⟩
  obtain ⟨s, l, s', l', hr, hl, hr', hl', e, -, -, f, -, -, -, hle⟩ :=
    waiting_bounded QueueKind.dualArena true _ _ 96 hq
  refine ⟨s, s', l, l', hr, hl, hr', hl', hle.trans (Nat.add_le_add_left ?_ _)⟩
  rw [List.nil_append, List.countP_append, List.countP_singleton, List.countP_singleton]
  have hd : outbids e.data.priority (.drop 0) = false := rfl
  rw [hd]
  cases outbids e.data.priority (.lock ⟨1⟩) <;> decide

end PriorityLock.Mutex
