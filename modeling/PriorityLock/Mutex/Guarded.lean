import PriorityLock.Mutex.Order
import PriorityLock.Transition.History

/-! # The data behind the mutex

A guard gives access to the data of its mutex. While somebody has a guard the
data only changes through it, so what its owner has read stays true until the
owner writes.
-/

namespace PriorityLock.Mutex

open Transition PriorityQueue

variable {Q P T : Type}

/-- A mutex with the data that it guards. -/
structure Guarded (Q T : Type) where
  sys : System Q
  data : T

def Guarded.new [Priority P] [PriorityQueue Q (MutexWaiter P)] (val : T) : Guarded Q T :=
  ⟨System.start Mutex.new, val⟩

/-- A call, or a use of what `deref` or `deref_mut` returns for a guard. -/
inductive Access (P T : Type)
  | call (op : Op P)
  | deref (guard : Handle)
  | derefMut (guard : Handle) (write : T → T)

inductive Reply (T : Type)
  | result (result : Result)
  | value (value : T)
  | unit
  | refused

def Guards (h : Handle) (s : Guarded Q T) : Prop := lookup s.sys.owned h = some ⟨h, .guard⟩

instance (h : Handle) (s : Guarded Q T) : Decidable (Guards h s) :=
  inferInstanceAs (Decidable (_ = _))

def access [Priority P] [PriorityQueue Q (MutexWaiter P)] (evict : Bool) (s : Guarded Q T) :
    Access P T → Option (Reply T × Guarded Q T)
  | .call op => (call evict s.sys op).map fun (r, sys) => (.result r, { s with sys })
  | .deref h => if Guards h s then some (.value s.data, s) else some (.refused, s)
  | .derefMut h f => if Guards h s then some (.unit, { s with data := f s.data })
      else some (.refused, s)

def Access.writes (h : Handle) : Access P T → Option (T → T)
  | .derefMut g f => if g = h then some f else none
  | _ => none

/-- The data after the writes through a guard. -/
def written (h : Handle) (v : T) (accesses : List (Access P T)) : T :=
  (accesses.filterMap (Access.writes h)).foldl (fun v f => f v) v

section Steps

variable [Priority P] [PriorityQueue Q (MutexWaiter P)] [LawfulQueue Q (MutexWaiter P)]
  {evict : Bool} {s s' : Guarded Q T} {g h : Handle} {a : Access P T}
  {l : List (Entry (MutexWaiter P))}

theorem Holds.guards_unique (hs : Holds s.sys l) (hg : Guards g s) (hh : Guards h s) : g = h := by
  have hg' := hs.guard _ (mem_of_lookup hg).1 rfl
  have hh' := hs.guard _ (mem_of_lookup hh).1 rfl
  exact Option.some.inj (hg'.symm.trans hh')

theorem Holds.access (hs : Holds s.sys l) (evict : Bool) (a : Access P T) : ∃ r s' l',
    Mutex.access evict s a = some (r, s') ∧ Holds s'.sys l' := by
  cases a with
  | call op =>
    obtain ⟨r, sys, l', hc, hs', -⟩ := hs.call evict op
    exact ⟨.result r, { s with sys }, l', by simp [Mutex.access, hc], hs'⟩
  | deref g =>
    by_cases hg : Guards g s
    · exact ⟨.value s.data, s, l, if_pos hg, hs⟩
    · exact ⟨.refused, s, l, if_neg hg, hs⟩
  | derefMut g f =>
    by_cases hg : Guards g s
    · exact ⟨.unit, _, l, if_pos hg, hs⟩
    · exact ⟨.refused, s, l, if_neg hg, hs⟩

/-- While somebody has a guard, an access writes what it writes through that one. -/
theorem Holds.data_access (hs : Holds s.sys l) (hh : Guards h s)
    (ha : after (Mutex.access evict) s a = some s') : s'.data = written h s.data [a] := by
  cases a with
  | call op =>
    obtain ⟨⟨r, t⟩, hc, rfl⟩ := Option.map_eq_some_iff.mp ha
    obtain ⟨⟨r, sys⟩, -, heq⟩ := Option.map_eq_some_iff.mp hc
    obtain ⟨-, rfl⟩ := Prod.mk.inj heq
    rfl
  | deref g =>
    have hs' : s' = s := by
      by_cases hg : Guards g s <;> simp_all [after, Mutex.access]
    rw [hs']
    rfl
  | derefMut g f =>
    by_cases hg : Guards g s
    · obtain rfl := hs.guards_unique hg hh
      obtain rfl : { s with data := f s.data } = s' := by simpa [after, Mutex.access, hg] using ha
      simp [written, Access.writes]
    · have hne : g ≠ h := by
        rintro rfl
        exact hg hh
      obtain rfl : s = s' := by simpa [after, Mutex.access, hg] using ha
      simp [written, Access.writes, hne]

omit [Priority P] [PriorityQueue Q (MutexWaiter P)] [LawfulQueue Q (MutexWaiter P)] in
theorem written_concat (v : T) (accesses : List (Access P T)) (a : Access P T) :
    written h v (accesses ++ [a]) = written h (written h v accesses) [a] := by
  rw [written, written, written, List.filterMap_append, List.foldl_append]

theorem run_holds_guarded (evict : Bool) (v : T) (accesses : List (Access P T)) :
    ∃ (s : Guarded Q T) (l : List (Entry (MutexWaiter P))),
      run (after (access evict)) (Guarded.new v) accesses = some s ∧ Holds s.sys l := by
  have hstep : ∀ (s : Guarded Q T) (a : Access P T), (∃ l, Holds (P := P) s.sys l) →
      ∃ s', after (access evict) s a = some s' ∧ ∃ l, Holds (P := P) s'.sys l := by
    rintro s a ⟨l, hs⟩
    obtain ⟨r, s', l', ha, hs'⟩ := hs.access evict a
    exact ⟨s', after_eq ha, l', hs'⟩
  have hstart : ∃ l, Holds (P := P) (Guarded.new v : Guarded Q T).sys l := ⟨[], Holds.start⟩
  obtain ⟨s, hr, l, hs⟩ := run_keeps hstep hstart accesses
  exact ⟨s, l, hr, hs⟩

theorem run_written {v : T} {before later : List (Access P T)}
    (hr : run (after (access evict)) (Guarded.new v : Guarded Q T) before = some s)
    (hg : Throughout (after (access evict)) (Guarded.new v : Guarded Q T) (Guards h) before later) :
    ∃ t, run (after (access evict)) s later = some t ∧ t.data = written h s.data later := by
  induction later using List.reverseRecOn with
  | nil => exact ⟨s, rfl, rfl⟩
  | append_singleton later a ih =>
    obtain ⟨hg, s₂, hr₂, -⟩ := throughout_concat.mp hg
    obtain ⟨s₁, hr₁, hd⟩ := ih hg
    have hall : run (after (access evict)) (Guarded.new v : Guarded Q T) (before ++ later) =
        some s₁ := by rw [run_append, hr, Option.bind_some, hr₁]
    obtain ⟨t, l, ht, hs⟩ := run_holds_guarded (Q := Q) evict v (before ++ later)
    obtain rfl : t = s₁ := Option.some.inj (ht.symm.trans hall)
    have ha : after (access evict) t a = some s₂ := (run_concat hall).symm.trans hr₂
    refine ⟨s₂, (run_concat hr₁).trans ha, ?_⟩
    rw [hs.data_access (hg.now hall) ha, written_concat, hd]

end Steps

/-- While somebody has a guard of a mutex over any builtin queue, the data is what its owner found
and has written since then, its owner reads just this, and nobody else reads or writes. -/
theorem data_exclusive (k : QueueKind) {P T : Type} [Priority P] (evict : Bool) (v : T)
    (before later : List (Access P T)) (h : Handle)
    (hg : Throughout (after (access evict))
      (Guarded.new v : Guarded (k.Queue (MutexWaiter P)) T) (Guards h) before later) :
    ∃ s : Guarded (k.Queue (MutexWaiter P)) T,
      run (after (access evict)) (Guarded.new v) before = some s ∧
      ∀ mid, mid <+: later → ∃ t, run (after (access evict)) s mid = some t ∧
        t.data = written h s.data mid ∧
        access evict t (.deref h : Access P T) = some (.value (written h s.data mid), t) ∧
        ∀ g ≠ h, access evict t (.deref g : Access P T) = some (.refused, t) ∧
          ∀ f, access evict t (.derefMut g f : Access P T) = some (.refused, t) := by
  obtain ⟨s, -, hr, -⟩ := run_holds_guarded (Q := k.Queue (MutexWaiter P)) evict v before
  refine ⟨s, hr, fun mid hm => ?_⟩
  obtain ⟨t, ht, hd⟩ := run_written hr fun x hx => hg x (hx.trans hm)
  have hall : run (after (access evict)) (Guarded.new v) (before ++ mid) = some t := by
    rw [run_append, hr, Option.bind_some, ht]
  obtain ⟨t', l, ht', hs⟩ :=
    run_holds_guarded (Q := k.Queue (MutexWaiter P)) evict v (before ++ mid)
  obtain rfl : t' = t := Option.some.inj (ht'.symm.trans hall)
  have hgt : Guards h t' := by
    obtain ⟨u, hu, hgu⟩ := hg mid hm
    exact Option.some.inj (hall.symm.trans hu) ▸ hgu
  refine ⟨t', ht, hd, ?_, fun g hne => ?_⟩
  · rw [← hd]
    exact if_pos hgt
  · have hng : ¬ Guards g t' := fun hg => hne (hs.guards_unique hg hgt)
    exact ⟨if_neg hng, fun f => if_neg hng⟩

/-- The first client reads and writes, the other one waits and may not. -/
theorem data_exclusive_counter :
    ∃ s : Guarded (QueueKind.dualArena.Queue (MutexWaiter ℕ)) ℕ,
      run (after (access true)) (Guarded.new 7) [.call (.lock 1 : Op ℕ)] = some s ∧
      ∀ mid, mid <+: [.call (.lock 2 : Op ℕ), .derefMut 48 (· + 5), .derefMut 0 (· + 1)] →
        ∃ t, run (after (access true)) s mid = some t ∧ t.data = written 0 s.data mid := by
  have hg : Throughout (after (access true))
      (Guarded.new 7 : Guarded (QueueKind.dualArena.Queue (MutexWaiter ℕ)) ℕ) (Guards 0)
      [.call (.lock 1 : Op ℕ)]
      ([] ++ [.call (.lock 2 : Op ℕ)] ++ [.derefMut 48 (· + 5)] ++ [.derefMut 0 (· + 1)]) := by
    rw [throughout_concat, throughout_concat, throughout_concat, throughout_nil]
    exact ⟨⟨⟨⟨_, rfl, rfl⟩, _, rfl, rfl⟩, _, rfl, rfl⟩, _, rfl, rfl⟩
  obtain ⟨s, hr, hs⟩ := data_exclusive .dualArena true 7 _ _ 0 hg
  refine ⟨s, hr, fun mid hm => ?_⟩
  obtain ⟨t, ht, hd, -⟩ := hs mid hm
  exact ⟨t, ht, hd⟩

end PriorityLock.Mutex
