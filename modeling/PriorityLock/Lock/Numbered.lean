import PriorityLock.Lock.Basic
import PriorityLock.Queue.Basic
import PriorityLock.Transition.Runs

/-! # Implementations of a lock

An implementation knows its clients by handles, which it picks and may use again.
One that refines the lock on handles has the lock's traces once its clients are
numbered by their requests.
-/

namespace PriorityLock.FairLock

variable {σ P : Type}

structure Interface (σ P : Type) where
  lock : σ → P → Option ((Handle × Answer) × σ)
  act : σ → Act → Handle → Option (Answer × σ)

/-- An implementation, and the numbers of the clients that it knows. -/
structure Numbered (σ : Type) where
  sys : σ
  live : List (Entry ℕ)
  next : ℕ

namespace Numbered

def start (s : σ) : Numbered σ := ⟨s, [], 0⟩

def call (I : Interface σ P) (s : Numbered σ) : Op P → Option (Answer × Numbered σ)
  | .lock p => (I.lock s.sys p).map fun ((h, a), sys) =>
      (a, ⟨sys, s.live ++ [⟨h, s.next⟩], s.next + 1⟩)
  | .act k c => match s.live.find? (·.data = c) with
    | none => some (.refused, s)
    | some e => (I.act s.sys k e.handle).map fun (a, sys) =>
        (a, { s with sys, live := if a = .unit then without s.live e.handle else s.live })

end Numbered

variable [Priority P] {evict : Bool} {I : Interface σ P}
  {Sim : σ → List (Request Handle P) → Prop}

/-- A call by a client does what the lock does. -/
def Interface.Acts (I : Interface σ P) (evict : Bool) (Sim : σ → List (Request Handle P) → Prop)
    (s : σ) (q : List (Request Handle P)) (k : Act) (h : Handle) : Prop :=
  ∃ s', I.act s k h = some ((FairLock.act h q evict k).1, s') ∧
    Sim s' (FairLock.act h q evict k).2

omit [Priority P] in
theorem Interface.acts {s s' : σ} {q q' : List (Request Handle P)} {k : Act} {h : Handle}
    {a : Answer} (hc : I.act s k h = some (a, s')) (ha : FairLock.act h q evict k = (a, q'))
    (hs : Sim s' q') : I.Acts evict Sim s q k h := by
  refine ⟨s', ?_, ?_⟩
  · rw [ha]
    exact hc
  · rw [ha]
    exact hs

/-- The implementation does on its handles what the lock does. -/
structure Implements (I : Interface σ P) (evict : Bool) (Sim : σ → List (Request Handle P) → Prop) :
    Prop where
  nodup : ∀ {s q}, Sim s q → (q.map Request.client).Nodup
  lock : ∀ {s q} (p : P), Sim s q → ∃ h s',
    I.lock s p = some ((h, (FairLock.lock evict p h q).1), s') ∧ h ∉ q.map Request.client ∧
      Sim s' (FairLock.lock evict p h q).2
  act : ∀ {s q} (k : Act) (h : Handle), Sim s q → h ∈ q.map Request.client →
    I.Acts evict Sim s q k h

/-- The clients of the lock are the numbers of those of the implementation. -/
structure Numbers (Sim : σ → List (Request Handle P) → Prop) (n : Numbered σ) (t : State P)
    (q : List (Request Handle P)) (f : Handle → ℕ) : Prop where
  sim : Sim n.sys q
  queue : t.queue = q.map (Request.rename f)
  next : t.next = n.next
  perm : (handles n.live).Perm (q.map Request.client)
  number : ∀ e ∈ n.live, e.data = f e.handle
  lt : ∀ h ∈ q.map Request.client, f h < n.next
  inj : ∀ g ∈ q.map Request.client, ∀ h ∈ q.map Request.client, f g = f h → g = h

section Clients

variable {c h : Handle} {p : P} {k : Act} {q : List (Request Handle P)}

theorem clients_lock :
    ((lock evict p h q).2.map Request.client).Perm (h :: q.map Request.client) := by
  cases q with
  | nil => exact .refl _
  | cons r q =>
    have hp := (Placement.placed_scan Request.compareNew ⟨h, p, false, false⟩ q).perm
    exact ((hp.map Request.client).cons r.client).trans (.swap h r.client _)

omit [Priority P] in
theorem clients_leave : (leave h q).map Request.client = (q.map Request.client).filter (· ≠ h) := by
  rw [leave, List.filter_map]
  rfl

omit [Priority P] in
theorem clients_take : (take h q).map Request.client = q.map Request.client := by
  rw [take, List.map_map]
  apply List.map_congr_left
  intro r _
  by_cases hr : r.client = h <;> simp [hr]

omit [Priority P] in
/-- Whoever has nothing any more leaves, and nobody else does. -/
theorem clients_act (h : Handle) (q : List (Request Handle P)) (evict : Bool) (k : Act) :
    (act h q evict k).2.map Request.client =
    if (act h q evict k).1 = .unit then (q.map Request.client).filter (· ≠ h)
    else q.map Request.client := by
  unfold act
  cases q.find? (·.client = h) with
  | none => rfl
  | some r =>
    cases k with
    | poll =>
      dsimp only
      split
      · rfl
      · split
        · exact clients_take
        · rfl
    | cancel =>
      dsimp only
      split
      · rfl
      · exact clients_leave
    | drop =>
      dsimp only
      split
      · exact clients_leave
      · rfl
    | evicted =>
      dsimp only
      split <;> rfl

omit [Priority P] in
theorem act_of_not_mem {κ : Type} [DecidableEq κ] {c : κ} {q : List (Request κ P)} (evict : Bool)
    (k : Act) (hc : c ∉ q.map Request.client) : act c q evict k = (.refused, q) := by
  have hnone : q.find? (·.client = c) = none := by
    rw [List.find?_eq_none]
    intro r hr he
    exact hc (of_decide_eq_true he ▸ List.mem_map_of_mem hr)
  unfold act
  rw [hnone]

end Clients

section Numbers

variable {n : Numbered σ} {t : State P} {q : List (Request Handle P)} {f : Handle → ℕ}

omit [Priority P] in
theorem Numbers.start {s : σ} (h : Sim s []) (f : Handle → ℕ) :
    Numbers Sim (Numbered.start s) State.start [] f where
  sim := h
  queue := rfl
  next := rfl
  perm := .nil
  number := nofun
  lt := nofun
  inj := nofun

theorem Numbers.lock (hn : Numbers Sim n t q f) (hI : Implements I evict Sim) (p : P) :
    ∃ n' q' f', n.call I (.lock p) = some ((call evict t (.lock p)).1, n') ∧
      Numbers Sim n' (call evict t (.lock p)).2 q' f' := by
  obtain ⟨h, s', hc, hnew, hs'⟩ := hI.lock p hn.sim
  have hf : ∀ g ∈ q.map Request.client, Function.update f h n.next g = f g := by
    intro g hg
    apply Function.update_of_ne
    rintro rfl
    exact hnew hg
  have hh : Function.update f h n.next h = t.next := by
    rw [Function.update_self, hn.next]
  have hq : t.queue = q.map (Request.rename (Function.update f h n.next)) := by
    rw [hn.queue]
    apply List.map_congr_left
    intro r hr
    rw [Request.rename, Request.rename, hf _ (List.mem_map_of_mem hr)]
  have hlock := lock_rename evict p (Function.update f h n.next) h q
  rw [hh, ← hq] at hlock
  have hmem : ∀ g, g ∈ (FairLock.lock evict p h q).2.map Request.client ↔
      g = h ∨ g ∈ q.map Request.client :=
    fun g => clients_lock.mem_iff.trans List.mem_cons
  refine ⟨⟨s', n.live ++ [⟨h, n.next⟩], n.next + 1⟩, _, Function.update f h n.next, ?_, hs', ?_, ?_,
    ?_, ?_, ?_, ?_⟩
  · simp [Numbered.call, hc, call, hlock]
  · simp [call, hlock]
  · simp [call, hn.next]
  · have hp : (handles (n.live ++ [⟨h, n.next⟩])).Perm (h :: handles n.live) := by
      rw [handles_append]
      exact List.perm_append_singleton h _
    exact (hp.trans (hn.perm.cons h)).trans clients_lock.symm
  · intro e he
    rcases List.mem_append.mp he with he | he
    · rw [hf _ (hn.perm.mem_iff.mp (mem_handles he))]
      exact hn.number e he
    · rw [List.mem_singleton.mp he, Function.update_self]
  · intro g hg
    rcases (hmem g).mp hg with rfl | hg
    · rw [Function.update_self]
      exact Nat.lt_succ_self _
    · rw [hf g hg]
      exact Nat.lt_succ_of_lt (hn.lt g hg)
  · intro g hg g' hg' he
    rcases (hmem g).mp hg with rfl | hq₁ <;> rcases (hmem g').mp hg' with rfl | hq₂
    · rfl
    · rw [Function.update_self, hf g' hq₂] at he
      exact absurd (hn.lt g' hq₂) (he ▸ Nat.lt_irrefl _)
    · rw [Function.update_self, hf g hq₁] at he
      exact absurd (hn.lt g hq₁) (he ▸ Nat.lt_irrefl _)
    · rw [hf g hq₁, hf g' hq₂] at he
      exact hn.inj g hq₁ g' hq₂ he

omit [Priority P] in
theorem Numbers.not_mem (hn : Numbers Sim n t q f) {c : ℕ}
    (hc : n.live.find? (·.data = c) = none) : c ∉ t.queue.map Request.client := by
  rw [hn.queue, List.map_map, List.mem_map]
  rintro ⟨r, hr, rfl⟩
  obtain ⟨e, he, her⟩ := List.mem_map.mp (hn.perm.mem_iff.mpr (List.mem_map_of_mem hr))
  have hne := List.find?_eq_none.mp hc e he
  rw [hn.number e he, her] at hne
  exact hne (decide_eq_true rfl)

theorem Numbers.act (hn : Numbers Sim n t q f) (hI : Implements I evict Sim) (k : Act) (c : ℕ) :
    ∃ n' q' f', n.call I (.act k c) = some ((call evict t (.act k c)).1, n') ∧
      Numbers Sim n' (call evict t (.act k c)).2 q' f' := by
  cases hfind : n.live.find? (·.data = c) with
  | none =>
    have hc := act_of_not_mem evict k (hn.not_mem hfind)
    refine ⟨n, q, f, ?_, ?_⟩
    · simp [Numbered.call, hfind, call, hc]
    · rw [call, hc]
      exact hn
  | some e =>
    obtain rfl : e.data = c := by simpa using List.find?_some hfind
    have he := List.mem_of_find?_eq_some hfind
    have hm : e.handle ∈ q.map Request.client := hn.perm.mem_iff.mp (mem_handles he)
    obtain ⟨s', hc, hs'⟩ := hI.act k e.handle hn.sim hm
    have hact : FairLock.act e.data t.queue evict k = ((FairLock.act e.handle q evict k).1,
        (FairLock.act e.handle q evict k).2.map (Request.rename f)) := by
      rw [hn.queue, hn.number e he]
      exact act_rename fun r hr => hn.inj _ (List.mem_map_of_mem hr) _ hm
    have hclients := clients_act e.handle q evict k
    have hsub : ∀ g ∈ (FairLock.act e.handle q evict k).2.map Request.client,
        g ∈ q.map Request.client := by
      rw [hclients]
      split
      · exact fun g hg => (List.mem_filter.mp hg).1
      · exact fun g hg => hg
    refine ⟨⟨s', if (FairLock.act e.handle q evict k).1 = .unit then without n.live e.handle
      else n.live, n.next⟩, _, f, ?_, hs', ?_, ?_, ?_, ?_, ?_, ?_⟩
    · simp [Numbered.call, hfind, hc, call, hact]
    · simp [call, hact]
    · exact hn.next
    · dsimp only
      rw [hclients]
      split
      · rw [handles_without]
        exact hn.perm.filter _
      · exact hn.perm
    · intro d hd
      dsimp only at hd
      split at hd
      · exact hn.number d (mem_without.mp hd).1
      · exact hn.number d hd
    · exact fun g hg => hn.lt g (hsub g hg)
    · exact fun g hg g' hg' => hn.inj g (hsub g hg) g' (hsub g' hg')

end Numbers

/-- What refines the lock behaves as it along every run. -/
theorem Implements.trace_eq (hI : Implements I evict Sim) {s : σ} (hs : Sim s [])
    (ops : List (Op P)) :
    Transition.trace (Numbered.call I) (Numbered.start s) ops =
      Transition.trace (fun t o => some (call evict t o)) State.start ops := by
  refine Transition.trace_eq_of_related (R := fun n t => ∃ q f, Numbers Sim n t q f) ?_
    ⟨[], fun _ => 0, Numbers.start hs _⟩ ops
  rintro n t o ⟨q, f, hn⟩
  cases o with
  | lock p =>
    obtain ⟨n', q', f', hc, hn'⟩ := hn.lock hI p
    exact ⟨_, n', _, hc, rfl, q', f', hn'⟩
  | act k c =>
    obtain ⟨n', q', f', hc, hn'⟩ := hn.act hI k c
    exact ⟨_, n', _, hc, rfl, q', f', hn'⟩

end PriorityLock.FairLock
