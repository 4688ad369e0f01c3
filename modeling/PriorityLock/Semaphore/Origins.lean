import PriorityLock.Semaphore.Stalls

/-! # Where entries come from

A move keeps, flags and recounts entries, gives the lock to waiting ones and
adds new ones. For each entry after a move there is the entry before it, or the
call that made it.
-/

namespace PriorityLock.Semaphore

open Placement PriorityQueue

variable {B : Build} {P : Type} [Priority P] {op : Op B P} {r : Result B} {p p' : Pool B P}
  {e f : Queued B P} {priority : P} {n : Usize B}

section Walk

variable {held skipped rest held' pending' : List (Queued B P)} {available available' : Usize B}

theorem Activates.origin (h : Activates held skipped rest available held' pending' available')
    (hs : ∀ f ∈ skipped, bypassed f = true) :
    ∀ e ∈ held', e ∈ held ∨ ∃ d ∈ rest, e = ⟨d.handle, d.data.start⟩ ∧
      ∀ f ∈ pending', bypassed f = true ∨ [d, f].Sublist rest := by
  induction h with
  | finish | stop => exact fun e he => Or.inl he
  | @skip held skipped rest held' pending' x available available' hlt hby hact ih =>
    have hs' : ∀ f ∈ skipped ++ [x], bypassed f = true := by
      intro f hf
      rcases List.mem_append.mp hf with hf | hf
      · exact hs f hf
      · rw [List.mem_singleton.mp hf]
        exact hby
    intro e he
    rcases ih hs' e he with he | ⟨d, hd, hde, hall⟩
    · exact Or.inl he
    · exact Or.inr ⟨d, List.mem_cons_of_mem x hd, hde, fun f hf => (hall f hf).imp_right (·.cons x)⟩
  | @grant held held₁ skipped rest held' pending' x available available' hle hset hact ih =>
    intro e he
    rcases ih hs e he with he | ⟨d, hd, hde, hall⟩
    · rcases List.mem_cons.mp (hset.perm.mem_iff.mp he) with rfl | he
      · refine Or.inr ⟨x, List.mem_cons_self, rfl, fun f hf => ?_⟩
        rcases List.mem_append.mp (hact.sublist.subset hf) with hf | hf
        · exact Or.inl (hs f hf)
        · exact Or.inr ((List.singleton_sublist.mpr hf).cons_cons x)
      · exact Or.inl he
    · exact Or.inr ⟨d, List.mem_cons_of_mem x hd, hde, fun f hf => (hall f hf).imp_right (·.cons x)⟩

end Walk

section Origins

omit [Priority P] in
theorem Requests.unique {word : Usize B} (h : Requests op priority n word) {q : P} {m : Usize B}
    (hop : op.request = some (q, m)) : priority = q ∧ n = m := by
  rw [h.request] at hop
  simpa using hop

/-- An acquire that finds its permits, and nobody above it where it looks. -/
def Serves (available : Usize B) (pending : List (Queued B P)) (op : Op B P) (priority : P) :
    Prop :=
  ∃ n word, Requests op priority n word ∧ n ≤ available ∧
    ∀ f ∈ pending.find? blocks, (Priority.compare priority f.data.priority).isGE

/-- The permit whose count a call changes. -/
def Op.recounts : Op B P → Option Handle
  | .split h _ | .splitWithPriority h _ _ | .merge h _ => some h
  | _ => none

/-- A holder of a priority that a call on some entries adds. -/
inductive Creates (available : Usize B) (held pending : List (Queued B P)) : Op B P → P → Prop

  | serve {op : Op B P} {priority : P} : Serves available pending op priority →
      Creates available held pending op priority

  | split {e : Queued B P} {n : Usize B} : e ∈ held → n < count e →
      Creates available held pending (.split e.handle n) e.data.priority

  | splitWithPriority {e : Queued B P} {n : Usize B} {priority : P} : e ∈ held → n < count e →
      Creates available held pending (.splitWithPriority e.handle n priority) priority

/-- What a held entry was before a move. -/
inductive HeldOrigin (op : Op B P) (p p' : Pool B P) : Queued B P → Prop

  | kept {e : Queued B P} : e ∈ p.held → HeldOrigin op p p' e

  | asked {e : Queued B P} {priority : P} {n : Usize B} : e ∈ p.held →
      op.request = some (priority, n) → p'.arrivals ≠ p.arrivals →
      HeldOrigin op p p' (flag (outranked priority) e)

  | oversized {e : Queued B P} : e ∈ p.held → B.semaphoreTotal = true →
      HeldOrigin op p p' (flag (oversized p'.total) e)

  | recounted {e : Queued B P} {word : Usize B} : e ∈ p.held → op.recounts = some e.handle →
      HeldOrigin op p p' (recount e word)

  | granted {e : Queued B P} : e ∈ p.pending → p'.arrivals.Sublist p.arrivals →
      (∀ f ∈ p'.pending, bypassed f = true ∨ [e, f].Sublist p.pending) →
      HeldOrigin op p p' ⟨e.handle, e.data.start⟩

  | fresh {h : Handle} {priority : P} {word : Usize B} : h ∉ p.arrivals →
      p'.pending = p.pending → Creates p.available p.held p.pending op priority →
      HeldOrigin op p p' ⟨h, priority, .new true, word⟩

/-- What a pending entry was before a move. -/
inductive PendingOrigin (op : Op B P) (p p' : Pool B P) : Queued B P → Prop

  | kept {e : Queued B P} : e ∈ p.pending → (B.semaphoreTotal = true → p.total ≤ p'.total) →
      PendingOrigin op p p' e

  | oversized {e : Queued B P} : e ∈ p.pending → B.semaphoreTotal = true →
      PendingOrigin op p p' (flag (oversized p'.total) e)

  | fresh {h : Handle} {priority : P} {n word : Usize B} : h ∉ p.arrivals →
      Requests op priority n word → p'.total = p.total →
      PendingOrigin op p p' ⟨h, priority, .new false, word⟩

theorem Moves.held_origin (hm : Moves op r p p') (he : e ∈ p'.held) : HeldOrigin op p p' e := by
  cases hm with
  | acquire hreq hA hle hb hplace =>
    rcases List.mem_cons.mp (hplace.perm.mem_iff.mp he) with rfl | he
    · exact .fresh hA rfl (.serve ⟨_, _, hreq, hle, hb⟩)
    · obtain ⟨d, hd, rfl⟩ := List.mem_map.mp he
      exact .asked hd hreq.request (by simp)
  | enqueue hreq =>
    obtain ⟨d, hd, rfl⟩ := List.mem_map.mp he
    exact .asked hd hreq.request (by simp)
  | release hop hact =>
    rcases hact.origin (by simp) e he with he | ⟨d, hd, rfl, hall⟩
    · exact .kept ((List.sublist_cons_self _ _).append_left _ |>.subset he)
    · exact .granted hd List.filter_sublist hall
  | discard | forget =>
    exact .kept ((List.sublist_cons_self _ _).append_left _ |>.subset he)
  | leave | forgetPermits | unchanged => exact .kept he
  | unblock hop hact =>
    rcases hact.origin (by simp) e he with he | ⟨d, hd, rfl, hall⟩
    · exact .kept he
    · exact .granted (List.mem_cons_of_mem _ hd) List.filter_sublist
        fun f hf => (hall f hf).imp_right (·.cons _)
  | forgetTotal hB =>
    rcases List.mem_append.mp he with he | he
    · exact .kept (List.mem_append_left _ he)
    · obtain ⟨d, hd, rfl⟩ := List.mem_map.mp he
      exact .oversized (List.mem_append_right _ (List.mem_cons_of_mem _ hd)) hB
  | @split _ q n _ _ h x a b _ _ _ hop hA hlt hplace =>
    rcases List.mem_cons.mp (hplace.perm.mem_iff.mp he) with rfl | he
    · rcases hop with ⟨rfl, rfl⟩ | rfl
      · exact .fresh hA rfl (.split (by simp) hlt)
      · exact .fresh hA rfl (.splitWithPriority (by simp) hlt)
    · have hx : op.recounts = some x.handle := by rcases hop with ⟨rfl, -⟩ | rfl <;> rfl
      rcases List.mem_append.mp he with he | he
      · exact .kept (List.mem_append_left _ he)
      rcases List.mem_cons.mp he with rfl | he
      · exact .recounted (by simp) hx
      · exact .kept (List.mem_append_right _ (List.mem_cons_of_mem _ he))
  | merge =>
    rcases List.mem_append.mp (mem_without.mp he).1 with he | he
    · exact .kept (List.mem_append_left _ he)
    rcases List.mem_cons.mp he with rfl | he
    · exact .recounted (by simp) rfl
    · exact .kept (List.mem_append_right _ (List.mem_cons_of_mem _ he))
  | add hop hB hc hact | addTotal hop hB hc hact =>
    rcases hact.origin (by simp) e he with he | ⟨d, hd, rfl, hall⟩
    · exact .kept he
    · exact .granted hd (List.Sublist.refl _) hall
  | forgetPermitsTotal hB =>
    obtain ⟨d, hd, rfl⟩ := List.mem_map.mp he
    exact .oversized hd hB

theorem Moves.pending_origin (hm : Moves op r p p') (he : e ∈ p'.pending) :
    PendingOrigin op p p' e := by
  have hle : ∀ {m : Usize B}, B.semaphoreTotal = true → m ≤ m := fun _ => BitVec.le_refl _
  cases hm with
  | acquire | discard | split | merge | forgetPermits | unchanged => exact .kept he hle
  | enqueue hreq hA hlt hplace =>
    rcases List.mem_cons.mp (hplace.perm.mem_iff.mp he) with rfl | he
    · exact .fresh hA hreq rfl
    · exact .kept he hle
  | release hop hact | add hop hB hc hact => exact .kept (hact.sublist.subset he) hle
  | leave => exact .kept ((List.sublist_cons_self _ _).append_left _ |>.subset he) hle
  | unblock hop hact => exact .kept (List.mem_cons_of_mem _ (hact.sublist.subset he)) hle
  | forget hB => exact .kept he hle
  | forgetTotal hB =>
    obtain ⟨d, hd, rfl⟩ := List.mem_map.mp he
    exact .oversized hd hB
  | @addTotal _ _ n total _ _ _ _ _ _ _ hop hB hc hact =>
    refine .kept (hact.sublist.subset he) fun _ => BitVec.le_def.mpr ?_
    rw [toNat_add_of_lt (checkedAdd_eq_some.mp hc).1]
    exact Nat.le_add_right _ _
  | forgetPermitsTotal hB =>
    obtain ⟨d, hd, rfl⟩ := List.mem_map.mp he
    exact .oversized hd hB

/-- The entry before a move of one after it: a move takes no lock and no flag away, and changes
the counts of permits only. -/
theorem Moves.origin (hm : Moves op r p p') (he : e ∈ p'.held ++ p'.pending)
    (hA : e.handle ∈ p.arrivals) : ∃ d ∈ p.held ++ p.pending, d.handle = e.handle ∧
      (hasLock d = true → hasLock e = true) ∧ (wantsEvict d = true → wantsEvict e = true) ∧
      (op.recounts ≠ some e.handle → e.data.rawCount = d.data.rawCount) := by
  rcases List.mem_append.mp he with he | he
  · cases hm.held_origin he with
    | kept h => exact ⟨e, List.mem_append_left _ h, rfl, id, id, fun _ => rfl⟩
    | asked h | oversized h =>
      exact ⟨_, List.mem_append_left _ h, by simp, by simp, wantsEvict_flag, by simp⟩
    | recounted h hop => exact ⟨_, List.mem_append_left _ h, rfl, id, id, fun hne => absurd hop hne⟩
    | granted h => exact ⟨_, List.mem_append_right _ h, rfl, fun _ => rfl, id, fun _ => rfl⟩
    | fresh hA' => exact absurd hA hA'
  · cases hm.pending_origin he with
    | kept h => exact ⟨e, List.mem_append_right _ h, rfl, id, id, fun _ => rfl⟩
    | oversized h =>
      exact ⟨_, List.mem_append_right _ h, by simp, by simp, wantsEvict_flag, by simp⟩
    | fresh hA' => exact absurd hA hA'

theorem Moves.flag_stays (hm : Moves op r p p') (hp : p.WF) {d : Queued B P}
    (hd : d ∈ p.held ++ p.pending) (he : e ∈ p'.held ++ p'.pending) (hh : d.handle = e.handle)
    (hw : wantsEvict d = true) : wantsEvict e = true := by
  have hA : e.handle ∈ p.arrivals := hh ▸ hp.perm.mem_iff.mp (mem_handles hd)
  obtain ⟨g, hg, hgh, -, hge, -⟩ := hm.origin he hA
  obtain rfl := List.inj_on_of_nodup_map hp.nodup_handles hg hd (hgh.trans hh.symm)
  exact hge hw

theorem HeldOrigin.of_pending (ho : HeldOrigin op p p' e) (hp : p.WF)
    (he : e.handle ∈ handles p.pending) : ∃ d ∈ p.pending, e = ⟨d.handle, d.data.start⟩ ∧
      p'.arrivals.Sublist p.arrivals ∧
      ∀ f ∈ p'.pending, bypassed f = true ∨ [d, f].Sublist p.pending := by
  have hnot : e.handle ∉ handles p.held := fun h => hp.disjoint h he
  cases ho with
  | kept h => exact absurd (mem_handles h) hnot
  | asked h | oversized h =>
    rw [flag_handle] at hnot
    exact absurd (mem_handles h) hnot
  | recounted h hop => exact absurd (mem_handles h) hnot
  | granted h hA hall => exact ⟨_, h, rfl, hA, hall⟩
  | fresh hA =>
    refine absurd (hp.perm.mem_iff.mp ?_) hA
    rw [handles_append]
    exact List.mem_append_right _ he

theorem HeldOrigin.of_new (ho : HeldOrigin op p p' e) (hp : p.WF) (he : e.handle ∉ p.arrivals) :
    p'.pending = p.pending ∧ wantsEvict e = false ∧
      Creates p.available p.held p.pending op e.data.priority := by
  have hmem : ∀ {d}, d ∈ p.held ++ p.pending → d.handle ∈ p.arrivals := fun hd =>
    hp.perm.mem_iff.mp (mem_handles hd)
  cases ho with
  | kept h | recounted h => exact absurd (hmem (List.mem_append_left _ h)) he
  | asked h | oversized h =>
    rw [flag_handle] at he
    exact absurd (hmem (List.mem_append_left _ h)) he
  | granted h => exact absurd (hmem (List.mem_append_right _ h)) he
  | fresh hA hpending hcr => exact ⟨hpending, rfl, hcr⟩

theorem Creates.unique {available : Usize B} {held pending : List (Queued B P)} {q : P}
    (h : Creates available held pending op priority) (h' : Creates available held pending op q)
    (hn : (handles held).Nodup) : priority = q := by
  cases h with
  | serve hs =>
    obtain ⟨n, word, hreq, -⟩ := hs
    cases h' with
    | serve hs' =>
      obtain ⟨m, word', hreq', -⟩ := hs'
      exact (hreq.unique hreq'.request).1
    | split | splitWithPriority => cases hreq
  | split he hlt =>
    generalize hop : Op.split _ _ = op at h'
    cases h' with
    | serve hs' =>
      obtain ⟨m, word', hreq', -⟩ := hs'
      cases hreq' <;> cases hop
    | split he' =>
      obtain ⟨hh, -⟩ := Op.split.inj hop
      rw [List.inj_on_of_nodup_map hn he he' hh]
    | splitWithPriority => cases hop
  | splitWithPriority =>
    generalize hop : Op.splitWithPriority _ _ _ = op at h'
    cases h' with
    | serve hs' =>
      obtain ⟨m, word', hreq', -⟩ := hs'
      cases hreq' <;> cases hop
    | split => cases hop
    | splitWithPriority => exact (Op.splitWithPriority.inj hop).2.2

end Origins

section Requests

variable {h : Handle}

structure Served (op : Op B P) (priority : P) (h : Handle) (p p' : Pool B P) : Prop where
  serves : Serves p.available p.pending op priority
  fresh : h ∉ p.arrivals
  held : ∃ word, Placed Priority.compareNew ⟨h, priority, .new true, word⟩
    (flagWhere (outranked priority) p.held) p'.held
  pending : p'.pending = p.pending
  arrivals : p'.arrivals = p.arrivals ++ [h]

structure Waits (op : Op B P) (priority : P) (h : Handle) (p p' : Pool B P) : Prop where
  blocked : ¬Serves p.available p.pending op priority
  held : p'.held = flagWhere (outranked priority) p.held
  pending : ∃ n word, Requests op priority n word ∧
    Placed Priority.compareNew ⟨h, priority, .new false, word⟩ p.pending p'.pending

theorem Moves.request_cases (hm : Moves op r p p') (hop : op.request = some (priority, n)) :
    (∃ h, r = .permit h ∧ Served op priority h p p') ∨
    (∃ h, r = .pending h ∧ Waits op priority h p p') ∨
    p' = p ∧ (∀ h, r ≠ .permit h) ∧
      (maxPermits B ≤ n ∨ B.semaphoreTotal = false ∨ p.total < n) := by
  cases hm with
  | acquire hreq hA hle hb hplace =>
    obtain ⟨rfl, rfl⟩ := hreq.unique hop
    exact Or.inl ⟨_, rfl, ⟨_, _, hreq, hle, hb⟩, hA, ⟨_, hplace⟩, rfl, rfl⟩
  | enqueue hreq hA hlt hplace =>
    obtain ⟨rfl, rfl⟩ := hreq.unique hop
    refine Or.inr (Or.inl ⟨_, rfl, ?_, rfl, _, _, hreq, hplace⟩)
    rintro ⟨m, word, hreq', hle, hb⟩
    obtain ⟨-, rfl⟩ := hreq'.unique hreq.request
    obtain ⟨f, hf, hlt⟩ := hlt hle
    have hge := hb f hf
    simp [hlt] at hge
  | release hdrop | leave hdrop | unblock hdrop | discard hdrop =>
    cases op <;> simp [Op.request, Op.drops] at hop hdrop
  | forget | forgetTotal | merge | forgetPermits | forgetPermitsTotal => simp [Op.request] at hop
  | split hsplit => rcases hsplit with ⟨rfl, -⟩ | rfl <;> simp [Op.request] at hop
  | add hadd | addTotal hadd =>
    rcases hadd with ⟨rfl, -⟩ | ⟨rfl, -⟩ <;> simp [Op.request] at hop
  | unchanged hun => exact Or.inr (Or.inr ⟨rfl, hun priority n hop⟩)

/-- An acquire that adds an entry is granted its permits or has to wait. -/
theorem Moves.acquires (hm : Moves op r p p') (hop : op.request = some (priority, n))
    (hne : p'.arrivals ≠ p.arrivals ∨ ∃ h, r = .permit h) :
    (∃ h, r = .permit h ∧ Served op priority h p p') ∨
      ∃ h, r = .pending h ∧ Waits op priority h p p' := by
  rcases hm.request_cases hop with hserved | hwaits | ⟨rfl, hnot, -⟩
  · exact Or.inl hserved
  · exact Or.inr hwaits
  · rcases hne with hne | ⟨h, hr⟩
    · exact absurd rfl hne
    · exact absurd hr (hnot h)

theorem Moves.served (hm : Moves op (.permit h) p p') (hop : op.request = some (priority, n)) :
    Served op priority h p p' := by
  rcases hm.acquires hop (Or.inr ⟨h, rfl⟩) with ⟨h', hr, hserved⟩ | ⟨h', hr, -⟩
  · obtain rfl : h = h' := by simpa using hr
    exact hserved
  · cases hr

end Requests

section Calls

variable {Q : Type} [PriorityQueue Q (SemaphoreWaiter B P)] [LawfulQueue Q (SemaphoreWaiter B P)]
  {s s' : System B Q} {h : Handle}

/-- The future that an acquire leaves when it has to wait. -/
def Op.future : Op B P → Owned B
  | .acquireWithinTotal _ n => .futureWithinTotal n
  | _ => .future

omit [LawfulQueue Q (SemaphoreWaiter B P)] in
theorem call_acquire {word : Usize B} (hreq : Requests op priority n word)
    (ht : B.semaphoreTotal = true → n ≤ s.inner.total) :
    call s op = s.acquire priority word op.future := by
  cases hreq with
  | many hn => simp [call, Op.future, BitVec.not_le.mpr hn]
  | withinTotal hB hn =>
    simp [call, Op.future, hB, BitVec.not_le.mpr hn, BitVec.not_lt.mpr (ht hB)]

omit [LawfulQueue Q (SemaphoreWaiter B P)] in
theorem call_request {r : Result B} (hop : op.request.isSome) (hc : call s op = some (r, s')) :
    (s' = s ∧ (r = .refused ∨ (∃ n, r = .panicked (.tooMany n)) ∨
        ∃ err, r = .insufficient err ∧ s.inner.total < err.requested ∧
          ∃ priority, op = .acquireWithinTotal priority err.requested)) ∨
      ∃ priority word, s.acquire priority word op.future = some (r, s') := by
  cases op with
  | acquireMany priority n =>
    simp only [call] at hc
    split at hc
    · cases hc
      exact Or.inl ⟨rfl, Or.inr (Or.inl ⟨n, rfl⟩)⟩
    · exact Or.inr ⟨priority, n, hc⟩
  | acquireWithinTotal priority n =>
    simp only [call] at hc
    split at hc
    · cases hc
      exact Or.inl ⟨rfl, Or.inl rfl⟩
    split at hc
    · cases hc
      exact Or.inl ⟨rfl, Or.inr (Or.inl ⟨n, rfl⟩)⟩
    split at hc
    · next ht =>
      cases hc
      exact Or.inl ⟨rfl, Or.inr (Or.inr ⟨_, rfl, ht, priority, rfl⟩)⟩
    · exact Or.inr ⟨priority, _, hc⟩
  | _ => cases hop

/-- An acquire that finds its permits is granted them. -/
theorem Holds.served (hs : Holds s p) (hserves : Serves p.available p.pending op priority) :
    ∃ h s' p', Semaphore.call s op = some (.permit h, s') ∧ Holds s' p' ∧
      Moves op (.permit h) p p' ∧ Served op priority h p p' := by
  obtain ⟨n, word, hreq, hle, hb⟩ := id hserves
  have ht : B.semaphoreTotal = true → n ≤ s.inner.total := by
    intro hB
    rw [hs.view.total]
    exact BitVec.le_trans hle (hs.view.conserved hB).available_le
  have hd : op.future ≠ .permit := by cases op <;> simp [Op.future]
  obtain ⟨r, s', p', hc, hs', hm, h, hA⟩ := hs.acquire op.future hd hreq
  rcases hm.acquires hreq.request (Or.inl (by simp [hA])) with ⟨h, rfl, hserved⟩ | ⟨h, -, hwaits⟩
  · exact ⟨h, s', p', (call_acquire hreq ht).trans hc, hs', hm, hserved⟩
  · exact absurd hserves hwaits.blocked

end Calls

end PriorityLock.Semaphore
