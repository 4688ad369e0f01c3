import PriorityLock.Semaphore.Pool

/-! # What moves keep

Lemmas about flagging, counting and the walk that grants permits, and the shape
of a pool that every move keeps: entries with the lock are held, others wait,
and the handles are those of the callers.
-/

namespace PriorityLock.Semaphore

open Placement

variable {B : Build} {P : Type} {e f : Queued B P} {a b l l' : List (Queued B P)}

section Flags

variable {cond : SemaphoreWaiter B P → Bool}

@[simp] theorem flag_handle : (flag cond e).handle = e.handle := by
  unfold flag
  split <;> rfl

@[simp] theorem flag_priority : (flag cond e).data.priority = e.data.priority := by
  unfold flag
  split <;> rfl

@[simp] theorem hasLock_flag : hasLock (flag cond e) = hasLock e := by
  unfold flag
  split <;> rfl

@[simp] theorem rawCount_flag : (flag cond e).data.rawCount = e.data.rawCount := by
  unfold flag
  split <;> rfl

@[simp] theorem count_flag : count (flag cond e) = count e := by
  unfold flag
  split <;> rfl

@[simp] theorem within_flag : within (flag cond e) = within e := by
  unfold flag
  split <;> rfl

/-- A flag is never taken back. -/
theorem wantsEvict_flag (h : wantsEvict e = true) : wantsEvict (flag cond e) = true := by
  unfold flag
  split
  · rfl
  · exact h

theorem wantsEvict_oversized (hB : B.semaphoreTotal = true) {total : Usize B} :
    wantsEvict (flag (oversized total) e) = true ↔
      wantsEvict e = true ∨ within e = true ∧ total < count e := by
  have hc : e.data.countAndFlag.1 = count e := by
    simp [count, SemaphoreWaiter.count, SemaphoreWaiter.countAndFlag, hB]
  unfold flag oversized within
  rw [hc]
  split
  · next h => exact iff_of_true rfl (Or.inr (by simpa using h))
  · next h => simp_all

theorem flag_oversized_of_le (hB : B.semaphoreTotal = true) {total : Usize B}
    (hle : count e ≤ total) : flag (oversized total) e = e := by
  have hc : e.data.countAndFlag.1 = count e := by
    simp [count, SemaphoreWaiter.count, SemaphoreWaiter.countAndFlag, hB]
  have hnot : ¬total < count e := BitVec.not_lt.mpr hle
  exact if_neg (by simp [oversized, hc, hnot])

@[simp] theorem flagWhere_nil : flagWhere cond [] = [] := rfl

@[simp] theorem flagWhere_append : flagWhere cond (a ++ b) = flagWhere cond a ++ flagWhere cond b :=
  List.map_append

theorem flagWhere_of_false (h : ∀ e ∈ l, cond e.data = false) : flagWhere cond l = l := by
  have hl : ∀ e ∈ l, flag cond e = e := fun e he => if_neg (by simp [h e he])
  exact (List.map_congr_left hl).trans (List.map_id' l)

@[simp] theorem handles_flagWhere : handles (flagWhere cond l) = handles l := by
  rw [handles, flagWhere, List.map_map]
  exact List.map_congr_left fun e _ => flag_handle

theorem hasLock_flagWhere {v : Bool} (h : ∀ e ∈ l, hasLock e = v) :
    ∀ e ∈ flagWhere cond l, hasLock e = v := by
  intro e he
  obtain ⟨d, hd, rfl⟩ := List.mem_map.mp he
  rw [hasLock_flag]
  exact h d hd

end Flags

section Permits

variable {cond : SemaphoreWaiter B P → Bool}

@[simp] theorem permits_nil : permits ([] : List (Queued B P)) = 0 := rfl

@[simp] theorem permits_cons : permits (e :: l) = (count e).toNat + permits l := by
  simp [permits]

@[simp] theorem permits_append : permits (a ++ b) = permits a + permits b := by
  simp [permits]

theorem permits_perm (h : l.Perm l') : permits l = permits l' :=
  (h.map fun e => (count e).toNat).sum_nat

@[simp] theorem permits_flagWhere : permits (flagWhere cond l) = permits l := by
  rw [permits, flagWhere, List.map_map]
  exact congrArg List.sum (List.map_congr_left fun e _ => congrArg BitVec.toNat count_flag)

theorem count_le_permits (h : e ∈ l) : (count e).toNat ≤ permits l := by
  obtain ⟨a, b, rfl⟩ := List.append_of_mem h
  simp only [permits_append, permits_cons]
  omega

end Permits

section Requests

variable {op : Op B P} {p : P} {n word : Usize B}

theorem toNat_lt_of_lt_max (h : n < maxPermits B) : n.toNat < 2 ^ (B.bits - 1) := by
  have hn := BitVec.lt_def.mp h
  rw [toNat_maxPermits] at hn
  omega

theorem Requests.masked (h : Requests op p n word) : masked word = n := by
  cases h with
  | many hn => exact masked_of_lt (toNat_lt_of_lt_max hn)
  | withinTotal hB hn =>
    rw [masked_or]
    exact masked_of_lt (toNat_lt_of_lt_max hn)

theorem Requests.count {h : Handle} {w : Waiter} (hr : Requests op p n word) :
    count (⟨h, p, w, word⟩ : Queued B P) = n := by
  have hm := hr.masked
  cases hr with
  | many hn => cases hB : B.semaphoreTotal <;> simp [Semaphore.count, SemaphoreWaiter.count, hB, hm]
  | withinTotal hB hn => simpa [Semaphore.count, SemaphoreWaiter.count, hB] using hm

theorem Requests.within {h : Handle} {w : Waiter} (hr : Requests op p n word) :
    within (⟨h, p, w, word⟩ : Queued B P) = true ↔ op = .acquireWithinTotal p n := by
  cases hr with
  | many hn =>
    have hz := and_withinTotalBit (toNat_lt_of_lt_max hn)
    simp [Semaphore.within, SemaphoreWaiter.countAndFlag, hz]
  | withinTotal hB hn =>
    have hne : withinTotalBit B ≠ 0#B.bits := withinTotalBit_ne_zero B
    simp [Semaphore.within, SemaphoreWaiter.countAndFlag, or_and_withinTotalBit, hne]

end Requests

section Walk

variable [Priority P] {held skipped rest held' pending' : List (Queued B P)}
  {available available' : Usize B}

theorem Activates.locked (h : Activates held skipped rest available held' pending' available')
    (hl : ∀ e ∈ held, hasLock e = true) : ∀ e ∈ held', hasLock e = true := by
  induction h with
  | finish | stop => exact hl
  | skip _ _ _ ih => exact ih hl
  | grant _ hs _ ih =>
    apply ih
    intro e he
    rcases List.mem_cons.mp (hs.perm.mem_iff.mp he) with rfl | he
    · rfl
    · exact hl e he

/-- What still waits is in its old order. -/
theorem Activates.sublist (h : Activates held skipped rest available held' pending' available') :
    pending'.Sublist (skipped ++ rest) := by
  induction h with
  | finish => simp
  | stop => exact List.Sublist.refl _
  | skip _ _ _ ih => simpa using ih
  | grant _ _ _ ih => exact ih.trans ((List.sublist_cons_self _ _).append_left _)

theorem Activates.unlocked (h : Activates held skipped rest available held' pending' available')
    (hl : ∀ e ∈ skipped ++ rest, hasLock e = false) : ∀ e ∈ pending', hasLock e = false :=
  fun e he => hl e (h.sublist.subset he)

theorem Activates.perm (h : Activates held skipped rest available held' pending' available') :
    (handles (held' ++ pending')).Perm (handles (held ++ (skipped ++ rest))) := by
  induction h with
  | finish => simp
  | stop => exact .refl _
  | skip _ _ _ ih => simpa using ih
  | @grant held held₁ skipped rest held' pending' e _ _ _ hs _ ih =>
    have hh : (handles held₁).Perm (e.handle :: handles held) := hs.perm.map Entry.handle
    have hr : (handles held₁ ++ handles (skipped ++ rest)).Perm
        (handles held ++ handles (skipped ++ e :: rest)) := by
      apply (hh.append_right _).trans
      simp only [handles_append, handles_cons, ← List.append_assoc]
      exact List.perm_middle.symm
    simpa using ih.trans (by simpa using hr)

theorem Activates.subset (h : Activates held skipped rest available held' pending' available') :
    held ⊆ held' := by
  induction h with
  | finish | stop => exact List.Subset.refl _
  | skip _ _ _ ih => exact ih
  | grant _ hs _ ih => exact fun e he => ih (hs.perm.mem_iff.mpr (List.mem_cons_of_mem _ he))

theorem Activates.permits (h : Activates held skipped rest available held' pending' available') :
    available'.toNat + permits held' = available.toNat + permits held := by
  induction h with
  | finish | stop => rfl
  | skip _ _ _ ih => exact ih
  | @grant held held₁ skipped rest held' pending' e available _ hle hs _ ih =>
    have hp : Semaphore.permits held₁ = (count e).toNat + Semaphore.permits held := by
      rw [permits_perm hs.perm]
      simp [count]
    have hsub := toNat_sub_of_le hle
    have hle := BitVec.le_def.mp hle
    omega

end Walk

section Arrivals

variable {A : List Handle} {h : Handle} {L : List Handle}

theorem perm_filter_ne (hp : (h :: L).Perm A) (hn : A.Nodup) : L.Perm (A.filter (· ≠ h)) := by
  have hf := hp.filter (· ≠ h)
  have hL : h ∉ L := (List.nodup_cons.mp (hp.nodup_iff.mpr hn)).1
  have hs : L.filter (· ≠ h) = L :=
    List.filter_eq_self.mpr fun x hx => decide_eq_true fun hxh => hL (hxh ▸ hx)
  rw [List.filter_cons_of_neg (by simp), hs] at hf
  exact hf

theorem nodup_concat (hn : A.Nodup) (hA : h ∉ A) : (A ++ [h]).Nodup :=
  (List.perm_append_singleton h A).nodup_iff.mpr (List.nodup_cons.mpr ⟨hA, hn⟩)

theorem perm_remove (hp : (handles (a ++ e :: b)).Perm A) (hn : A.Nodup) :
    (handles (a ++ b)).Perm (A.filter (· ≠ e.handle)) := by
  apply perm_filter_ne _ hn
  have hm : (handles (a ++ e :: b)).Perm (e.handle :: handles (a ++ b)) := by simp
  exact hm.symm.trans hp

theorem perm_arrive (hl : (handles l').Perm (h :: handles l)) (hp : (handles l).Perm A) :
    (handles l').Perm (A ++ [h]) :=
  hl.trans ((hp.cons h).trans (List.perm_append_singleton h A).symm)

end Arrivals

theorem filter_hasLock {held pending : List (Queued B P)} (hl : ∀ e ∈ held, hasLock e = true)
    (hu : ∀ e ∈ pending, hasLock e = false) : (held ++ pending).filter hasLock = held := by
  have hh : held.filter hasLock = held := List.filter_eq_self.mpr hl
  have hp : pending.filter hasLock = [] :=
    List.filter_eq_nil_iff.mpr fun e he => by simp [hu e he]
  rw [List.filter_append, hh, hp, List.append_nil]

/-- Entries with the lock are held, others wait, and each is the one of a caller. -/
structure Pool.WF (p : Pool B P) : Prop where
  locked : ∀ e ∈ p.held, hasLock e = true
  unlocked : ∀ e ∈ p.pending, hasLock e = false
  perm : (handles (p.held ++ p.pending)).Perm p.arrivals
  nodup : p.arrivals.Nodup

theorem Pool.WF.nodup_handles {p : Pool B P} (hp : p.WF) :
    (handles (p.held ++ p.pending)).Nodup :=
  hp.perm.nodup_iff.mpr hp.nodup

theorem Pool.WF.nodup_held {p : Pool B P} (hp : p.WF) : (handles p.held).Nodup := by
  have hn := hp.nodup_handles
  rw [handles_append] at hn
  exact hn.of_append_left

theorem Pool.WF.disjoint {p : Pool B P} (hp : p.WF) :
    List.Disjoint (handles p.held) (handles p.pending) := by
  have hn := hp.nodup_handles
  rw [handles_append] at hn
  exact List.disjoint_of_nodup_append hn

theorem Pool.WF.pending_mem {p : Pool B P} (hp : p.WF) (he : e ∈ p.pending) :
    e.handle ∈ p.arrivals :=
  hp.perm.mem_iff.mp (mem_handles (List.mem_append_right _ he))

section Moves

variable [Priority P] {op : Op B P} {r : Result B} {p p' : Pool B P}

theorem Moves.same (hop : op.request = none) : Moves op r p p :=
  .unchanged fun _ _ h => by simp [hop] at h

theorem Moves.wf (h : Moves op r p p') (hp : p.WF) : p'.WF := by
  obtain ⟨hl, hu, hperm, hn⟩ := hp
  cases h with
  | @acquire _ _ _ word _ _ h held pending held' _ hreq hA hle hb hplace =>
    refine ⟨?_, hu, perm_arrive ?_ hperm, nodup_concat hn hA⟩
    · intro e he
      rcases List.mem_cons.mp (hplace.perm.mem_iff.mp he) with rfl | he
      · rfl
      · exact hasLock_flagWhere hl e he
    · have hh : (handles held').Perm (h :: handles (flagWhere (outranked _) held)) :=
        hplace.perm.map Entry.handle
      rw [handles_flagWhere] at hh
      rw [handles_append, handles_append]
      exact hh.append_right (handles pending)
  | @enqueue _ _ _ word _ _ h held pending pending' _ hreq hA hle hplace =>
    refine ⟨hasLock_flagWhere hl, ?_, perm_arrive ?_ hperm, nodup_concat hn hA⟩
    · intro e he
      rcases List.mem_cons.mp (hplace.perm.mem_iff.mp he) with rfl | he
      · rfl
      · exact hu e he
    · have hh := (hplace.perm.map Entry.handle).append_left (handles held)
      rw [handles_append, handles_flagWhere, handles_append]
      exact hh.trans List.perm_middle
  | @release _ _ _ _ _ e a b pending _ _ _ hop hact =>
    have hl' : ∀ d ∈ a ++ b, hasLock d = true :=
      fun d hd => hl d ((List.sublist_cons_self e b).append_left a |>.subset hd)
    refine ⟨hact.locked hl', hact.unlocked hu, ?_, hn.filter _⟩
    have hr : (handles (a ++ (b ++ pending))).Perm _ := perm_remove (by simpa using hperm) hn
    exact hact.perm.trans (by simpa using hr)
  | @discard _ _ _ e a b pending _ hop hB hc =>
    refine ⟨fun d hd => hl d ?_, hu, ?_, hn.filter _⟩
    · exact (List.sublist_cons_self e b).append_left a |>.subset hd
    · have hr : (handles (a ++ (b ++ pending))).Perm _ := perm_remove (by simpa using hperm) hn
      simpa using hr
  | @leave _ _ _ _ e held a b _ hop ha =>
    refine ⟨hl, fun d hd => hu d ?_, ?_, hn.filter _⟩
    · exact (List.sublist_cons_self e b).append_left a |>.subset hd
    · have hr : (handles ((held ++ a) ++ b)).Perm _ := perm_remove (by simpa using hperm) hn
      simpa using hr
  | @unblock _ _ _ _ _ e held b _ _ _ hop hact =>
    have hu' : ∀ d ∈ [] ++ b, hasLock d = false := fun d hd => hu d (List.mem_cons_of_mem e hd)
    exact ⟨hact.locked hl, hact.unlocked hu', hact.perm.trans (perm_remove hperm hn), hn.filter _⟩
  | @forget _ _ e a b pending _ hB =>
    refine ⟨fun d hd => hl d ?_, hu, ?_, hn.filter _⟩
    · exact (List.sublist_cons_self e b).append_left a |>.subset hd
    · have hr : (handles (a ++ (b ++ pending))).Perm _ := perm_remove (by simpa using hperm) hn
      simpa using hr
  | @forgetTotal total _ e a b pending _ hB hle =>
    refine ⟨?_, hasLock_flagWhere hu, ?_, hn.filter _⟩
    · intro d hd
      rcases List.mem_append.mp hd with hd | hd
      · exact hl d (List.mem_append_left _ hd)
      · exact hasLock_flagWhere
          (fun f hf => hl f (List.mem_append_right _ (List.mem_cons_of_mem e hf))) d hd
    · have hr : (handles (a ++ (b ++ pending))).Perm _ := perm_remove (by simpa using hperm) hn
      simpa using hr
  | @split _ q n _ _ h e a b pending held' _ hop hA hlt hplace =>
    refine ⟨?_, hu, perm_arrive ?_ hperm, nodup_concat hn hA⟩
    · intro d hd
      rcases List.mem_cons.mp (hplace.perm.mem_iff.mp hd) with rfl | hd
      · rfl
      rcases List.mem_append.mp hd with hd | hd
      · exact hl d (List.mem_append_left _ hd)
      rcases List.mem_cons.mp hd with rfl | hd
      · exact hl e (by simp)
      · exact hl d (List.mem_append_right _ (List.mem_cons_of_mem e hd))
    · have hh := (hplace.perm.map Entry.handle).append_right (handles pending)
      simpa [handles] using hh
  | @merge _ _ e f a b pending _ hf hle =>
    refine ⟨?_, hu, ?_, hn.filter _⟩
    · intro d hd
      rcases List.mem_append.mp (mem_without.mp hd).1 with hd | hd
      · exact hl d (List.mem_append_left _ hd)
      rcases List.mem_cons.mp hd with rfl | hd
      · exact hl e (by simp)
      · exact hl d (List.mem_append_right _ (List.mem_cons_of_mem e hd))
    · have hfm : f.handle ∈ handles (a ++ e :: b) := by
        rcases List.mem_append.mp hf with hf | hf
        · exact mem_handles (List.mem_append_left _ hf)
        · exact mem_handles (List.mem_append_right _ (List.mem_cons_of_mem e hf))
      have hnd := hperm.nodup_iff.mpr hn
      rw [handles_append] at hnd
      have hfp : (handles pending).filter (· ≠ f.handle) = handles pending :=
        List.filter_eq_self.mpr fun x hx => decide_eq_true fun hxf =>
          (List.disjoint_of_nodup_append hnd) hfm (hxf ▸ hx)
      have hfilter := hperm.filter (· ≠ f.handle)
      rw [handles_append, List.filter_append, hfp] at hfilter
      rw [handles_append, handles_without]
      simpa using hfilter
  | add hop hB hc hact | addTotal hop hB hc hact =>
    exact ⟨hact.locked hl, hact.unlocked hu, hact.perm.trans hperm, hn⟩
  | forgetPermits hB hle => exact ⟨hl, hu, hperm, hn⟩
  | forgetPermitsTotal hB hne hle hle' =>
    exact ⟨hasLock_flagWhere hl, hasLock_flagWhere hu, by simpa using hperm, hn⟩
  | unchanged => exact ⟨hl, hu, hperm, hn⟩

theorem Moves.held_stays (h : Moves op r p p') {x : Handle} (hx : x ∈ handles p.held)
    (hx' : x ∈ p'.arrivals) : x ∈ handles p'.held := by
  cases h with
  | @acquire _ _ _ _ _ _ h held _ held' _ hreq hA hle hb hplace =>
    have hh : (handles held').Perm (h :: handles (flagWhere (outranked _) held)) :=
      hplace.perm.map Entry.handle
    rw [handles_flagWhere] at hh
    exact hh.mem_iff.mpr (List.mem_cons_of_mem h hx)
  | enqueue => simpa using hx
  | release hop hact =>
    have hne := (List.mem_filter.mp hx').2
    exact List.map_subset _ hact.subset (by simpa [handles, of_decide_eq_true hne] using hx)
  | discard | forget =>
    have hne := (List.mem_filter.mp hx').2
    simpa [handles, of_decide_eq_true hne] using hx
  | leave => exact hx
  | unblock hop hact => exact List.map_subset _ hact.subset hx
  | forgetTotal =>
    have hne := (List.mem_filter.mp hx').2
    rw [handles_append, handles_flagWhere]
    simpa [of_decide_eq_true hne] using hx
  | @split _ _ _ _ _ h e a b _ held' _ hop hA hlt hplace =>
    have hh : (handles held').Perm (h :: handles (a ++ _ :: b)) := hplace.perm.map Entry.handle
    refine hh.mem_iff.mpr (List.mem_cons_of_mem h ?_)
    simpa using hx
  | merge =>
    have hne := (List.mem_filter.mp hx').2
    rw [handles_without]
    refine List.mem_filter.mpr ⟨?_, hne⟩
    simpa using hx
  | add hop hB hc hact | addTotal hop hB hc hact => exact List.map_subset _ hact.subset hx
  | forgetPermits | unchanged => exact hx
  | forgetPermitsTotal => simpa using hx

end Moves

section Conservation

variable {p : Pool B P}

/-- No permit is lost or made up. -/
def Pool.Conserved (p : Pool B P) : Prop :=
  p.total.toNat = p.available.toNat + permits p.held

theorem Pool.Conserved.available_le (hp : p.Conserved) : p.available ≤ p.total := by
  apply BitVec.le_def.mpr
  unfold Pool.Conserved at hp
  omega

theorem Pool.Conserved.count_le (hp : p.Conserved) (he : e ∈ p.held) : count e ≤ p.total := by
  apply BitVec.le_def.mpr
  have hc := count_le_permits he
  unfold Pool.Conserved at hp
  omega

/-- Permits of the total are all room that a count can take up. -/
theorem Pool.Conserved.room {n : Usize B} (hp : p.Conserved) (he : n.toNat ≤ permits p.held) :
    p.available.toNat + n.toNat < 2 ^ B.bits := by
  have hlt := p.total.isLt
  unfold Pool.Conserved at hp
  omega

theorem count_toNat_lt (hB : B.semaphoreTotal = true) : (count e).toNat < 2 ^ (B.bits - 1) := by
  rw [count, SemaphoreWaiter.count, if_pos hB, toNat_masked]
  exact Nat.mod_lt _ (Nat.two_pow_pos _)

theorem count_sub (hB : B.semaphoreTotal = true) {n : Usize B} (h : n < count e) :
    (count (recount e (e.data.rawCount - n))).toNat = (count e).toNat - n.toNat := by
  have hn := BitVec.lt_def.mp h
  simp only [count, SemaphoreWaiter.count, hB, if_true] at hn ⊢
  exact masked_sub (by omega)

theorem count_add (hB : B.semaphoreTotal = true) {n : Usize B} (hn : n.toNat < 2 ^ (B.bits - 1))
    (h : count e + n ≤ maxPermits B) :
    (count (recount e (e.data.rawCount + n))).toNat = (count e).toNat + n.toNat := by
  have hc := count_toNat_lt (e := e) hB
  have hp := pow_bits B
  have hle := BitVec.le_def.mp h
  rw [toNat_maxPermits, toNat_add_of_lt (by omega)] at hle
  simp only [count, SemaphoreWaiter.count, hB, if_true] at hc hle ⊢
  exact masked_add (by omega)

variable [Priority P] {p p' : Pool B P} {op : Op B P} {r : Result B}

theorem Moves.conserved (hB : B.semaphoreTotal = true) (h : Moves op r p p') (hp : p.WF)
    (hc : p.Conserved) : p'.Conserved := by
  have hcount := fun e : Queued B P => count_toNat_lt (e := e) hB
  cases h with
  | @acquire _ q n word total available h held pending held' _ hreq hA hle hb hplace =>
    have hperm := permits_perm hplace.perm
    have hsub := toNat_sub_of_le hle
    have hn := BitVec.le_def.mp hle
    simp only [Pool.Conserved, permits_cons, permits_flagWhere, hreq.count] at hc hperm ⊢
    omega
  | enqueue => simpa [Pool.Conserved] using hc
  | @release _ _ _ available _ e a b _ _ _ _ hop hact =>
    have hroom := hc.room (n := count e) (count_le_permits (by simp))
    have hadd := toNat_add_of_lt hroom
    have hperm := hact.permits
    simp only [Pool.Conserved, permits_append, permits_cons] at hc hperm hadd ⊢
    omega
  | discard hop hB' => simp [hB] at hB'
  | leave => exact hc
  | unblock hop hact =>
    have hperm := hact.permits
    simp only [Pool.Conserved] at hc ⊢
    omega
  | forget hB' => simp [hB] at hB'
  | @forgetTotal total _ e a b _ _ hB' hle =>
    have hsub := toNat_sub_of_le hle
    simp only [Pool.Conserved, permits_append, permits_cons, permits_flagWhere] at hc ⊢
    omega
  | @split _ q n _ _ h e a b _ held' _ hop hA hlt hplace =>
    have hperm := permits_perm hplace.perm
    have hn : count (⟨h, q, .new true, n⟩ : Queued B P) = n := by
      have hne := BitVec.lt_def.mp hlt
      have he := hcount e
      simp only [count, SemaphoreWaiter.count, hB, if_true]
      exact masked_of_lt (by omega)
    have hsub := count_sub hB hlt
    have hne := BitVec.lt_def.mp hlt
    simp only [Pool.Conserved, permits_append, permits_cons, hn] at hc hperm ⊢
    omega
  | @merge _ _ e f a b pending _ hf hle =>
    have hadd := count_add hB (hcount f) hle
    have hnd := hp.nodup_handles
    obtain ⟨x, y, hxy⟩ : ∃ x y,
        a ++ recount e (e.data.rawCount + count f) :: b = x ++ f :: y := by
      apply List.append_of_mem
      rcases List.mem_append.mp hf with hf | hf <;> simp [hf]
    have hnd' : (handles (x ++ f :: y)).Nodup := by
      rw [← hxy]
      simp only [handles_append, handles_cons, recount_handle] at hnd ⊢
      exact hnd.of_append_left
    have hsum := congrArg permits hxy
    rw [hxy, without_middle hnd']
    simp only [Pool.Conserved, permits_append, permits_cons] at hc hsum ⊢
    omega
  | add hop hB' => simp [hB] at hB'
  | @addTotal _ _ n total available _ held _ _ _ _ hop hB' hca hact =>
    have hperm := hact.permits
    have hadd := toNat_add_of_lt (checkedAdd_eq_some.mp hca).1
    have hle := BitVec.le_def.mp hc.available_le
    have hadd' : (available + n).toNat = available.toNat + n.toNat := toNat_add_of_lt (by
      simp only at hle
      omega)
    simp only [Pool.Conserved] at hc ⊢
    omega
  | forgetPermits hB' => simp [hB] at hB'
  | forgetPermitsTotal hB' hne hle hle' =>
    have hsub := toNat_sub_of_le hle
    have hsub' := toNat_sub_of_le hle'
    have hn := BitVec.le_def.mp hle
    simp only [Pool.Conserved, permits_flagWhere] at hc ⊢
    omega
  | unchanged => exact hc

end Conservation

end PriorityLock.Semaphore
