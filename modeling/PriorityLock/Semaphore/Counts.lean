import PriorityLock.Semaphore.Overflow

/-! # Counts and the flag in their word

The counts of all entries stay below the bit of the flag, whose word they share.
So the updates of a split and of a merge neither wrap nor touch the flag, and a
merge restores the word that a split has changed.
-/

namespace PriorityLock.Semaphore

open Placement Transition PriorityQueue

variable {B : Build} {Q P : Type} {e f : Queued B P} {m n word : Usize B}
  {a b l l' : List (Queued B P)}

section Words

theorem count_lt (h : count e ≤ maxPermits B) : (count e).toNat < 2 ^ (B.bits - 1) := by
  have hle := BitVec.le_def.mp h
  have hpos := Nat.two_pow_pos (B.bits - 1)
  rw [toNat_maxPermits] at hle
  omega

theorem count_of_total (hB : B.semaphoreTotal = true) : count e = masked e.data.rawCount := by
  simp [count, SemaphoreWaiter.count, hB]

theorem count_of_plain (hB : B.semaphoreTotal = false) : count e = e.data.rawCount := by
  simp [count, SemaphoreWaiter.count, hB]

@[simp] theorem recount_rawCount : (recount e word).data.rawCount = word := rfl

/-- In both builds a count that is in range is the word without the flag. -/
theorem count_eq_masked (h : count e ≤ maxPermits B) : count e = masked e.data.rawCount := by
  have hlt := count_lt h
  cases hB : B.semaphoreTotal with
  | true => exact count_of_total hB
  | false =>
    rw [count_of_plain hB] at hlt ⊢
    exact (masked_of_lt hlt).symm

theorem count_of_lt (h : word.toNat < 2 ^ (B.bits - 1)) (he : e.data.rawCount = word) :
    count e = word := by
  cases hB : B.semaphoreTotal with
  | true => rw [count_of_total hB, he, masked_of_lt h]
  | false => rw [count_of_plain hB, he]

theorem toNat_add_count (he : count e ≤ maxPermits B) (hf : count f ≤ maxPermits B) :
    (count e).toNat + (count f).toNat < 2 ^ B.bits := by
  have hp := pow_bits B
  have hle := count_lt he
  have hlf := count_lt hf
  omega

theorem add_count_le (he : count e ≤ maxPermits B) (hf : count f ≤ maxPermits B) :
    count e + count f ≤ maxPermits B ↔
      (count e).toNat + (count f).toNat ≤ (maxPermits B).toNat := by
  rw [BitVec.le_def, toNat_add_of_lt (toNat_add_count he hf)]

/-- `node.count -= count` on the word of an entry takes the permits from its count. -/
structure Takes (e : Queued B P) (n : Usize B) : Prop where
  le : n ≤ e.data.rawCount
  flag : (e.data.rawCount - n) &&& withinTotalBit B = e.data.rawCount &&& withinTotalBit B
  sum : (count (recount e (e.data.rawCount - n))).toNat + n.toNat = (count e).toNat

theorem takes_of_le (hc : count e ≤ maxPermits B) (hn : n ≤ count e) : Takes e n := by
  have hle := BitVec.le_def.mp hn
  rw [count_eq_masked hc] at hle
  refine ⟨le_of_le_masked hle, flag_sub hle, ?_⟩
  cases hB : B.semaphoreTotal with
  | true =>
    rw [count_of_total hB, count_of_total hB, recount_rawCount, masked_sub hle]
    omega
  | false =>
    have hraw := BitVec.le_def.mp (le_of_le_masked hle)
    rw [count_of_plain hB, count_of_plain hB, recount_rawCount,
      toNat_sub_of_le (le_of_le_masked hle)]
    omega

/-- `node.count += count` on the word of an entry adds the permits to its count. -/
structure Adds (e : Queued B P) (n : Usize B) : Prop where
  fits : e.data.rawCount.toNat + n.toNat < 2 ^ B.bits
  flag : (e.data.rawCount + n) &&& withinTotalBit B = e.data.rawCount &&& withinTotalBit B
  sum : (count (recount e (e.data.rawCount + n))).toNat = (count e).toNat + n.toNat

theorem adds_of_le (hc : count e ≤ maxPermits B)
    (hn : (count e).toNat + n.toNat ≤ (maxPermits B).toNat) : Adds e n := by
  have hpos := Nat.two_pow_pos (B.bits - 1)
  have hlt : (masked e.data.rawCount).toNat + n.toNat < 2 ^ (B.bits - 1) := by
    rw [count_eq_masked hc, toNat_maxPermits] at hn
    omega
  refine ⟨toNat_add_lt hlt, flag_add hlt, ?_⟩
  cases hB : B.semaphoreTotal with
  | true => rw [count_of_total hB, count_of_total hB, recount_rawCount, masked_add hlt]
  | false =>
    rw [count_of_plain hB, count_of_plain hB, recount_rawCount, toNat_add_of_lt (toNat_add_lt hlt)]

end Words

section Moves

def Counted (l : List (Queued B P)) : Prop := ∀ e ∈ l, count e ≤ maxPermits B

def Pool.Counted (p : Pool B P) : Prop := Semaphore.Counted (p.held ++ p.pending)

theorem counted_append : Counted (a ++ b) ↔ Counted a ∧ Counted b := List.forall_mem_append

theorem counted_cons : Counted (e :: l) ↔ count e ≤ maxPermits B ∧ Counted l :=
  List.forall_mem_cons

theorem Counted.subset (h : Counted l) (hs : l' ⊆ l) : Counted l' := fun e he => h e (hs he)

theorem Counted.flagWhere {cond : SemaphoreWaiter B P → Bool} (h : Counted l) :
    Counted (flagWhere cond l) := by
  intro e he
  obtain ⟨d, hd, rfl⟩ := List.mem_map.mp he
  rw [count_flag]
  exact h d hd

theorem count_le_of_lt (h : n < m) (hm : m ≤ maxPermits B) (he : e.data.rawCount = n) :
    count e ≤ maxPermits B := by
  have hlt := BitVec.lt_def.mp h
  have hle := BitVec.le_def.mp hm
  have hpos := Nat.two_pow_pos (B.bits - 1)
  rw [toNat_maxPermits] at hle
  rw [count_of_lt (by omega) he, BitVec.le_def, toNat_maxPermits]
  omega

theorem Takes.count_le (h : Takes e n) (hc : count e ≤ maxPermits B) :
    count (recount e (e.data.rawCount - n)) ≤ maxPermits B := by
  have hle := BitVec.le_def.mp hc
  have hsum := h.sum
  apply BitVec.le_def.mpr
  omega

theorem Adds.count_le (h : Adds e n) (hn : (count e).toNat + n.toNat ≤ (maxPermits B).toNat) :
    count (recount e (e.data.rawCount + n)) ≤ maxPermits B := by
  apply BitVec.le_def.mpr
  rw [h.sum]
  exact hn

theorem Requests.le_max {op : Op B P} {priority : P} (h : Requests op priority n word) :
    n ≤ maxPermits B := by
  cases h with
  | many hn | withinTotal hB hn => exact BitVec.le_of_lt hn

variable [Priority P]

theorem Activates.counted {held rest held' pending' : List (Queued B P)}
    {available available' : Usize B}
    (h : Activates held [] rest available held' pending' available') (hh : Counted held)
    (hr : Counted rest) : Counted (held' ++ pending') := by
  obtain ⟨granted, hg, hp, -⟩ := h.granted
  refine counted_append.mpr ⟨fun e he => ?_, hr.subset h.sublist.subset⟩
  rcases List.mem_append.mp (hp.mem_iff.mp he) with he | he
  · obtain ⟨d, hd, rfl⟩ := List.mem_map.mp he
    exact hr d (hg.subset hd)
  · exact hh e he

theorem Moves.counted {op : Op B P} {r : Result B} {p p' : Pool B P} (h : Moves op r p p')
    (hc : p.Counted) : p'.Counted := by
  obtain ⟨hh, hp⟩ := counted_append.mp hc
  cases h with
  | acquire hreq hA hle hb hplace =>
    refine counted_append.mpr ⟨fun e he => ?_, hp⟩
    rcases List.mem_cons.mp (hplace.perm.mem_iff.mp he) with rfl | he
    · rw [hreq.count]
      exact hreq.le_max
    · exact hh.flagWhere e he
  | enqueue hreq hA hle hplace =>
    refine counted_append.mpr ⟨hh.flagWhere, fun e he => ?_⟩
    rcases List.mem_cons.mp (hplace.perm.mem_iff.mp he) with rfl | he
    · rw [hreq.count]
      exact hreq.le_max
    · exact hp e he
  | release hop hact =>
    exact hact.counted (hh.subset ((List.sublist_cons_self _ _).append_left _).subset) hp
  | unblock hop hact => exact hact.counted hh (counted_cons.mp hp).2
  | add hop hB hca hact | addTotal hop hB hca hact => exact hact.counted hh hp
  | discard | forget =>
    exact counted_append.mpr
      ⟨hh.subset ((List.sublist_cons_self _ _).append_left _).subset, hp⟩
  | leave =>
    exact counted_append.mpr
      ⟨hh, hp.subset ((List.sublist_cons_self _ _).append_left _).subset⟩
  | forgetTotal =>
    obtain ⟨ha, hb⟩ := counted_append.mp hh
    exact counted_append.mpr
      ⟨counted_append.mpr ⟨ha, (counted_cons.mp hb).2.flagWhere⟩, hp.flagWhere⟩
  | split hop hA hlt hplace =>
    obtain ⟨ha, hb⟩ := counted_append.mp hh
    obtain ⟨he, hb⟩ := counted_cons.mp hb
    refine counted_append.mpr ⟨Counted.subset (l := _ :: (_ ++ _ :: _)) ?_
      hplace.perm.subset, hp⟩
    have hrest := (takes_of_le he (BitVec.le_of_lt hlt)).count_le he
    exact counted_cons.mpr
      ⟨count_le_of_lt hlt he rfl, counted_append.mpr ⟨ha, counted_cons.mpr ⟨hrest, hb⟩⟩⟩
  | merge hf hle =>
    obtain ⟨ha, hb⟩ := counted_append.mp hh
    obtain ⟨he, hb⟩ := counted_cons.mp hb
    have hf' := counted_append.mpr ⟨ha, hb⟩ _ hf
    have hsum := (add_count_le he hf').mp hle
    refine counted_append.mpr ⟨Counted.subset ?_ List.filter_sublist.subset, hp⟩
    exact counted_append.mpr ⟨ha, counted_cons.mpr ⟨(adds_of_le he hsum).count_le hsum, hb⟩⟩
  | forgetPermits | unchanged => exact hc
  | forgetPermitsTotal => exact counted_append.mpr ⟨hh.flagWhere, hp.flagWhere⟩

end Moves

section Recounts

def recountAt (h : Handle) (word : Usize B) (l : List (Queued B P)) : List (Queued B P) :=
  l.map fun e => if e.handle = h then recount e word else e

variable {h : Handle}

theorem recountAt_append : recountAt h word (a ++ b) = recountAt h word a ++ recountAt h word b :=
  List.map_append

theorem recountAt_of_not_mem (hh : h ∉ handles l) : recountAt h word l = l := by
  have hne : ∀ e ∈ l, (if e.handle = h then recount e word else e) = e := by
    intro e he
    apply if_neg
    rintro rfl
    exact hh (mem_handles he)
  exact (List.map_congr_left hne).trans (List.map_id' l)

theorem recountAt_middle (hn : (handles (a ++ e :: b)).Nodup) :
    recountAt e.handle word (a ++ e :: b) = a ++ recount e word :: b := by
  rw [handles_append, handles_cons] at hn
  obtain ⟨hnot, -⟩ := List.nodup_cons.mp (List.nodup_middle.mp hn)
  obtain ⟨ha, hb⟩ := not_or.mp (mt List.mem_append.mpr hnot)
  have hcons : recountAt e.handle word (e :: b) = recount e word :: recountAt e.handle word b := by
    simp [recountAt]
  rw [recountAt_append, hcons, recountAt_of_not_mem ha, recountAt_of_not_mem hb]

/-- What a split has changed, and added elsewhere, a merge takes back. -/
theorem recountAt_split {x : Queued B P} (hn : (handles (a ++ e :: b)).Nodup)
    (hx : x.handle ∉ handles (a ++ e :: b)) {u v : List (Queued B P)}
    (huv : u ++ v = a ++ recount e word :: b) :
    without (recountAt e.handle e.data.rawCount (u ++ x :: v)) x.handle = a ++ e :: b := by
  have hne : x.handle ≠ e.handle := by
    rintro heq
    simp [heq] at hx
  have hn' : (handles (a ++ recount e word :: b)).Nodup := by simpa using hn
  have hback : recountAt e.handle e.data.rawCount (u ++ v) = a ++ e :: b := by
    rw [huv]
    exact recountAt_middle hn'
  have hcons : recountAt e.handle e.data.rawCount (x :: v) =
      x :: recountAt e.handle e.data.rawCount v := by
    simp [recountAt, hne]
  have hdrop : ∀ v : List (Queued B P), without (x :: v) x.handle = without v x.handle :=
    fun _ => List.filter_cons_of_neg (by simp)
  rw [recountAt_append, hcons, without_append, hdrop, ← without_append, ← recountAt_append, hback,
    without_of_not_mem hx]

end Recounts

section Calls

variable [Priority P] [PriorityQueue Q (SemaphoreWaiter B P)]

/-- A split that leaves a permit takes its permits from the word, and a merge puts them back; any
other one changes nothing. -/
def SplitsExactly (s : System B Q) (l : List (Queued B P)) (e : Queued B P) (op : Op B P)
    (priority : P) (n : Usize B) : Prop :=
  ∃ r s' l', call s op = some (r, s') ∧ entries s'.inner.queue = some l' ∧
    if n < count e then
      Takes e n ∧ ∃ h, r = .permit h ∧ h ∉ handles l ∧
        count (⟨h, priority, .new true, n⟩ : Queued B P) = n ∧
        Placed Priority.compareNew ⟨h, priority, .new true, n⟩
          (recountAt e.handle (e.data.rawCount - n) l) l' ∧
        ∃ s'', call s' (.merge e.handle h : Op B P) = some (.merged true, s'') ∧
          entries s''.inner.queue = some l
    else r = .insufficient ⟨count e, n⟩ ∧ l' = l

/-- A merge up to the largest count adds the other permits to the word; any other one leaves the
entry as it is. -/
def MergesExactly (s : System B Q) (l : List (Queued B P)) (e f : Queued B P) : Prop :=
  ∃ r s' l', call s (.merge e.handle f.handle : Op B P) = some (r, s') ∧
    entries s'.inner.queue = some l' ∧ (count e).toNat + (count f).toNat < 2 ^ B.bits ∧
    if (count e).toNat + (count f).toNat ≤ (maxPermits B).toNat then
      Adds e (count f) ∧ r = .merged true ∧
        l' = without (recountAt e.handle (e.data.rawCount + count f) l) f.handle
    else (r = .merged false ∨ r = .panicked (.overflow (count f) s.inner.available)) ∧ e ∈ l'

variable [LawfulQueue Q (SemaphoreWaiter B P)] {s : System B Q} {p : Pool B P}

theorem Holds.lookup_permit (hs : Holds s p) (ho : ⟨e.handle, .permit⟩ ∈ s.owned) :
    lookup s.owned e.handle = some ⟨e.handle, .permit⟩ :=
  lookup_of_mem (e := ⟨e.handle, .permit⟩) hs.nodup_owned ho

theorem Holds.not_mem_owned (hs : Holds s p) {h : Handle}
    (hh : h ∉ handles (p.held ++ p.pending)) : h ∉ handles s.owned :=
  fun ho => hh (hs.mem_owned.mp ho)

theorem call_merge (hr : LawfulQueue.Rep s.inner.queue l) (he : e ∈ l) (hf : f ∈ l)
    (hne : e.handle ≠ f.handle)
    (hoe : lookup s.owned e.handle = some ⟨e.handle, .permit⟩)
    (hof : lookup s.owned f.handle = some ⟨f.handle, .permit⟩)
    (hle : count e + count f ≤ maxPermits B) : ∃ s',
    call s (.merge e.handle f.handle : Op B P) = some (.merged true, s') ∧
      entries s'.inner.queue =
        some (without (recountAt e.handle (e.data.rawCount + count f) l) f.handle) := by
  have hnd := LawfulQueue.nodup hr
  obtain ⟨a, b, rfl⟩ := List.append_of_mem he
  have hmerge := merge_spec hr (mem_of_ne_middle hf hne)
  rw [if_neg (BitVec.not_lt.mpr hle)] at hmerge
  obtain ⟨q, hq, hr'⟩ := hmerge
  rw [recountAt_middle hnd]
  exact ⟨⟨⟨q, s.inner.total, s.inner.available⟩, without s.owned f.handle⟩,
    by simp [call, hoe, hof, hne, hq], LawfulQueue.entries_eq hr'⟩

theorem Holds.splitsExactly (hs : Holds s p) (hc : p.Counted)
    (he : e ∈ p.held ++ p.pending) (ho : ⟨e.handle, .permit⟩ ∈ s.owned) {op : Op B P}
    (g : P → P)
    (hop : Semaphore.call s op = (splitOff g s.inner e.handle n).map s.splitResult) :
    SplitsExactly s (p.held ++ p.pending) e op (g e.data.priority) n := by
  have hr := hs.view.rep
  have hown := fun h => hs.not_mem_owned (h := h)
  have hlook := hs.lookup_permit ho
  have hce := hc e he
  generalize p.held ++ p.pending = l at hr he hown
  obtain ⟨a, b, rfl⟩ := List.append_of_mem he
  have hnd := LawfulQueue.nodup hr
  have hsplit := splitOff_spec g n hr
  unfold SplitsExactly
  by_cases hlt : n < count e
  · rw [if_pos hlt] at hsplit
    obtain ⟨h, q, l', hq, hr', hh, hplace⟩ := hsplit
    have htakes := takes_of_le hce (BitVec.le_of_lt hlt)
    have hn : n.toNat < 2 ^ (B.bits - 1) := (BitVec.lt_def.mp hlt).trans (count_lt hce)
    have hnew : count (⟨h, g e.data.priority, .new true, n⟩ : Queued B P) = n :=
      count_of_lt hn rfl
    have hhe : e.handle ≠ h := by
      rintro rfl
      exact hh (mem_handles he)
    have hroom : count (recount e (e.data.rawCount - n)) +
        count (⟨h, g e.data.priority, .new true, n⟩ : Queued B P) ≤ maxPermits B := by
      apply (add_count_le (htakes.count_le hce) (count_le_of_lt hlt hce rfl)).mpr
      rw [hnew, htakes.sum]
      exact BitVec.le_def.mp hce
    obtain ⟨s', hmerge, hl'⟩ := call_merge
      (s := ⟨⟨q, s.inner.total, s.inner.available⟩, s.owned ++ [⟨h, .permit⟩]⟩)
      (e := recount e (e.data.rawCount - n)) (f := ⟨h, g e.data.priority, .new true, n⟩) hr'
      (hplace.perm.mem_iff.mpr (by simp)) (hplace.perm.mem_iff.mpr (by simp)) hhe
      (lookup_append hlook) (lookup_concat (hown h hh)) hroom
    refine ⟨.permit h, ⟨⟨q, s.inner.total, s.inner.available⟩, s.owned ++ [⟨h, .permit⟩]⟩, l', ?_,
      LawfulQueue.entries_eq hr', ?_⟩
    · rw [hop, hq]
      rfl
    rw [if_pos hlt, recountAt_middle hnd]
    refine ⟨htakes, h, rfl, hh, hnew, hplace, s', hmerge, ?_⟩
    obtain ⟨u, v, huv, rfl, -⟩ := hplace
    rw [hl', hnew, recount_rawCount, BitVec.sub_add_cancel]
    have hundo := recountAt_split (x := ⟨h, g e.data.priority, .new true, n⟩) hnd hh huv.symm
    exact congrArg some hundo
  · rw [if_neg hlt] at hsplit
    obtain ⟨q, hq, hr'⟩ := hsplit
    refine ⟨.insufficient ⟨count e, n⟩, ⟨⟨q, s.inner.total, s.inner.available⟩, s.owned⟩, _, ?_,
      LawfulQueue.entries_eq hr', ?_⟩
    · rw [hop, hq]
      rfl
    · rw [if_neg hlt]
      exact ⟨rfl, rfl⟩

theorem View.dropPermit_keeps {s : SemaphoreInner B Q} (hv : View s p) (he : e ∈ p.held)
    (hf : f ∈ p.held) (hne : e.handle ≠ f.handle) : ∃ r s' l',
    Semaphore.dropPermit s f.handle = some (r, s') ∧ entries s'.queue = some l' ∧ e ∈ l' ∧
      (r = .ok () ∨ r = .error (.overflow (count f) s.available)) := by
  have hr := hv.rep
  have hl := hv.wf.locked
  obtain ⟨a, b, hab⟩ := List.append_of_mem hf
  rw [hab] at he hr hl
  have hmem := mem_of_ne_middle he hne.symm
  rw [List.append_assoc, List.cons_append] at hr
  obtain ⟨q, hr', hd⟩ := dropPermit_spec hr
  by_cases hfits : Fits B s.available (count f)
  · rw [if_pos hfits] at hd
    obtain ⟨s', held', pending', hact, -, hr'', ha⟩ :=
      activateWaiters_spec (s := ⟨q, s.total, s.available + count f⟩) hr'
        (fun d hd => hl d (by simp [hd])) hv.wf.unlocked
    exact ⟨.ok (), s', _, by rw [hd, hact]; rfl, LawfulQueue.entries_eq hr'',
      List.mem_append_left _ (ha.subset hmem), Or.inl rfl⟩
  · rw [if_neg hfits] at hd
    refine ⟨_, _, _, hd, LawfulQueue.entries_eq hr', ?_, Or.inr rfl⟩
    rw [← List.append_assoc]
    exact List.mem_append_left _ hmem

theorem Holds.mergesExactly (hs : Holds s p) (hc : p.Counted)
    (he : e ∈ p.held) (hf : f ∈ p.held) (hoe : ⟨e.handle, .permit⟩ ∈ s.owned)
    (hof : ⟨f.handle, .permit⟩ ∈ s.owned) (hne : e.handle ≠ f.handle) :
    MergesExactly s (p.held ++ p.pending) e f := by
  have hr := hs.view.rep
  have hle := hs.lookup_permit hoe
  have hlf := hs.lookup_permit hof
  have he' := List.mem_append_left p.pending he
  have hf' := List.mem_append_left p.pending hf
  have hsum := add_count_le (hc e he') (hc f hf')
  unfold MergesExactly
  by_cases hmax : count e + count f ≤ maxPermits B
  · obtain ⟨s', hcall, hl'⟩ := call_merge hr he' hf' hne hle hlf hmax
    refine ⟨_, s', _, hcall, hl', toNat_add_count (hc e he') (hc f hf'), ?_⟩
    rw [if_pos (hsum.mp hmax)]
    exact ⟨adds_of_le (hc e he') (hsum.mp hmax), rfl, rfl⟩
  · obtain ⟨a, b, hab⟩ := List.append_of_mem he'
    have hmerge := merge_spec (hab ▸ hr) (mem_of_ne_middle (hab ▸ hf') hne)
    rw [if_pos (BitVec.not_le.mp hmax)] at hmerge
    obtain ⟨q, hq, hr'⟩ := hmerge
    -- the other permit is dropped on the way out
    have hv : View (⟨q, s.inner.total, s.inner.available⟩ : SemaphoreInner B Q) p :=
      ⟨hab ▸ hr', hs.view.total, hs.view.available, hs.view.wf, hs.view.conserved⟩
    obtain ⟨r, s', l', hd, hl', hel, hcases⟩ := hv.dropPermit_keeps he hf hne
    have hno := mt hsum.mpr hmax
    rcases hcases with rfl | rfl
    · refine ⟨.merged false, ⟨s', without s.owned f.handle⟩, l', ?_, hl',
        toNat_add_count (hc e he') (hc f hf'), ?_⟩
      · simp [Semaphore.call, hle, hlf, hne, hq, System.release, hd]
      · rw [if_neg hno]
        exact ⟨Or.inl rfl, hel⟩
    · refine ⟨.panicked (.overflow (count f) s.inner.available),
        ⟨s', without s.owned f.handle⟩, l', ?_, hl', toNat_add_count (hc e he') (hc f hf'), ?_⟩
      · simp [Semaphore.call, hle, hlf, hne, hq, System.release, hd]
      · rw [if_neg hno]
        exact ⟨Or.inr rfl, hel⟩

/-- The splits and merges of a permit are exact; a merge with one of another semaphore fails. -/
structure PermitExact (s : System B Q) (l : List (Queued B P)) (e : Queued B P) : Prop where
  split : ∀ n ≠ 0, SplitsExactly s l e (.split e.handle n) e.data.priority n
  splitWithPriority : ∀ n ≠ 0, ∀ priority,
    SplitsExactly s l e (.splitWithPriority e.handle n priority) priority n
  merge : ∀ f ∈ l, ⟨f.handle, .permit⟩ ∈ s.owned → e.handle ≠ f.handle → MergesExactly s l e f
  foreign : call s (.mergeForeign e.handle : Op B P) = some (.merged false, s)

theorem Holds.permitExact (hs : Holds s p) (hc : p.Counted)
    (he : e ∈ p.held ++ p.pending) (ho : ⟨e.handle, .permit⟩ ∈ s.owned) :
    PermitExact s (p.held ++ p.pending) e := by
  have hlook := hs.lookup_permit ho
  have hheld : ∀ {f : Queued B P}, f ∈ p.held ++ p.pending →
      ⟨f.handle, .permit⟩ ∈ s.owned → f ∈ p.held := by
    intro f hf hof
    obtain ⟨g, hg, hgf⟩ := List.mem_map.mp (hs.permits _ hof rfl)
    have hnd := hs.view.wf.nodup_handles
    rwa [← List.inj_on_of_nodup_map hnd (List.mem_append_left _ hg) hf hgf]
  constructor
  · intro n hn
    have hn' : n ≠ 0#B.bits := hn
    exact hs.splitsExactly hc he ho id (by simp [Semaphore.call, hlook, hn', Semaphore.split])
  · intro n hn priority
    have hn' : n ≠ 0#B.bits := hn
    exact hs.splitsExactly hc he ho (fun _ => priority)
      (by simp [Semaphore.call, hlook, hn', Semaphore.splitWithPriority])
  · exact fun f hf hof hne => hs.mergesExactly hc (hheld he ho) (hheld hf hof) ho hof hne
  · simp [Semaphore.call, hlook]

end Calls

/-- After every run of either build all counts are in range, and the splits and merges of every
permit are exact. -/
theorem counts_exact (k : QueueKind) {B : Build} {P : Type} [Priority P] (capacity : Usize B)
    (ops : List (Op B P)) :
    ∃ (s : System B (k.Queue (SemaphoreWaiter B P))) (l : List (Queued B P)),
      run (after call) (System.start (new capacity)) ops = some s ∧
      entries s.inner.queue = some l ∧ (∀ e ∈ l, count e ≤ maxPermits B) ∧
      ∀ o ∈ s.owned, o.data = .permit → ∃ e ∈ l, e.handle = o.handle ∧ PermitExact s l e := by
  have hmove : ∀ {op : Op B P} {r p p'}, True → Moves op r p p' → p.WF → p.Counted → p'.Counted :=
    fun _ hm _ hc => hm.counted hc
  have hstart : (Pool.start capacity : Pool B P).Counted := by
    simp [Pool.start, Pool.Counted, Counted]
  have hops : ∀ op ∈ ops, True := fun _ _ => trivial
  obtain ⟨s, p, hr, hs, hc⟩ :=
    run_moves (Q := k.Queue (SemaphoreWaiter B P)) capacity hstart hmove hops
  refine ⟨s, _, hr, hs.entries_eq, hc, ?_⟩
  rintro ⟨h, d⟩ ho rfl
  obtain ⟨e, he, rfl⟩ := List.mem_map.mp (hs.permits _ ho rfl)
  have he' := List.mem_append_left p.pending he
  exact ⟨e, he', rfl, hs.permitExact hc he' ho⟩

end PriorityLock.Semaphore
