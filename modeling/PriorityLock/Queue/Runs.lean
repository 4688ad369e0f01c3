import PriorityLock.Queue.Builtin
import PriorityLock.Transition.Runs

/-! # Runs of queue operations

A client keeps the handles it was given together with the data it stored, and
uses no other handle. The abstract queue is a list that operations move along;
every lawful queue simulates it, and lawful priorities keep the list descending.
-/

namespace PriorityLock

open Placement Transition

inductive QueueOp (D : Type)
  | enqueue (data : D)
  | dequeue (handle : Handle)
  | updateNode (handle : Handle) (update : D → D × Bool)
  | getByHandle (handle : Handle)
  | getNextHandle (handle : Handle)
  | iterAt (handle : Option Handle)
  | isEmpty
  | head
  | headHandle

/-- What an operation returns; references and handles are given by what they designate. -/
inductive QueueResult (D : Type)
  | handle (handle : Handle)
  | dequeued (prev : Option D) (next : Option Handle)
  | data (data : D)
  | ref (handle : Option Handle)
  | items (handles : List Handle)
  | empty (isEmpty : Bool)
  | unit
  | refused
  deriving DecidableEq, Repr

/-- A queue and the entries that its client has enqueued and not dequeued. -/
structure Client (Q D : Type) where
  queue : Q
  live : List (Entry D)

namespace Client

variable {Q D : Type}

variable [PriorityQueue Q D]

def read (c : Client Q D) {α : Type} (r : Option α) (f : α → QueueResult D) :
    Option (QueueResult D × Client Q D) :=
  r.map fun a => (f a, c)

/-- One operation; one on a handle that is not live is refused. -/
def call (c : Client Q D) : QueueOp D → Option (QueueResult D × Client Q D)
  | .enqueue d => (PriorityQueue.enqueue c.queue d).map fun (h, q) =>
      (.handle h, ⟨q, ⟨h, d⟩ :: c.live⟩)
  | .dequeue h => match lookup c.live h with
    | none => some (.refused, c)
    | some _ => (PriorityQueue.dequeue c.queue h).map fun (r, q) =>
        (.dequeued r.1 r.2, ⟨q, without c.live h⟩)
  | .updateNode h f => match lookup c.live h with
    | none => some (.refused, c)
    | some e => (PriorityQueue.updateNode c.queue h f).map fun q =>
        (.unit, ⟨q, ⟨h, (f e.data).1⟩ :: without c.live h⟩)
  | .getByHandle h => match lookup c.live h with
    | none => some (.refused, c)
    | some _ => c.read (PriorityQueue.getByHandle c.queue h) .data
  | .getNextHandle h => match lookup c.live h with
    | none => some (.refused, c)
    | some _ => c.read (PriorityQueue.getNextHandle c.queue h) .ref
  | .iterAt none => c.read (PriorityQueue.iterAt c.queue none) .items
  | .iterAt (some h) => match lookup c.live h with
    | none => some (.refused, c)
    | some _ => c.read (PriorityQueue.iterAt c.queue (some h)) .items
  | .isEmpty => c.read (PriorityQueue.isEmpty c.queue) .empty
  | .head => c.read (PriorityQueue.head c.queue) .ref
  | .headHandle => c.read (PriorityQueue.headHandle c.queue) .ref

def start (q : Q) : Client Q D := ⟨q, []⟩

end Client

/-- The live handle that an operation needs. -/
def QueueOp.target {D : Type} : QueueOp D → Option Handle
  | .dequeue h | .updateNode h _ | .getByHandle h | .getNextHandle h => some h
  | .iterAt h => h
  | _ => none

/-- The abstract queue is a list: what an operation returns and how it moves the list. -/
inductive Moves {D : Type} [Priority D] :
    QueueOp D → QueueResult D → List (Entry D) → List (Entry D) → Prop

  | enqueue {d : D} {h : Handle} {l l' : List (Entry D)} : h ∉ handles l →
      Placed Priority.compareNew ⟨h, d⟩ l l' → Moves (.enqueue d) (.handle h) l l'

  | dequeue {a b : List (Entry D)} {e : Entry D} : Moves (.dequeue e.handle)
      (.dequeued (a.getLast?.map Entry.data) (b.head?.map Entry.handle)) (a ++ e :: b) (a ++ b)

  | stay {f : D → D × Bool} {a b : List (Entry D)} {e : Entry D} : (f e.data).2 = false →
      Moves (.updateNode e.handle f) .unit (a ++ e :: b) (a ++ ⟨e.handle, (f e.data).1⟩ :: b)

  | settle {f : D → D × Bool} {a b l' : List (Entry D)} {e : Entry D} : (f e.data).2 = true →
      Settled Priority.compare Priority.compareNew ⟨e.handle, (f e.data).1⟩ (a ++ b) l' →
      Moves (.updateNode e.handle f) .unit (a ++ e :: b) l'

  | getByHandle {l : List (Entry D)} {e : Entry D} : e ∈ l →
      Moves (.getByHandle e.handle) (.data e.data) l l

  | getNextHandle {a b : List (Entry D)} {e : Entry D} :
      Moves (.getNextHandle e.handle) (.ref (b.head?.map Entry.handle)) (a ++ e :: b) (a ++ e :: b)

  | iter {l : List (Entry D)} : Moves (.iterAt none) (.items (handles l)) l l

  | iterAt {a b : List (Entry D)} {e : Entry D} :
      Moves (.iterAt (some e.handle)) (.items (handles (e :: b))) (a ++ e :: b) (a ++ e :: b)

  | isEmpty {l : List (Entry D)} : Moves .isEmpty (.empty l.isEmpty) l l

  | head {l : List (Entry D)} : Moves .head (.ref (l.head?.map Entry.handle)) l l

  | headHandle {l : List (Entry D)} : Moves .headHandle (.ref (l.head?.map Entry.handle)) l l

  | refused {op : QueueOp D} {h : Handle} {l : List (Entry D)} : op.target = some h →
      h ∉ handles l → Moves op .refused l l

section Simulation

variable {Q D : Type} [Priority D] [PriorityQueue Q D] [LawfulQueue Q D]
  {c c' : Client Q D} {l : List (Entry D)} {e : Entry D} {h : Handle}

/-- The queue holds the client's entries, in the order `l`. -/
structure Holds (c : Client Q D) (l : List (Entry D)) : Prop where
  rep : LawfulQueue.Rep c.queue l
  perm : l.Perm c.live

theorem Holds.start : Holds (Client.start (PriorityQueue.default : Q)) ([] : List (Entry D)) :=
  ⟨LawfulQueue.rep_default, .nil⟩

theorem Holds.split (hc : Holds c l) (hf : lookup c.live h = some e) :
    ∃ a b, l = a ++ e :: b ∧ e.handle = h :=
  have hm := mem_of_lookup hf
  have ⟨a, b, hl⟩ := List.append_of_mem (hc.perm.mem_iff.mpr hm.1)
  ⟨a, b, hl, hm.2⟩

theorem Holds.without_perm {a b : List (Entry D)} (hc : Holds c (a ++ e :: b)) :
    (a ++ b).Perm (without c.live e.handle) := by
  rw [← without_middle (LawfulQueue.nodup hc.rep)]
  exact hc.perm.filter _

theorem Holds.not_mem (hc : Holds c l) (hf : lookup c.live h = none) : h ∉ handles l := fun hm =>
  not_mem_of_lookup hf ((hc.perm.map Entry.handle).mem_iff.mp hm)

/-- A lawful queue simulates the abstract one, operation by operation. -/
theorem Holds.call (hc : Holds c l) (op : QueueOp D) : ∃ r c' l',
    c.call op = some (r, c') ∧ Holds c' l' ∧ Moves op r l l' := by
  cases op with
  | enqueue d =>
    obtain ⟨h, q, l', hq, hr, hh, hp⟩ := LawfulQueue.enqueue_spec d hc.rep
    have hc' : Holds ⟨q, ⟨h, d⟩ :: c.live⟩ l' := ⟨hr, hp.perm.trans (hc.perm.cons _)⟩
    exact ⟨.handle h, _, l', by simp [Client.call, hq], hc', .enqueue hh hp⟩
  | dequeue h =>
    cases hf : lookup c.live h with
    | none => exact ⟨.refused, c, l, by simp [Client.call, hf], hc, .refused rfl (hc.not_mem hf)⟩
    | some e =>
      obtain ⟨a, b, rfl, rfl⟩ := hc.split hf
      obtain ⟨q, hq, hr⟩ := LawfulQueue.dequeue_spec hc.rep
      have hc' : Holds ⟨q, without c.live e.handle⟩ (a ++ b) := ⟨hr, hc.without_perm⟩
      exact ⟨_, _, _, by simp only [Client.call, hf, hq, Option.map_some], hc', .dequeue⟩
  | updateNode h f =>
    cases hf : lookup c.live h with
    | none => exact ⟨.refused, c, l, by simp [Client.call, hf], hc, .refused rfl (hc.not_mem hf)⟩
    | some e =>
      obtain ⟨a, b, rfl, rfl⟩ := hc.split hf
      have hperm := hc.without_perm.cons ⟨e.handle, (f e.data).1⟩
      cases hm : (f e.data).2 with
      | false =>
        obtain ⟨q, hq, hr⟩ := LawfulQueue.updateNode_stay f hc.rep hm
        have hc' : Holds ⟨q, ⟨e.handle, (f e.data).1⟩ :: without c.live e.handle⟩
            (a ++ ⟨e.handle, (f e.data).1⟩ :: b) := ⟨hr, List.perm_middle.trans hperm⟩
        exact ⟨.unit, _, _, by simp [Client.call, hf, hq], hc', .stay hm⟩
      | true =>
        obtain ⟨q, l', hq, hr, hs⟩ := LawfulQueue.updateNode_settle f hc.rep hm
        have hc' : Holds ⟨q, ⟨e.handle, (f e.data).1⟩ :: without c.live e.handle⟩ l' :=
          ⟨hr, hs.perm.trans hperm⟩
        exact ⟨.unit, _, l', by simp [Client.call, hf, hq], hc', .settle hm hs⟩
  | getByHandle h =>
    cases hf : lookup c.live h with
    | none => exact ⟨.refused, c, l, by simp [Client.call, hf], hc, .refused rfl (hc.not_mem hf)⟩
    | some e =>
      obtain ⟨a, b, rfl, rfl⟩ := hc.split hf
      have hr := LawfulQueue.getByHandle_spec hc.rep (e := e) (by simp)
      exact ⟨.data e.data, c, _, by simp [Client.call, hf, hr, Client.read], hc,
        .getByHandle (by simp)⟩
  | getNextHandle h =>
    cases hf : lookup c.live h with
    | none => exact ⟨.refused, c, l, by simp [Client.call, hf], hc, .refused rfl (hc.not_mem hf)⟩
    | some e =>
      obtain ⟨a, b, rfl, rfl⟩ := hc.split hf
      have hr := LawfulQueue.getNextHandle_spec hc.rep
      exact ⟨_, c, _, by simp [Client.call, hf, hr, Client.read], hc, .getNextHandle⟩
  | iterAt h =>
    cases h with
    | none =>
      have hr := LawfulQueue.iterAt_none hc.rep
      exact ⟨.items (handles l), c, l, by simp only [Client.call, hr]; rfl, hc, .iter⟩
    | some h =>
      cases hf : lookup c.live h with
      | none => exact ⟨.refused, c, l, by simp [Client.call, hf], hc, .refused rfl (hc.not_mem hf)⟩
      | some e =>
        obtain ⟨a, b, rfl, rfl⟩ := hc.split hf
        have hr := LawfulQueue.iterAt_some hc.rep
        exact ⟨.items _, c, _, by simp only [Client.call, hf, hr]; rfl, hc, .iterAt⟩
  | isEmpty =>
    have hr := LawfulQueue.isEmpty_spec hc.rep
    exact ⟨_, c, l, by simp [Client.call, hr, Client.read], hc, .isEmpty⟩
  | head =>
    have hr := LawfulQueue.head_spec hc.rep
    exact ⟨_, c, l, by simp [Client.call, hr, Client.read], hc, .head⟩
  | headHandle =>
    have hr := LawfulQueue.headHandle_spec hc.rep
    exact ⟨_, c, l, by simp [Client.call, hr, Client.read], hc, .headHandle⟩

end Simulation

/-- Priorities change only inside an update whose closure returns `true`. -/
def QueueOp.KeepsPriority {D : Type} [Priority D] : QueueOp D → Prop
  | .updateNode _ f => ∀ d, (f d).2 = false → Priority.compare (f d).1 d = .eq
  | _ => True

section Order

variable {D : Type} [Priority D] [LawfulPriority D] {op : QueueOp D} {l l' : List (Entry D)}

/-- Every operation keeps the abstract queue descending. -/
theorem Moves.descending {r : QueueResult D} (h : Moves op r l l') (hop : op.KeepsPriority)
    (hd : Descending Priority.compare l) : Descending Priority.compare l' := by
  cases h with
  | enqueue hh hp => exact hp.descending (LawfulPriority.agree_entry _ _) hd
  | dequeue => exact hd.erase
  | stay hf => exact hd.replace (hop _ hf)
  | settle hf hs => exact hs.descending (LawfulPriority.agree_entry _ _) hd.erase
  | _ => exact hd

end Order

end PriorityLock
