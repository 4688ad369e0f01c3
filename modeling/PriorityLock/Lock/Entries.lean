import PriorityLock.Lock.Basic
import PriorityLock.Queue.Basic

/-! # Entries as requests

A queue entry and what its caller owns are together a request for the lock. The
calls that take an entry out, or change what its caller owns, are then those of
the lock.
-/

namespace PriorityLock.FairLock

variable {D O P : Type}

/-- How entries, and what their callers own, are read. -/
structure Reading (D O P : Type) where
  priority : D → P
  evict : D → Bool
  guard : O → Bool

namespace Reading

def request (R : Reading D O P) (owned : List (Entry O)) (e : Entry D) : Request Handle P :=
  ⟨e.handle, R.priority e.data, R.evict e.data, (lookup owned e.handle).any (R.guard ·.data)⟩

def requests (R : Reading D O P) (owned : List (Entry O)) (l : List (Entry D)) :
    List (Request Handle P) :=
  l.map (R.request owned)

variable {R : Reading D O P} {owned : List (Entry O)} {e : Entry D} {a b l l' : List (Entry D)}
  {h : Handle} {o : O}

@[simp] theorem requests_cons :
    R.requests owned (e :: l) = R.request owned e :: R.requests owned l := rfl

@[simp] theorem clients_requests : (R.requests owned l).map Request.client = handles l := by
  rw [requests, List.map_map]
  rfl

/-- The request of an entry is found by its handle. -/
theorem find_requests (R : Reading D O P) (owned : List (Entry O)) (hn : (handles l).Nodup)
    (he : e ∈ l) :
    (R.requests owned l).find? (·.client = e.handle) = some (R.request owned e) := by
  rw [requests, List.find?_map]
  exact congrArg (Option.map (R.request owned)) (lookup_of_mem hn he)

/-- What others own does not matter. -/
theorem requests_congr {owned' : List (Entry O)}
    (h : ∀ e ∈ l, lookup owned' e.handle = lookup owned e.handle) :
    R.requests owned' l = R.requests owned l := by
  apply List.map_congr_left
  intro e he
  rw [request, request, h e he]

theorem request_concat (hh : e.handle ≠ h) :
    R.request (owned ++ [⟨h, o⟩]) e = R.request owned e := by
  have hne : ¬h = e.handle := hh.symm
  simp [request, lookup, List.find?_append, hne]

theorem requests_concat (hh : h ∉ handles l) :
    R.requests (owned ++ [⟨h, o⟩]) l = R.requests owned l := by
  apply List.map_congr_left
  intro e he
  apply request_concat
  rintro rfl
  exact hh (mem_handles he)

theorem requests_without :
    R.requests (without owned h) (without l h) = leave h (R.requests owned l) := by
  have hc : R.requests (without owned h) (without l h) = R.requests owned (without l h) :=
    requests_congr fun e he => lookup_without (mem_without.mp he).2
  rw [hc, requests, requests, leave, List.filter_map]
  rfl

theorem requests_relabel (hh : h ∈ handles owned) (ho : R.guard o = true) :
    R.requests (relabel owned h o) l = take h (R.requests owned l) := by
  rw [requests, requests, take, List.map_map]
  apply List.map_congr_left
  intro e he
  by_cases heq : e.handle = h
  · have hl : lookup (relabel owned h o) h = some ⟨h, o⟩ := lookup_relabel_self hh
    simp [request, heq, hl, ho]
  · simp [request, heq, lookup_relabel heq]

theorem requests_placed [Priority D] [Priority P] [Decisive P] {x : Entry D}
    (hp : Placement.Placed Priority.compareNew x l l')
    (hcn : ∀ e ∈ l, Priority.compareNew x e =
      Priority.compareNew (R.priority x.data) (R.priority e.data))
    (hd : l.Pairwise fun e f => (Priority.compare (R.priority e.data) (R.priority f.data)).isGE)
    (ho : x.handle ∉ handles owned) (hl : x.handle ∉ handles l) :
    R.requests (owned ++ [⟨x.handle, o⟩]) l' =
      place ⟨x.handle, R.priority x.data, R.evict x.data, R.guard o⟩ (R.requests owned l) := by
  have hne : ∀ e ∈ l, Priority.compareNew x e ≠ .eq := by
    intro e he
    rw [hcn e he]
    exact Decisive.ne_eq _ _
  have hgt : l.Pairwise fun e f =>
      Priority.compareNew x e = .gt → Priority.compareNew x f = .gt := by
    refine List.Pairwise.imp_of_mem ?_ hd
    intro e f he hf hge
    rw [hcn e he, hcn f hf]
    exact fun hc => Decisive.gt_trans _ _ _ hc hge
  have hx : R.request (owned ++ [⟨x.handle, o⟩]) x =
      ⟨x.handle, R.priority x.data, R.evict x.data, R.guard o⟩ := by
    simp [request, lookup_concat ho]
  have hscan : R.requests (owned ++ [⟨x.handle, o⟩]) l' = Placement.scan Request.compareNew
      (R.request (owned ++ [⟨x.handle, o⟩]) x) (R.requests (owned ++ [⟨x.handle, o⟩]) l) :=
    hp.map_eq_scan hcn hne hgt
  rw [hx] at hscan
  rw [place, ← requests_concat hl]
  exact hscan

variable {evict : Bool}

theorem poll_first (hg : (R.request owned e).guard = false) :
    act e.handle (R.requests owned (e :: l)) evict .poll =
      (.acquired, take e.handle (R.requests owned (e :: l))) := by
  have hf : (R.requests owned (e :: l)).find? (·.client = e.handle) = some (R.request owned e) :=
    List.find?_cons_of_pos (decide_eq_true rfl)
  have hh : (R.request owned e).client = e.handle := rfl
  unfold act
  rw [hf]
  simp [hg, hh]

theorem poll_behind {f : Entry D} (hn : (handles (f :: l)).Nodup) (he : e ∈ l)
    (hg : (R.request owned e).guard = false) :
    act e.handle (R.requests owned (f :: l)) evict .poll =
      (.pending, R.requests owned (f :: l)) := by
  have hh : (R.request owned f).client ≠ e.handle := by
    intro heq
    have hm : f.handle ∈ handles l := List.mem_map.mpr ⟨e, he, heq.symm⟩
    exact (List.nodup_cons.mp hn).1 hm
  unfold act
  rw [find_requests R owned hn (List.mem_cons_of_mem f he)]
  simp [hg, hh]

end Reading

end PriorityLock.FairLock
