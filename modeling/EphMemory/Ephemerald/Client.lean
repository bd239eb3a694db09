import EphMemory.Lib.OrdMap
import EphMemory.Lib.Pool
import EphMemory.Proto

/-!
# Ephemerald — clients

The record `ephemerald` keeps for a client application and the two sections
that change it under its lock:

* `ClientMutState.record` — `handle_eph_mem_request` accepts a request unless
  one is pending;
* `ClientMutState.sendEphMemResponse` — `send_eph_mem_response` counts an
  allocation against the pending request and, on the last response, moves what
  was counted to the client's set and answers.

`EphAllocation` is ordered and compared by its offset alone, so the
`BTreeSet` of a client's allocations is a map from offsets. Inserting an
element that compares equal to one already in a `BTreeSet` leaves the old
element in place (`extend` inserts one element after the other).
-/

namespace EphMemory.Ephemerald

open EphMemory.Lib

abbrev Pid := Nat
abbrev ConnId := Nat

/-- A DAX device, as `daxctl create-device` made it. -/
structure DaxDevice where
  deviceId : Nat
  size : Nat
  deriving DecidableEq, Repr

structure EphAllocation where
  offset : Nat
  size : Nat
  daxDevice : DaxDevice
  deriving DecidableEq, Repr

structure PendingRequest where
  id : Nat
  requested : Nat
  received : Nat
  allocations : List EphAllocation
  deriving DecidableEq, Repr

structure ClientMutState where
  allocations : OrdMap Nat EphAllocation
  pendingRequest : Option PendingRequest

/-- The errors of the two sections. -/
inductive Refusal where
  | noPendingRequest
  | idMismatch (pending response : Nat)
  | exceedsOutstanding (size remaining id requested : Nat)
  | alreadyPending
  deriving DecidableEq, Repr

-- ---------------------------------------------------------------------------
-- The set of allocations
-- ---------------------------------------------------------------------------

/-- `BTreeSet::insert`: an equal element stays. -/
def insertAllocation (m : OrdMap Nat EphAllocation) (a : EphAllocation) :
    OrdMap Nat EphAllocation :=
  if m.contains a.offset then m else m.insert a.offset a

/-- `BTreeSet::extend`. -/
def extendAllocations (m : OrdMap Nat EphAllocation) (l : List EphAllocation) :
    OrdMap Nat EphAllocation :=
  l.foldl insertAllocation m

/-- An allocation that is there already at the offset stays, as
`BTreeSet::extend` has it. -/
theorem get?_insertAllocation (m : OrdMap Nat EphAllocation) (a : EphAllocation) (o : Nat) :
    (insertAllocation m a).get? o = (m.get? o).or (if a.offset = o then some a else none) := by
  unfold insertAllocation
  by_cases hIn : m.contains a.offset = true
  · rw [if_pos hIn]
    obtain ⟨b, hb⟩ := OrdMap.contains_iff.mp hIn
    by_cases ho : a.offset = o
    · rw [← ho, hb]
      rfl
    · rw [if_neg ho, Option.or_none]
  · rw [if_neg hIn, OrdMap.get?_insert]
    have hNone : m.get? a.offset = none := by
      rw [OrdMap.contains, Bool.not_eq_true, Option.isSome_eq_false_iff, Option.isNone_iff_eq_none]
        at hIn
      exact hIn
    by_cases ho : a.offset = o
    · rw [if_pos ho.symm, if_pos ho, ← ho, hNone]
      rfl
    · rw [if_neg (Ne.symm ho), if_neg ho, Option.or_none]

/-- What is in the set stays in it. -/
theorem get?_extendAllocations_of_some {m : OrdMap Nat EphAllocation} {o : Nat}
    {a : EphAllocation} (h : m.get? o = some a) (l : List EphAllocation) :
    (extendAllocations m l).get? o = some a := by
  induction l generalizing m with
  | nil => exact h
  | cons b rest ih =>
    refine ih ?_
    rw [get?_insertAllocation, h]
    rfl

/-- What has an offset of its own is in the set afterwards. -/
theorem get?_extendAllocations_of_mem {m : OrdMap Nat EphAllocation} {l : List EphAllocation}
    (hDistinct : (l.map EphAllocation.offset).Nodup) (hFree : ∀ a ∈ l, m.get? a.offset = none)
    {a : EphAllocation} (ha : a ∈ l) : (extendAllocations m l).get? a.offset = some a := by
  induction l generalizing m with
  | nil => cases ha
  | cons b rest ih =>
    rw [List.map_cons, List.nodup_cons] at hDistinct
    obtain ⟨hb, hRest⟩ := hDistinct
    show (extendAllocations (insertAllocation m b) rest).get? a.offset = some a
    rcases List.mem_cons.mp ha with rfl | ha
    · refine get?_extendAllocations_of_some ?_ rest
      rw [get?_insertAllocation, hFree a (List.mem_cons_self ..), if_pos rfl]
      rfl
    · refine ih hRest (fun c hc => ?_) ha
      have hne : b.offset ≠ c.offset := fun heq =>
        hb (heq ▸ List.mem_map_of_mem (f := EphAllocation.offset) hc)
      rw [get?_insertAllocation, hFree c (List.mem_cons_of_mem _ hc), if_neg hne]
      rfl

-- ---------------------------------------------------------------------------
-- Requests and responses
-- ---------------------------------------------------------------------------

/-- The bytes of a list of allocations. -/
def totalSize (l : List EphAllocation) : Nat := (l.map EphAllocation.size).sum

/-- Keep track of an allocation received for a request. -/
def PendingRequest.count (p : PendingRequest) :
    Option EphAllocation → Except Refusal PendingRequest
  | none => .ok p
  | some a =>
    if a.size > p.requested - p.received then
      .error (.exceedsOutstanding a.size (p.requested - p.received) p.id p.requested)
    else .ok { p with received := p.received + a.size, allocations := p.allocations ++ [a] }

namespace ClientMutState

def new : ClientMutState := ⟨.empty, none⟩

/-- The part of `handle_eph_mem_request` under the client's lock. -/
def record (c : ClientMutState) (id amount : Nat) : Except Refusal ClientMutState :=
  match c.pendingRequest with
  | some _ => .error .alreadyPending
  | none => .ok { c with pendingRequest := some ⟨id, amount, 0, []⟩ }

/-- The part of `send_eph_mem_response` under the client's lock: the state
after it and the size to answer with, none while more responses follow. -/
def sendEphMemResponse (c : ClientMutState) (id : Nat) (more : Bool)
    (allocation : Option EphAllocation) : Except Refusal (ClientMutState × Option Nat) :=
  match c.pendingRequest with
  | none => .error .noPendingRequest
  | some p =>
    if p.id ≠ id then .error (.idMismatch p.id id)
    else
      match p.count allocation with
      | .error e => .error e
      | .ok p =>
        if more then .ok ({ c with pendingRequest := some p }, none)
        else .ok (⟨extendAllocations c.allocations p.allocations, none⟩, some p.received)

/-- The client's pending request, if it is the one with this id. -/
def pendingWith (c : ClientMutState) (id : Nat) : Option PendingRequest :=
  c.pendingRequest.filter fun p => decide (p.id = id)

/-- A pending request is found by its own number. -/
theorem pendingWith_eq_some {c : ClientMutState} {id : Nat} {p : PendingRequest} :
    c.pendingWith id = some p ↔ c.pendingRequest = some p ∧ p.id = id := by
  simp [pendingWith, Option.filter_eq_some_iff]

/-- What `send_eph_mem_response` does when it does not fail. -/
theorem sendEphMemResponse_ok {c c' : ClientMutState} {id : Nat} {more : Bool}
    {allocation : Option EphAllocation} {answer : Option Nat}
    (h : c.sendEphMemResponse id more allocation = .ok (c', answer)) :
    ∃ p p', c.pendingRequest = some p ∧ p.id = id ∧ p.count allocation = .ok p' ∧
      ((more = true ∧ c' = { c with pendingRequest := some p' } ∧ answer = none) ∨
        (more = false ∧ c' = ⟨extendAllocations c.allocations p'.allocations, none⟩ ∧
          answer = some p'.received)) := by
  unfold sendEphMemResponse at h
  split at h
  · cases h
  · rename_i p hp
    split at h
    · cases h
    · rename_i hId
      rw [not_not] at hId
      split at h
      · cases h
      · rename_i p' hCount
        refine ⟨p, p', hp, hId, hCount, ?_⟩
        cases more with
        | true =>
          cases h
          exact Or.inl ⟨rfl, rfl, rfl⟩
        | false =>
          cases h
          exact Or.inr ⟨rfl, rfl, rfl⟩

end ClientMutState

/-- Counting leaves the number and the size asked for. -/
theorem PendingRequest.count_id {p p' : PendingRequest} {allocation : Option EphAllocation}
    (h : p.count allocation = .ok p') : p'.id = p.id ∧ p'.requested = p.requested := by
  unfold count at h
  split at h
  · cases h
    exact ⟨rfl, rfl⟩
  · split at h <;> cases h
    exact ⟨rfl, rfl⟩

/-- What is counted fits into what is missing. -/
theorem PendingRequest.count_some {p p' : PendingRequest} {a : EphAllocation}
    (h : p.count (some a) = .ok p') :
    a.size ≤ p.requested - p.received ∧
      p' = { p with received := p.received + a.size, allocations := p.allocations ++ [a] } := by
  simp only [count] at h
  split at h
  · cases h
  · rename_i hLe
    cases h
    exact ⟨Nat.le_of_not_lt hLe, rfl⟩

/-- What was counted stays counted. -/
theorem PendingRequest.count_mem {p p' : PendingRequest} {allocation : Option EphAllocation}
    {a : EphAllocation} (h : p.count allocation = .ok p') (ha : a ∈ p.allocations) :
    a ∈ p'.allocations := by
  cases allocation with
  | none =>
    cases h
    exact ha
  | some b =>
    obtain ⟨-, rfl⟩ := PendingRequest.count_some h
    exact List.mem_append_left _ ha

/-- A response without an allocation counts nothing. -/
theorem PendingRequest.count_none {p p' : PendingRequest} (h : p.count none = .ok p') :
    p' = p := by
  cases h
  rfl

end EphMemory.Ephemerald
