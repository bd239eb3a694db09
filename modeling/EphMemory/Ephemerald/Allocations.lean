import EphMemory.Ephemerald.Requests

/-!
# Ephemerald — a client's allocations

A client's set compares allocations by offset and keeps the old one of two that
compare equal, so an allocation is lost when a response reuses an offset the
client still has on its books: the reply counts it, the set does not hold it.

* `FreshOffset` — a response's offset is new to the client it is for;
* `SetInv` — with that, what was counted is pending or in the set;
* `allocations_kept` — what a reply counted is in the set.
-/

namespace EphMemory.Ephemerald

open EphMemory.Lib

/-- No allocation of the client, in its set or counted for its pending request,
has the offset of the response's. -/
def FreshOffset (s : System) : Op → Prop
  | .respond k _ _ (some a) =>
    (s.shared.client k).allocations.get? a.offset = none ∧
      ∀ b ∈ ((s.shared.client k).pendingRequest.map PendingRequest.allocations).getD [],
        b.offset ≠ a.offset
  | _ => True

instance (s : System) (op : Op) : Decidable (FreshOffset s op) := by
  unfold FreshOffset
  split <;> infer_instance

/-- The allocations counted for a pending request will all fit in the set. -/
structure PendingRequest.Fresh (m : OrdMap Nat EphAllocation) (p : PendingRequest) : Prop where
  distinct : (p.allocations.map EphAllocation.offset).Nodup
  free : ∀ a ∈ p.allocations, m.get? a.offset = none

/-- What was counted for a request is pending or in the client's set. -/
def ClientMutState.Holds (c : ClientMutState) (id : Nat) (a : EphAllocation) : Prop :=
  (∃ p, c.pendingRequest = some p ∧ p.id = id ∧ a ∈ p.allocations) ∨
    c.allocations.get? a.offset = some a

structure SetInv (s : System) : Prop where
  fresh : ∀ k p, (s.shared.client k).pendingRequest = some p →
    p.Fresh (s.shared.client k).allocations
  counted : ∀ k id a, Output.counted k id a ∈ s.shared.log → (s.shared.client k).Holds id a

/-- Counting an allocation at a new offset leaves all offsets different. -/
theorem PendingRequest.Fresh.count {m : OrdMap Nat EphAllocation} {p p' : PendingRequest}
    {a : Option EphAllocation} (h : p.Fresh m) (hCount : p.count a = .ok p')
    (hNew : ∀ b, a = some b → m.get? b.offset = none ∧ ∀ c ∈ p.allocations, c.offset ≠ b.offset) :
    p'.Fresh m := by
  cases a with
  | none =>
    rw [PendingRequest.count_none hCount]
    exact h
  | some b =>
    obtain ⟨-, rfl⟩ := PendingRequest.count_some hCount
    obtain ⟨hFree, hDistinct⟩ := hNew b rfl
    refine ⟨?_, fun c hc => ?_⟩
    · rw [List.map_append, List.map_singleton, List.nodup_append]
      refine ⟨h.distinct, List.nodup_singleton _, fun o ho o' ho' => ?_⟩
      obtain ⟨c, hc, rfl⟩ := List.mem_map.mp ho
      rw [List.mem_singleton.mp ho']
      exact hDistinct c hc
    · rcases List.mem_append.mp hc with hc | hc
      · exact h.free c hc
      · rw [List.mem_singleton.mp hc]
        exact hFree

/-- What `FreshOffset` says of the response to a pending request. -/
theorem FreshOffset.new {s : System} {k : ConnId} {id : Nat} {more : Bool}
    {a : Option EphAllocation} {p : PendingRequest} (h : FreshOffset s (.respond k id more a))
    (hp : (s.shared.client k).pendingRequest = some p) :
    ∀ b, a = some b → (s.shared.client k).allocations.get? b.offset = none ∧
      ∀ c ∈ p.allocations, c.offset ≠ b.offset := by
  rintro b rfl
  obtain ⟨hSet, hPending⟩ := h
  rw [hp] at hPending
  exact ⟨hSet, hPending⟩

/-- The offsets of a pending request are not among those of its client. -/
theorem SetInv.fresh_move {s s' : System} {op : Op} (h : SetInv s) (hm : daemon.Move s op s')
    (ha : FreshOffset s op) (k : ConnId) (p : PendingRequest)
    (hp : (s'.shared.client k).pendingRequest = some p) :
    p.Fresh (s'.shared.client k).allocations := by
  have hShared : s'.shared = op.exec s.shared := hm.shared_eq
  rw [hShared] at hp ⊢
  have hChange := clientChange_exec op s.shared k
  generalize (op.exec s.shared).client k = c at hChange hp ⊢
  cases hChange with
  | same _ _ => exact h.fresh k p hp
  | fresh _ => cases hp
  | recorded _ =>
    cases hp
    exact ⟨List.nodup_nil, nofun⟩
  | responded hSend =>
    obtain ⟨q, q', hq, -, hCount, ⟨rfl, rfl, -⟩ | ⟨-, rfl, -⟩⟩ :=
      ClientMutState.sendEphMemResponse_ok hSend
    · cases hp
      exact (h.fresh k q hq).count hCount (ha.new hq)
    · cases hp

/-- What a client holds it still holds after any operation. -/
theorem SetInv.holds_exec {s : System} {op : Op} (h : SetInv s) (hList : ListInv s)
    (ha : FreshOffset s op) {k : ConnId} {id : Nat} {a : EphAllocation}
    (hHolds : (s.shared.client k).Holds id a) :
    ((op.exec s.shared).client k).Holds id a := by
  have hChange := clientChange_exec op s.shared k
  generalize (op.exec s.shared).client k = c at hChange ⊢
  cases hChange with
  | same _ _ => exact hHolds
  | fresh hk =>
    rw [hList.unborn k (Nat.le_of_eq hk.symm)] at hHolds
    exact hHolds
  | recorded hNone =>
    refine Or.inr ?_
    rcases hHolds with ⟨p, hp, -⟩ | hSet
    · rw [hNone] at hp
      cases hp
    · exact hSet
  | responded hSend =>
    obtain ⟨q, q', hq, -, hCount, hAfter⟩ := ClientMutState.sendEphMemResponse_ok hSend
    have hFresh := (h.fresh k q hq).count hCount (ha.new hq)
    rcases hAfter with ⟨rfl, rfl, -⟩ | ⟨-, rfl, -⟩
    · rcases hHolds with ⟨p, hp, hId, hMem⟩ | hSet
      · cases hq.symm.trans hp
        exact Or.inl ⟨q', rfl, (PendingRequest.count_id hCount).1.trans hId,
          PendingRequest.count_mem hCount hMem⟩
      · exact Or.inr hSet
    · refine Or.inr ?_
      rcases hHolds with ⟨p, hp, -, hMem⟩ | hSet
      · cases hq.symm.trans hp
        exact get?_extendAllocations_of_mem hFresh.distinct hFresh.free
          (PendingRequest.count_mem hCount hMem)
      · exact get?_extendAllocations_of_some hSet _

/-- What a response counts, the client holds. -/
theorem SetInv.holds_counted {s : System} (h : SetInv s) {k : ConnId} {id : Nat} {more : Bool}
    {a : EphAllocation} {p p' : PendingRequest} (ha : FreshOffset s (.respond k id more (some a)))
    (hp : (s.shared.client k).pendingRequest = some p) (hId : p.id = id)
    (hCount : p.count (some a) = .ok p') :
    (((Op.respond k id more (some a)).exec s.shared).client k).Holds id a := by
  have hFresh := (h.fresh k p hp).count hCount (ha.new hp)
  have hMem : a ∈ p'.allocations := by
    obtain ⟨-, rfl⟩ := PendingRequest.count_some hCount
    exact List.mem_append_right _ (List.mem_singleton_self a)
  have hSend : (s.shared.client k).sendEphMemResponse id more (some a) = _ :=
    ClientMutState.sendEphMemResponse_of_count hp hId hCount
  cases more with
  | true =>
    rw [client_exec_respond hSend]
    exact Or.inl ⟨p', rfl, (PendingRequest.count_id hCount).1.trans hId, hMem⟩
  | false =>
    rw [client_exec_respond hSend]
    exact Or.inr (get?_extendAllocations_of_mem hFresh.distinct hFresh.free hMem)

/-- What was counted is pending or in the client's set, whoever moves. -/
theorem SetInv.move {s s' : System} {op : Op} (h : SetInv s) (hList : ListInv s)
    (hm : daemon.Move s op s') (ha : FreshOffset s op) : SetInv s' := by
  refine ⟨h.fresh_move hm ha, fun k id a hc => ?_⟩
  have hShared : s'.shared = op.exec s.shared := hm.shared_eq
  rw [hShared] at hc ⊢
  rcases mem_log_exec hc with hEmit | hOld
  · cases hEmit with
    | counted hp hId hCount => exact h.holds_counted ha hp hId hCount
  · exact h.holds_exec hList ha (h.counted k id a hOld)

/-- In every state of such a run no allocation is lost. -/
theorem setInv_of_reachable {s : System} (h : ReachableBy FreshOffset s) : SetInv s := by
  have hBoth : RequestInv s ∧ SetInv s := by
    refine h.invariant (I := fun s => RequestInv s ∧ SetInv s)
      (fun _ _ _ hI hm ha => ⟨hI.1.move hm, hI.2.move hI.1.list hm ha⟩)
      ⟨requestInv_init, fun k p hp => ?_, nofun⟩
    cases hp
  exact hBoth.2

/-- **No reported allocation is lost.** In every run in which every response's
offset is new to its client, every allocation a reply counted is in the
client's set, with its device, and so is every one counted for the request. -/
theorem allocations_kept {s : System} (h : ReachableBy FreshOffset s) {k : ConnId}
    {id size : Nat} {ok : Bool} (hRep : Output.replied k id size ok ∈ s.shared.log) :
    (∃ l, size = totalSize l ∧ ∀ a ∈ l,
      Output.counted k id a ∈ s.shared.log ∧
        (s.shared.client k).allocations.get? a.offset = some a) ∧
    ∀ a, Output.counted k id a ∈ s.shared.log →
      (s.shared.client k).allocations.get? a.offset = some a := by
  have hReq := requestInv_of_reachable h
  obtain ⟨l, hFin⟩ := hReq.record.replied k id size ok hRep
  have hAns := hReq.record.finished k id size l hFin
  have hDone : ¬ s.shared.Pending k id := hReq.not_pending_of_finished hFin
  have hKept : ∀ a, Output.counted k id a ∈ s.shared.log →
      (s.shared.client k).allocations.get? a.offset = some a := by
    intro a hc
    rcases (setInv_of_reachable h).counted k id a hc with ⟨p, hp, hId, -⟩ | hSet
    · exact absurd ⟨p, hp, hId⟩ hDone
    · exact hSet
  exact ⟨⟨l, hAns.received, fun a ha => ⟨hAns.counted a ha, hKept a (hAns.counted a ha)⟩⟩, hKept⟩

/-- Two requests of one client, answered with one chunk each. -/
def twoRequests (offset offset' : Nat) : List (Label Op Choice) :=
  connect ++ askAndAnswer 2 0 offset ++ askAndAnswer 2 1 offset'

theorem twoRequests_fresh : (daemon.runIf (fun s op => decide (FreshOffset s op)) initSystem
    (twoRequests 0 granularity)).isSome = true := by decide +kernel

theorem allocations_kept_two :
    Output.replied 2 1 granularity true ∈ (daemonAfter (twoRequests 0 granularity)).shared.log ∧
    ∀ a, Output.counted 2 1 a ∈ (daemonAfter (twoRequests 0 granularity)).shared.log →
      ((daemonAfter (twoRequests 0 granularity)).shared.client 2).allocations.get? a.offset =
        some a := by
  have hRep : Output.replied 2 1 granularity true ∈
      (daemonAfter (twoRequests 0 granularity)).shared.log := by decide +kernel
  exact ⟨hRep, (allocations_kept (reachableBy_daemonAfter twoRequests_fresh) hRep).2⟩

/-- The second response reuses the first one's offset: the reply counts the
allocation with device 1, the set still holds the one with device 0. -/
theorem reused_offset_lost :
    Reachable (daemonAfter (twoRequests 0 0)) ∧
    Output.replied 2 1 granularity true ∈ (daemonAfter (twoRequests 0 0)).shared.log ∧
    Output.finished 2 1 granularity [⟨0, granularity, ⟨1, granularity⟩⟩] ∈
      (daemonAfter (twoRequests 0 0)).shared.log ∧
    ((daemonAfter (twoRequests 0 0)).shared.client 2).allocations.get? 0 =
      some ⟨0, granularity, ⟨0, granularity⟩⟩ := by
  refine ⟨reachable_daemonAfter (by decide +kernel), by decide +kernel, by decide +kernel,
    by decide +kernel⟩

end EphMemory.Ephemerald
