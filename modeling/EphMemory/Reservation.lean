import EphMemory.Ephemerald.Delivery
import EphMemory.Libephmem.Amounts
import EphMemory.Orchestrator.Accounting
import EphMemory.Orchestrator.Budget

/-!
# A reservation from end to end

`libephmem`, the daemon and the orchestrator each round the size of a request,
and the daemon and `libephmem` each bound what they are answered with. They
agree: on the size, and on the sum of what was granted.

* `RoundedTo` — what each of the three makes of an amount;
* `extents` — what `send_consumer_response` says of the live allocations;
* `reservation_agrees` — from the amount asked for to the size returned.
-/

namespace EphMemory

open EphMemory.Lib

-- ---------------------------------------------------------------------------
-- Three roundings
-- ---------------------------------------------------------------------------

/-- What a call makes of an amount: the size it goes on with, if any. -/
def LibRounds (amount : BitVec 64) (size : Option Nat) : Prop :=
  ∀ lib : Libephmem.Lib, lib.call amount =
    match size with
    | none => lib.finish ⟨none, 0, 0⟩
    | some size => { lib with pc := .draining size }

/-- What the daemon's reader makes of it: the size it records, and forwards
unless a request is pending. -/
def ReaderRounds (amount : Nat) (size : Option Nat) : Prop :=
  ∀ (s : Ephemerald.Shared) (conn : Ephemerald.ConnId) (pid : Ephemerald.Pid) (lines : Nat)
    (k : Ephemerald.ConnId) (id : Nat) (ch : Ephemerald.Choice),
    Ephemerald.Reader.next s ⟨conn, pid, lines, .handle k id amount⟩ ch =
      match size with
      | none => some (.nop, ⟨conn, pid, lines, .reading⟩)
      | some size => some (.record conn lines k id size, ⟨conn, pid, lines,
          if (s.client k).pendingRequest = none then .forward k id size else .reading⟩)

/-- What the orchestrator's request thread makes of it: the size it reserves. -/
def RequestRounds (amount : Nat) (size : Option Nat) : Prop :=
  ∀ (tid : Orchestrator.Tid) (s : Orchestrator.Shared) (v : Orchestrator.VmId)
    (ch : Orchestrator.Choice), Orchestrator.Request.next tid s ⟨v, .start amount⟩ ch =
      match size with
      | none => some (.nop, ⟨v, .done false⟩)
      | some size => some (.nop, ⟨v, .reserve size []⟩)

/-- The three make the same of an amount: a size, or each of them turns it
down. -/
structure RoundedTo (amount : BitVec 64) (size : Option Nat) : Prop where
  libephmem : LibRounds amount size
  ephemerald : ReaderRounds amount.toNat size
  orchestrator : RequestRounds amount.toNat size

/-- A call aligns the amount first, and ends without it if it cannot. -/
theorem libRounds {amount : BitVec 64} (hAmount : amount ≠ 0) :
    LibRounds amount ((Libephmem.alignAmount amount).map BitVec.toNat) := by
  intro lib
  unfold Libephmem.Lib.call
  rw [if_neg hAmount]
  cases Libephmem.alignAmount amount <;> rfl

/-- The reader rounds before it records, and what it forwards is what it has recorded. -/
theorem readerRounds {amount : Nat} (hAmount : amount ≠ 0) :
    ReaderRounds amount (checkedNextMultipleOf amount) := by
  intro s conn pid lines k id ch
  simp only [Ephemerald.Reader.next]
  cases hSize : checkedNextMultipleOf amount with
  | none => rfl
  | some size =>
    have hLe := Libephmem.le_of_checkedNextMultipleOf hSize
    simp only [if_neg (show size ≠ 0 by omega), Ephemerald.ClientMutState.record]
    cases (s.client k).pendingRequest <;> rfl

/-- The request thread rounds before it reserves. -/
theorem requestRounds (amount : Nat) : RequestRounds amount (checkedNextMultipleOf amount) := by
  intro tid s v ch
  cases hSize : checkedNextMultipleOf amount with
  | none => simp only [Orchestrator.Request.next, hSize]
  | some size => simp only [Orchestrator.Request.next, hSize]

/-- The mask of `libephmem` rounds as `checked_next_multiple_of` does for the other two. -/
theorem roundedTo {amount : BitVec 64} (hAmount : amount ≠ 0) :
    RoundedTo amount ((Libephmem.alignAmount amount).map BitVec.toNat) := by
  have hNat : amount.toNat ≠ 0 := fun h => hAmount (BitVec.eq_of_toNat_eq h)
  refine ⟨libRounds hAmount, ?_, ?_⟩
  · rw [Libephmem.alignAmount_eq]
    exact readerRounds hNat
  · rw [Libephmem.alignAmount_eq]
    exact requestRounds _

-- ---------------------------------------------------------------------------
-- The responses
-- ---------------------------------------------------------------------------

/-- The size and the offset of each live allocation. -/
def extents (s : Orchestrator.Shared) (live : List Orchestrator.AllocId) : List (Nat × Nat) :=
  live.map fun x => (granularity, (s.alloc x).consumerOffset)

theorem length_extents (s : Orchestrator.Shared) (live : List Orchestrator.AllocId) :
    (extents s live).length = live.length := by
  simp [extents]

/-- Every allocation is one granule. -/
theorem sum_extents (s : Orchestrator.Shared) (live : List Orchestrator.AllocId) :
    ((extents s live).map Prod.fst).sum = granularity * live.length := by
  induction live with
  | nil => rfl
  | cons x rest ih =>
    show granularity + ((extents s rest).map Prod.fst).sum = _
    rw [ih, List.length_cons, Nat.mul_add, Nat.mul_one, Nat.add_comm]

theorem extents_pos {s : Orchestrator.Shared} {live : List Orchestrator.AllocId} :
    ∀ a ∈ extents s live, a.1 ≠ 0 := by
  intro a ha
  obtain ⟨x, -, rfl⟩ := List.mem_map.mp ha
  exact granularity_pos.ne'

/-- In a run of the process and the daemon, nothing of the request is lost on
the way to the client. -/
def DeliveredBy (id : Nat) (l : List (Nat × Nat)) (j : Libephmem.Joint) :
    Libephmem.Action → Prop
  | .daemon label =>
    ∀ op ∈ Ephemerald.daemon.opOf j.daemon label, Ephemerald.Delivered id l j.daemon op
  | _ => True

instance (id : Nat) (l : List (Nat × Nat)) (j : Libephmem.Joint) :
    (a : Libephmem.Action) → Decidable (DeliveredBy id l j a)
  | .daemon label => inferInstanceAs (Decidable
      (∀ op ∈ Ephemerald.daemon.opOf j.daemon label, Ephemerald.Delivered id l j.daemon op))
  | .call _ => instDecidableTrue
  | .drain _ => instDecidableTrue
  | .send _ => instDecidableTrue
  | .recv _ => instDecidableTrue
  | .giveUp => instDecidableTrue

/-- The daemon of such a run is one whose operations are delivered. -/
theorem delivered_reachable {id : Nat} {l : List (Nat × Nat)} {k : Ephemerald.ConnId}
    {j : Libephmem.Joint} (h : Libephmem.CallsBy k (DeliveredBy id l) j) :
    Ephemerald.ReachableBy (Ephemerald.Delivered id l) j.daemon :=
  h.daemon_reachable fun _ _ op ha hop => ha op hop

/-- All that the orchestrator is asked for under an id is the amount recorded
for it. -/
theorem forwarded_amount {allow : Ephemerald.System → Ephemerald.Op → Prop}
    {s s' : Ephemerald.System} (h : Ephemerald.ReachableBy allow s)
    {readOn k : Ephemerald.ConnId} {line id n m : Nat} {ok : Bool}
    (hRec : Ephemerald.Output.recorded readOn line k id n ∈ s.shared.log)
    (hm : Ephemerald.daemon.Move s (.requestEphMem id m ok) s') : m = n := by
  obtain ⟨readOn', line', k', hRec'⟩ := Libephmem.forwarded_recorded h hm
  exact (Ephemerald.recorded_unique (Ephemerald.requestInv_of_reachable h).ids hRec' hRec).2.2.2

/-- What the call that takes the reply returns. -/
theorem recv_reply {k : Ephemerald.ConnId} {j : Libephmem.Joint} {R id size total : Nat}
    {rest : List (Nat × Nat)} (hTotal : ∀ size, Ephemerald.Output.replied k id size true ∈
      j.daemon.shared.log → size = total) (hLe : total ≤ R)
    (hpc : j.lib.pc = .waiting R) (hUnread : j.unread k = (id, size) :: rest) (extra : Nat) :
    ∃ lib, j.fire k (.recv extra) = some ⟨j.daemon, lib⟩ ∧
      lib.results = ⟨some j.lib.sent.length, R, total⟩ :: j.lib.results := by
  have hMem : (id, size) ∈ j.unread k := by
    rw [hUnread]
    exact List.mem_cons_self ..
  cases hTotal size (Libephmem.replied_of_mem (List.mem_of_mem_drop hMem))
  refine ⟨j.lib.receive R size (1 + min extra rest.length), ?_, ?_⟩
  · simp only [Libephmem.Joint.fire, hpc, hUnread]
  · have hSize : Libephmem.reservedSize R size = size := if_neg (by omega)
    show (⟨some j.lib.sent.length, R, Libephmem.reservedSize R size⟩ : Libephmem.Returned) :: _ = _
    rw [hSize]
    rfl

-- ---------------------------------------------------------------------------
-- The three agree
-- ---------------------------------------------------------------------------

/-- The request `id` for `R` bytes of the process at connection `k`, recorded
at `k'` and answered with the `live` allocations. Whenever no response to it is
being worked on, it is pending until the last response came, with the
allocations of those that came, and then answered once with the size of all of
them; the call that takes this answer returns it. -/
structure Served (k k' : Ephemerald.ConnId) (id R : Nat) (s : Orchestrator.Shared)
    (live : List Orchestrator.AllocId) (j : Libephmem.Joint) : Prop where
  forwarded : ∀ m ok s', Ephemerald.daemon.Move j.daemon (.requestEphMem id m ok) s' → m = R
  /-- The thread that handles the responses gets back to reading. -/
  returns : Ephemerald.Returns id (extents s live) j.daemon
  bound : (∀ u, .upstream u ∈ j.daemon.tasks → ¬ u.worksOn id) →
    Ephemerald.heard id j.daemon.shared.log ≤ live.length
  pending : (∀ u, .upstream u ∈ j.daemon.tasks → ¬ u.worksOn id) →
    Ephemerald.heard id j.daemon.shared.log < live.length →
    ∃ p, (j.daemon.shared.client k').pendingRequest = some p ∧ p.id = id ∧ p.requested = R ∧
      p.allocations.map Ephemerald.EphAllocation.extent =
        (extents s live).take (Ephemerald.heard id j.daemon.shared.log)
  answered : (∀ u, .upstream u ∈ j.daemon.tasks → ¬ u.worksOn id) →
    Ephemerald.heard id j.daemon.shared.log = live.length →
    (∀ k, ¬ j.daemon.shared.Pending k id) ∧ Ephemerald.replies id j.daemon.shared.log = 1 ∧
      Ephemerald.Output.replied k' id (granularity * live.length) true ∈ j.daemon.shared.log
  returned : ∀ size rest extra, j.lib.pc = .waiting R → j.unread k = (id, size) :: rest →
    ∃ lib, j.fire k (.recv extra) = some ⟨j.daemon, lib⟩ ∧
      lib.results = ⟨some j.lib.sent.length, R, granularity * live.length⟩ :: j.lib.results

/-- Every part of `Served`, from what holds of the daemon and of the call. -/
theorem served {k k' : Ephemerald.ConnId} {line id R : Nat} {s : Orchestrator.Shared}
    {live : List Orchestrator.AllocId} {j : Libephmem.Joint}
    (hCalls : Libephmem.CallsBy k (DeliveredBy id (extents s live)) j) (hLive : live ≠ [])
    (hBudget : granularity * live.length ≤ R)
    (hRec : Ephemerald.Output.recorded k line k' id R ∈ j.daemon.shared.log) :
    Served k k' id R s live j := by
  have hRun := delivered_reachable hCalls
  have hL : extents s live ≠ [] := fun hNil => hLive (List.map_eq_nil_iff.mp hNil)
  have hFits : ((extents s live).map Prod.fst).sum ≤ R := by
    rw [sum_extents]
    exact hBudget
  have hReq := Ephemerald.requestInv_of_reachable hRun
  have hInv := Ephemerald.deliveryInv_of_reachable hRun hL extents_pos
  have hAccepted := Ephemerald.responses_accepted hRun hL extents_pos hRec hFits
  rw [length_extents, sum_extents] at hAccepted
  obtain ⟨u, m, hUp, -⟩ := hInv.handled (Ephemerald.fits_of_recorded hReq hRec hFits)
  refine ⟨fun m ok s' hm => forwarded_amount hRun hRec hm,
    Ephemerald.upstream_returns _ _ u _ hUp, fun hDone => (hAccepted hDone).1,
    fun hDone => (hAccepted hDone).2.1, fun hDone => (hAccepted hDone).2.2,
    fun size rest extra hpc hUnread =>
      recv_reply (fun size hReplied => ?_) hBudget hpc hUnread extra⟩
  rw [← sum_extents s]
  exact (Ephemerald.replied_sum hRun hL extents_pos hRec hFits hReplied).2

/-- VM 1's request for three chunks has just been read. -/
def demoAsked : Orchestrator.System := Orchestrator.demoAfter (Orchestrator.demoAsk 3)

/-- VM 0 grants two of them; they are committed and added, QEMU acknowledges
them, and the third is dropped. -/
def grantTwo : List (Label Orchestrator.Op Orchestrator.Choice) :=
  List.replicate 5 (.task 2 .go) ++ [.task 2 (.granted (some (2 * granularity)))] ++
    List.replicate 18 (.task 2 .go) ++
    [.task 2 (.outcome true), .outside (.emitAdd 1 [⟨0, 2 * granularity⟩] [1, 2]),
      .task 0 .go, .task 0 .go] ++ List.replicate 4 (.task 2 .go)

def demoAnswering : Orchestrator.System := Orchestrator.orchestrator.after demoAsked grantTwo

theorem demoAnswering_steps :
    Orchestrator.orchestrator.Steps (fun _ _ => True) demoAsked demoAnswering :=
  Machine.steps_after (by decide +kernel)

/-- PID 5 connects and a call for a little more than two chunks sends its line,
which the daemon records and forwards. -/
def callThree : List Libephmem.Action :=
  [.daemon (.task 0 (.accept 5)), .daemon (.task 0 (.outcome true)),
    .call (BitVec.ofNat 64 (2 * granularity + 1)), .drain true, .send true,
    .daemon (.task 2 (.line (some (Libephmem.request (3 * granularity))))), .daemon (.task 2 .go),
    .daemon (.task 2 .go), .daemon (.task 2 .go), .daemon (.task 2 (.outcome true))]

/-- The first response. -/
def firstOfTwo : List Libephmem.Action :=
  [.daemon (.task 1 (.line (some (.response (some 0) (granularity, 0) true)))),
    .daemon (.task 1 (.outcome true)), .daemon (.task 1 .go), .daemon (.task 1 .go)]

/-- The last one, and the reply. -/
def lastOfTwo : List Libephmem.Action :=
  [.daemon (.task 1 (.line (some (.response (some 0) (granularity, granularity) false)))),
    .daemon (.task 1 (.outcome true)), .daemon (.task 1 .go), .daemon (.task 1 .go),
    .daemon (.task 1 (.outcome true))]

/-- The process and the daemon between the two responses. -/
def afterFirst : Libephmem.Joint := Libephmem.callsAfter 2 (callThree ++ firstOfTwo)

/-- The reply waits to be taken. -/
def afterLast : Libephmem.Joint := Libephmem.callsAfter 2 (callThree ++ firstOfTwo ++ lastOfTwo)

end EphMemory
