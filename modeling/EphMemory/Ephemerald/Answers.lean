import EphMemory.Ephemerald.Requests

/-!
# Ephemerald — every request is answered once

The sums of a pending request are right whatever the orchestrator sends, and a
response changes only the client whose request it names. Whether the last
response also ends the request is another matter: `msg_handler` returns early
on a missing field, a size of 0 or a device that could not be created, the
search finds listed clients only, and a size over the remainder is an error.
None of these looks at `more`, so a last response lost on one of these paths
leaves the request pending for good.

* `Orderly` — no last response is lost on such a path;
* `OrderInv` — with that, a request whose last response was read is pending only
  while the response is being handled;
* `answered_once` — the request is then answered once, with its sum.
-/

namespace EphMemory.Ephemerald

open EphMemory.Lib

-- ---------------------------------------------------------------------------
-- The upstream thread
-- ---------------------------------------------------------------------------

/-- The upstream thread is task number 1, and the only one. -/
structure HasUpstream (s : System) (u : Upstream) : Prop where
  here : s.tasks[1]? = some (.upstream u)
  only : ∀ i u', s.tasks[i]? = some (.upstream u') → i = 1

/-- The thread that handles the responses is the only one, and starts no other. -/
theorem Task.Step.upstream_iff {s : Shared} {t t' : Task} {op : Op} {started : List Task}
    (h : Task.Step s t op t' started) :
    (∀ u, .upstream u ∉ started) ∧ ((∃ u, t' = .upstream u) → ∃ u, t = .upstream u) := by
  cases h with
  | listener _ =>
    refine ⟨fun u hu => ?_, nofun⟩
    obtain ⟨r, -, hr⟩ := List.mem_map.mp hu
    cases hr
  | reader _ => exact ⟨nofun, nofun⟩
  | upstream _ => exact ⟨nofun, fun _ => ⟨_, rfl⟩⟩

/-- A move is the upstream thread's, or leaves it alone. -/
theorem HasUpstream.move {s s' : System} {op : Op} {u : Upstream} (h : HasUpstream s u)
    (hm : daemon.Move s op s') :
    (∃ u', HasUpstream s' u' ∧ Upstream.Step s.shared u op u') ∨
    (HasUpstream s' u ∧ ∃ t t' started, t ∈ s.tasks ∧ (∀ v, t ≠ .upstream v) ∧
      Task.Step s.shared t op t' started) := by
  obtain ⟨i, t, t', started, ht, hs, -, hTasks⟩ := move_cases hm
  obtain ⟨hStarted, hKind⟩ := hs.upstream_iff
  have hOnly : ∀ j v, s'.tasks[j]? = some (.upstream v) → j = 1 := by
    intro j v hv
    rw [hTasks] at hv
    rcases Machine.getElem?_set_append hv with ⟨rfl, rfl⟩ | hv | hv
    · obtain ⟨w, rfl⟩ := hKind ⟨v, rfl⟩
      exact h.only j w ht
    · exact h.only j v hv
    · exact absurd hv (hStarted v)
  have hLen : 1 < s.tasks.length := (List.getElem?_eq_some_iff.mp h.here).1
  have hAt : s'.tasks[1]? = (s.tasks.set i t')[1]? := by
    rw [hTasks, List.getElem?_append_left (by rw [List.length_set]; exact hLen)]
  by_cases hUp : ∃ v, t = .upstream v
  · obtain ⟨v, rfl⟩ := hUp
    obtain rfl := h.only i v ht
    cases Option.some.inj (ht.symm.trans h.here)
    cases hs with
    | @upstream _ u' _ hu =>
      refine Or.inl ⟨u', ⟨?_, hOnly⟩, hu⟩
      rw [hAt, List.getElem?_set_self hLen]
  · have hne : i ≠ 1 := by
      rintro rfl
      exact hUp ⟨u, Option.some.inj (ht.symm.trans h.here)⟩
    refine Or.inr ⟨⟨?_, hOnly⟩, t, t', started, List.mem_of_getElem? ht,
      fun v hv => hUp ⟨v, hv⟩, hs⟩
    rw [hAt, List.getElem?_set_ne hne, h.here]

theorem hasUpstream_init : HasUpstream initSystem .reading := by
  refine ⟨rfl, fun i u hu => ?_⟩
  match i, hu with
  | 1, _ => rfl

-- ---------------------------------------------------------------------------
-- Last responses
-- ---------------------------------------------------------------------------

/-- The last response to the request with this id. -/
def isFinal (cmd : ConsumerCommand) (id : Nat) : Bool :=
  decide (cmd.function = .ephMemResponse) && decide (cmd.id = some id) && !cmd.hasMore

def Output.isFinal (id : Nat) : Output → Bool
  | .received cmd => Ephemerald.isFinal cmd id
  | _ => false

/-- A last response to the request was read while the request was on record. -/
def FinalSeen (id : Nat) : List Output → Prop
  | [] => False
  | o :: older => (o.isFinal id = true ∧ 1 ≤ recordings id older) ∨ FinalSeen id older

instance decidableFinalSeen (id : Nat) : (log : List Output) → Decidable (FinalSeen id log)
  | [] => .isFalse fun h => h
  | o :: older =>
    @instDecidableOr (o.isFinal id = true ∧ 1 ≤ recordings id older) (FinalSeen id older)
      inferInstance (decidableFinalSeen id older)

/-- The thread still has to ask the orchestrator, or to tell the client that it
could not. -/
def Task.forwards (id : Nat) : Task → Bool
  | .reader ⟨_, _, _, .forward _ id' _⟩ => decide (id' = id)
  | .reader ⟨_, _, _, .deny _ id'⟩ => decide (id' = id)
  | .reader ⟨_, _, _, .reply _ id' _⟩ => decide (id' = id)
  | _ => false

/-- The thread has a last response and has not found its client yet. -/
def Task.seeks (id : Nat) : Task → Bool
  | .upstream (.device _ _ id' false) => decide (id' = id)
  | .upstream (.find id' false _) => decide (id' = id)
  | _ => false

/-- The client may leave the list: no last response is looking for it. -/
def Unsought (s : System) (k : ConnId) : Prop :=
  ∀ p ∈ (s.shared.client k).pendingRequest, ∀ t ∈ s.tasks, t.seeks p.id = false

/-- The last response can end the client's pending request. -/
def Acceptable (s : Shared) (cmd : ConsumerCommand) (k : ConnId) (p : PendingRequest) : Prop :=
  (∃ size ∈ cmd.size, size ≠ 0 ∧ size ≤ p.requested - p.received) ∧ cmd.offset.isSome = true ∧
    k ∈ s.clients.values

/-- No last response is lost: it comes after its request was sent, has its
fields, a size that is not 0 and not over the remainder, its client is listed
until it is found, its device can be created; and replies can be written. -/
def Orderly (s : System) : Op → Prop
  | .receive cmd => ∀ id ∈ cmd.id, isFinal cmd id = true →
      (∀ t ∈ s.tasks, t.forwards id = false) ∧
        ∀ k < s.shared.nextConn, ∀ p ∈ (s.shared.client k).pendingRequest, p.id = id →
          Acceptable s.shared cmd k p
  | .newDevice id more ok => more = true ∨ ok = true ∨
      ∀ k < s.shared.nextConn, ∀ p ∈ (s.shared.client k).pendingRequest, p.id ≠ id
  | .register pid => ∀ k ∈ s.shared.clients.get? pid, Unsought s k
  | .close conn pid => s.shared.clients.get? pid = some conn → Unsought s conn
  | .reply _ _ _ ok => ok = true
  | _ => True

instance (s : Shared) (cmd : ConsumerCommand) (k : ConnId) (p : PendingRequest) :
    Decidable (Acceptable s cmd k p) := by
  unfold Acceptable
  infer_instance

instance (s : System) (k : ConnId) : Decidable (Unsought s k) := by
  unfold Unsought
  infer_instance

instance (s : System) (op : Op) : Decidable (Orderly s op) := by
  unfold Orderly
  split <;> infer_instance

/-- What was recorded stays so. -/
theorem recordings_append_le (id : Nat) (outs log : List Output) :
    recordings id log ≤ recordings id (outs ++ log) := by
  have := tally_nonneg (Output.isRecorded id) outs
  unfold recordings
  rw [tally_append]
  omega

/-- A final response was to a recorded request. -/
theorem FinalSeen.recorded {id : Nat} {log : List Output} (h : FinalSeen id log) :
    1 ≤ recordings id log := by
  induction log with
  | nil => exact h.elim
  | cons o older ih =>
    have hLe := recordings_append_le id [o] older
    rcases h with ⟨-, hRec⟩ | h
    · exact le_trans hRec hLe
    · exact le_trans (ih h) hLe

/-- An entry that is no final response changes nothing about what was final before. -/
theorem finalSeen_append {id : Nat} {outs log : List Output}
    (hOuts : ∀ o ∈ outs, o.isFinal id = false) (h : FinalSeen id (outs ++ log)) :
    FinalSeen id log := by
  induction outs with
  | nil => exact h
  | cons o rest ih =>
    rcases h with ⟨hFinal, -⟩ | h
    · rw [hOuts o (List.mem_cons_self ..)] at hFinal
      cases hFinal
    · exact ih (fun o' ho' => hOuts o' (List.mem_cons_of_mem _ ho')) h

/-- A last response is seen when it is read. -/
theorem finalSeen_exec {id : Nat} {op : Op} {s : Shared} (h : FinalSeen id (op.exec s).log) :
    FinalSeen id s.log ∨
      ∃ cmd, op = .receive cmd ∧ isFinal cmd id = true ∧ 1 ≤ recordings id s.log := by
  rw [log_exec] at h
  by_cases hOp : ∃ cmd, op = .receive cmd
  · obtain ⟨cmd, rfl⟩ := hOp
    rcases h with ⟨hFinal, hRec⟩ | h
    · exact Or.inr ⟨cmd, rfl, hFinal, hRec⟩
    · exact Or.inl h
  · refine Or.inl (finalSeen_append (fun o ho => ?_) h)
    cases emits_of_mem ho with
    | @received cmd => exact absurd ⟨cmd, rfl⟩ hOp
    | _ => rfl


-- ---------------------------------------------------------------------------
-- A last response on its way
-- ---------------------------------------------------------------------------

/-- The upstream thread has the last response to the client's pending request,
and will get it there. -/
def Upstream.Handles (s : Shared) (k : ConnId) (p : PendingRequest) : Upstream → Prop
  | .device size _ id false =>
    id = p.id ∧ size ≤ p.requested - p.received ∧ k ∈ s.clients.values
  | .find id false a => id = p.id ∧ a.size ≤ p.requested - p.received ∧ k ∈ s.clients.values
  | .respond k' id false a => id = p.id ∧ a.size ≤ p.requested - p.received ∧ k' = k
  | _ => False

/-- Once its last response was read, a request is pending only while the
upstream thread has the response. -/
structure OrderInv (s : System) : Prop where
  handled : ∃ u, HasUpstream s u ∧ ∀ k p, (s.shared.client k).pendingRequest = some p →
    FinalSeen p.id s.shared.log → u.Handles s.shared k p
  forwarded : ∀ t ∈ s.tasks, ∀ id, FinalSeen id s.shared.log → t.forwards id = false
  sent : ∀ k id size ok, Output.replied k id size ok ∈ s.shared.log → ok = true

/-- A connection with a pending request was accepted. -/
theorem lt_nextConn_of_pending {s : System} (h : ListInv s) {k : ConnId} {p : PendingRequest}
    (hp : (s.shared.client k).pendingRequest = some p) : k < s.shared.nextConn := by
  by_contra hLe
  rw [h.unborn k (Nat.le_of_not_lt hLe)] at hp
  cases hp

/-- The search finds a listed client with the request. -/
theorem findClient_ne_none {s : Shared} {k : ConnId} {p : PendingRequest}
    (hp : (s.client k).pendingRequest = some p) (hk : k ∈ s.clients.values) :
    s.findClient p.id ≠ none := by
  intro hNone
  have hNot := List.find?_eq_none.mp hNone k hk
  rw [ClientMutState.pendingWith_eq_some.mpr ⟨hp, rfl⟩] at hNot
  exact hNot rfl

/-- The client that is found has the request pending. -/
theorem pending_of_findClient {s : Shared} {k : ConnId} {id : Nat}
    (h : s.findClient id = some k) : s.Pending k id := by
  have hSome := List.find?_some h
  obtain ⟨p, hp⟩ := Option.isSome_iff_exists.mp hSome
  exact ⟨p, ClientMutState.pendingWith_eq_some.mp hp⟩

/-- A response that fits is accepted. -/
theorem sendEphMemResponse_of_fits {c : ClientMutState} {p : PendingRequest} {a : EphAllocation}
    (hp : c.pendingRequest = some p) (hFits : a.size ≤ p.requested - p.received) :
    ∃ c' size, c.sendEphMemResponse p.id false (some a) = .ok (c', some size) := by
  have hCount : p.count (some a) =
      .ok { p with received := p.received + a.size, allocations := p.allocations ++ [a] } := by
    simp only [PendingRequest.count]
    rw [if_neg (Nat.not_lt.mpr hFits)]
  exact ⟨_, _, ClientMutState.sendEphMemResponse_of_count hp rfl hCount⟩

/-- Reading the last response of a pending request starts its handling. -/
theorem handles_dispatch {s : Shared} {cmd : ConsumerCommand} {k : ConnId} {p : PendingRequest}
    (hFinal : isFinal cmd p.id = true) (h : Acceptable s cmd k p) :
    (Upstream.dispatch cmd).Handles s k p := by
  obtain ⟨⟨size, hSize, hne, hFits⟩, hOffset, hk⟩ := h
  obtain ⟨offset, hOffset⟩ := Option.isSome_iff_exists.mp hOffset
  simp only [isFinal, Bool.and_eq_true, decide_eq_true_eq, Bool.not_eq_true'] at hFinal
  obtain ⟨⟨hFun, hId⟩, hMore⟩ := hFinal
  rw [Option.mem_def] at hSize
  simp only [Upstream.dispatch, hFun, hSize, hOffset, hId, if_neg hne, hMore]
  exact ⟨rfl, hFits, hk⟩

/-- After the thread has responded, the request is no longer pending. -/
theorem not_pending_of_responded {s : System} {k k' : ConnId} {id : Nat} {more : Bool}
    {a : EphAllocation}
    {p : PendingRequest} (hReq : RequestInv s)
    (h : ∀ k p, (s.shared.client k).pendingRequest = some p → FinalSeen p.id s.shared.log →
      (Upstream.respond k' id more a).Handles s.shared k p)
    (hp : (((Op.respond k' id more (some a)).exec s.shared).client k).pendingRequest = some p)
    (hSeen : FinalSeen p.id ((Op.respond k' id more (some a)).exec s.shared).log) : False := by
  have hOldSeen : FinalSeen p.id s.shared.log := by
    rcases finalSeen_exec hSeen with hOld | ⟨_, heq, -⟩
    · exact hOld
    · cases heq
  rcases (pending_exec _ s.shared (hReq.list.unborn _ (Nat.le_refl _)) k p.id).mp
    ⟨p, hp, rfl⟩ with ⟨_, _, _, heq, -⟩ | ⟨⟨q, hq, hId⟩, hNot⟩
  · cases heq
  · rw [← hId] at hOldSeen hNot
    have hOld := h k q hq hOldSeen
    cases more with
    | true => exact hOld
    | false =>
      obtain ⟨rfl, hFits, rfl⟩ := hOld
      obtain ⟨c, size, hSend⟩ := sendEphMemResponse_of_fits hq hFits
      exact hNot ⟨some a, c, size, rfl, hSend⟩

/-- The moves of the upstream thread. -/
theorem Upstream.Step.handles {s : System} {u u' : Upstream} {op : Op}
    (hu : Upstream.Step s.shared u op u') (hReq : RequestInv s) (ha : Orderly s op)
    (h : ∀ k p, (s.shared.client k).pendingRequest = some p → FinalSeen p.id s.shared.log →
      u.Handles s.shared k p) {k : ConnId} {p : PendingRequest}
    (hp : ((op.exec s.shared).client k).pendingRequest = some p)
    (hSeen : FinalSeen p.id (op.exec s.shared).log) : u'.Handles (op.exec s.shared) k p := by
  cases hu with
  | ignored => exact (h k p hp hSeen).elim
  | @receive cmd =>
    rcases finalSeen_exec hSeen with hOld | ⟨_, heq, hFinal, -⟩
    · exact (h k p hp hOld).elim
    · cases heq
      have hId : cmd.id = some p.id := by
        simp only [isFinal, Bool.and_eq_true, decide_eq_true_eq] at hFinal
        exact hFinal.1.2
      exact handles_dispatch hFinal
        ((ha p.id hId hFinal).2 k (lt_nextConn_of_pending hReq.list hp) p hp rfl)
  | @created size offset id more =>
    have hOld := h k p hp hSeen
    cases more with
    | true => exact hOld.elim
    | false => exact hOld
  | @notCreated size offset id more =>
    have hOld := h k p hp hSeen
    rcases ha with rfl | hok | hNone
    · exact hOld.elim
    · cases hok
    · cases more with
      | true => exact hOld.elim
      | false =>
        exact absurd hOld.1.symm (hNone k (lt_nextConn_of_pending hReq.list hp) p hp)
  | @found k' id more a hFound =>
    have hOld := h k p hp hSeen
    cases more with
    | true => exact hOld.elim
    | false =>
      obtain ⟨rfl, hFits, -⟩ := hOld
      exact ⟨rfl, hFits, pending_unique hReq.ids hReq.record (pending_of_findClient hFound)
        ⟨p, hp, rfl⟩⟩
  | @notFound id more a hNone =>
    have hOld := h k p hp hSeen
    cases more with
    | true => exact hOld.elim
    | false =>
      obtain ⟨rfl, -, hk⟩ := hOld
      exact absurd hNone (findClient_ne_none hp hk)
  | @replied k' id size ok =>
    rcases finalSeen_exec hSeen with hOld | ⟨_, heq, -⟩
    · exact (h k p hp hOld).elim
    · cases heq
  | finished _ => exact (not_pending_of_responded hReq h hp hSeen).elim
  | counted _ => exact (not_pending_of_responded hReq h hp hSeen).elim


/-- What is listed stays listed while it is sought. -/
theorem mem_values_exec {s : System} {op : Op} (ha : Orderly s op) {k : ConnId}
    {p : PendingRequest} (hp : (s.shared.client k).pendingRequest = some p)
    (hSought : ∃ t ∈ s.tasks, t.seeks p.id = true) (hk : k ∈ s.shared.clients.values) :
    k ∈ (op.exec s.shared).clients.values := by
  have hNot : ¬ Unsought s k := by
    intro h
    obtain ⟨t, ht, hSeeks⟩ := hSought
    rw [h p hp t ht] at hSeeks
    cases hSeeks
  obtain ⟨pid, hpid⟩ := OrdMap.mem_values_iff.mp hk
  refine OrdMap.mem_values_iff.mpr ⟨pid, ?_⟩
  rcases clients_exec op s.shared with ⟨pid', rfl, hEq⟩ | ⟨conn, pid', rfl, hIn, hEq⟩ | ⟨-, hEq⟩
  · rw [hEq, OrdMap.get?_insert]
    by_cases heq : pid = pid'
    · subst heq
      exact absurd (ha k hpid) hNot
    · rw [if_neg heq]
      exact hpid
  · rw [hEq, OrdMap.get?_erase]
    by_cases heq : pid = pid'
    · subst heq
      cases Option.some.inj (hIn.symm.trans hpid)
      exact absurd (ha hIn) hNot
    · rw [if_neg heq]
      exact hpid
  · rw [hEq]
    exact hpid

/-- Another thread's move does not stop the handling of a last response. -/
theorem Upstream.Handles.exec {s : System} {op : Op} {u : Upstream} {k : ConnId}
    {p : PendingRequest} (h : u.Handles s.shared k p) (hUp : HasUpstream s u)
    (ha : Orderly s op) (hp : (s.shared.client k).pendingRequest = some p) :
    u.Handles (op.exec s.shared) k p := by
  have hMem := List.mem_of_getElem? hUp.here
  match u, h with
  | .device size offset id false, ⟨hId, hFits, hk⟩ =>
    exact ⟨hId, hFits, mem_values_exec ha hp ⟨_, hMem, decide_eq_true hId⟩ hk⟩
  | .find id false a, ⟨hId, hFits, hk⟩ =>
    exact ⟨hId, hFits, mem_values_exec ha hp ⟨_, hMem, decide_eq_true hId⟩ hk⟩
  | .respond k' id false a, h => exact h

/-- The readers and the listener do not read responses, record no request anew
and leave pending requests alone, but for those they end. -/
theorem Task.Step.pending_of_others {s : System} {t t' : Task} {op : Op} {started : List Task}
    (hs : Task.Step s.shared t op t' started) (ht : t ∈ s.tasks) (hOther : ∀ v, t ≠ .upstream v)
    (hReq : RequestInv s) {k : ConnId} {p : PendingRequest}
    (hp : ((op.exec s.shared).client k).pendingRequest = some p)
    (hSeen : FinalSeen p.id (op.exec s.shared).log) :
    (s.shared.client k).pendingRequest = some p ∧ FinalSeen p.id s.shared.log := by
  have hOld : FinalSeen p.id s.shared.log := by
    rcases finalSeen_exec hSeen with hOld | ⟨cmd, rfl, -⟩
    · exact hOld
    · cases hs with
      | listener hl => cases hl
      | reader hr => cases hr
      | upstream _ => exact absurd rfl (hOther _)
  refine ⟨?_, hOld⟩
  have hChange := clientChange_exec op s.shared k
  generalize (op.exec s.shared).client k = c at hChange hp
  cases hChange with
  | same _ _ => exact hp
  | fresh _ => cases hp
  | recorded _ =>
    cases hp
    have hNone := not_recorded_of_carries hReq.ids ht hs.carries_of_record
    have hOne := hOld.recorded
    exact absurd (le_trans hOne hNone) (by decide)
  | responded hSend =>
    cases hs with
    | listener hl => cases hl
    | upstream _ => exact absurd rfl (hOther _)
    | reader hr =>
      have hGone : c.pendingRequest = none := by
        cases hr <;>
        · obtain ⟨_, _, -, -, -, ⟨hMore, -⟩ | ⟨-, rfl, -⟩⟩ :=
            ClientMutState.sendEphMemResponse_ok hSend
          · cases hMore
          · rfl
      rw [hGone] at hp
      cases hp

/-- After the final response the thread works on its request until that has ended. -/
theorem OrderInv.handled_move {s s' : System} {op : Op} (h : OrderInv s) (hReq : RequestInv s)
    (hm : daemon.Move s op s') (ha : Orderly s op) :
    ∃ u, HasUpstream s' u ∧ ∀ k p, (s'.shared.client k).pendingRequest = some p →
      FinalSeen p.id s'.shared.log → u.Handles s'.shared k p := by
  obtain ⟨u, hUp, hHandled⟩ := h.handled
  have hShared : s'.shared = op.exec s.shared := hm.shared_eq
  rw [hShared]
  rcases hUp.move hm with ⟨u', hUp', hu⟩ | ⟨hUp', t, t', started, ht, hOther, hs⟩
  · exact ⟨u', hUp', fun k p hp hSeen => hu.handles hReq ha hHandled hp hSeen⟩
  · refine ⟨u, hUp', fun k p hp hSeen => ?_⟩
    obtain ⟨hOld, hOldSeen⟩ := hs.pending_of_others ht hOther hReq hp hSeen
    exact (hHandled k p hOld hOldSeen).exec hUp ha hOld

/-- A thread forwards what it has recorded. -/
theorem Task.Step.forwards_cases {s : Shared} {t t' : Task} {op : Op} {started : List Task}
    {id : Nat} (h : Task.Step s t op t' started) (hf : t'.forwards id = true) :
    t.forwards id = true ∨ ∃ readOn line k n, op = .record readOn line k id n := by
  cases h with
  | listener _ => cases hf
  | upstream _ => cases hf
  | reader hr =>
    cases hr with
    | @record k k' pid n id' amount aligned _ _ _ =>
      rw [Task.forwards, decide_eq_true_eq] at hf
      subst hf
      exact Or.inr ⟨_, _, _, _, rfl⟩
    | forwardFailed => exact Or.inl hf
    | denied _ => exact Or.inl hf
    | _ => cases hf

/-- No thread starts with a request to forward. -/
theorem Task.Step.not_forwards_started {s : Shared} {t t' : Task} {op : Op} {started : List Task}
    (h : Task.Step s t op t' started) (id : Nat) : ∀ u ∈ started, u.forwards id = false := by
  intro u hu
  cases h with
  | listener hl =>
    obtain ⟨r, hr, rfl⟩ := List.mem_map.mp hu
    cases hl with
    | register =>
      rw [List.mem_singleton.mp hr]
      rfl
    | _ => cases hr
  | reader _ => cases hu
  | upstream _ => cases hu

/-- What was answered is not forwarded any more. -/
theorem OrderInv.forwarded_move {s s' : System} {op : Op} (h : OrderInv s) (hReq : RequestInv s)
    (hm : daemon.Move s op s') (ha : Orderly s op) :
    ∀ t ∈ s'.tasks, ∀ id, FinalSeen id s'.shared.log → t.forwards id = false := by
  -- a last response read now comes after its request was sent
  have hAll : ∀ t ∈ s.tasks, ∀ id, FinalSeen id (op.exec s.shared).log →
      t.forwards id = false := by
    intro t ht id hSeen
    rcases finalSeen_exec hSeen with hOld | ⟨cmd, rfl, hFinal, -⟩
    · exact h.forwarded t ht id hOld
    · have hId : cmd.id = some id := by
        simp only [isFinal, Bool.and_eq_true, decide_eq_true_eq] at hFinal
        exact hFinal.1.2
      exact (ha id hId hFinal).1 t ht
  refine forall_tasks (J := fun s t => ∀ id, FinalSeen id s.log → t.forwards id = false) hm
    h.forwarded (fun t t' started ht hs => ?_) (fun u hu _ => hAll u hu)
  refine ⟨fun id hSeen => ?_, fun u hu id _ => hs.not_forwards_started id u hu⟩
  by_contra hf
  rw [Bool.not_eq_false] at hf
  rcases hs.forwards_cases hf with hOld | ⟨_, _, _, _, rfl⟩
  · rw [hAll t ht id hSeen] at hOld
    cases hOld
  · have hNone := not_recorded_of_carries hReq.ids ht hs.carries_of_record
    rcases finalSeen_exec hSeen with hOld | ⟨_, heq, -⟩
    · have hOne := hOld.recorded
      omega
    · cases heq

/-- The order of the answers holds on, whoever moves. -/
theorem OrderInv.move {s s' : System} {op : Op} (h : OrderInv s) (hReq : RequestInv s)
    (hm : daemon.Move s op s') (ha : Orderly s op) : OrderInv s' := by
  refine ⟨h.handled_move hReq hm ha, h.forwarded_move hReq hm ha, fun k id size ok hr => ?_⟩
  have hShared : s'.shared = op.exec s.shared := hm.shared_eq
  rw [hShared] at hr
  rcases mem_log_exec hr with hEmit | hOld
  · cases hEmit
    exact ha
  · exact h.sent k id size ok hOld

theorem orderInv_init : OrderInv initSystem := by
  refine ⟨⟨.reading, hasUpstream_init, fun k p hp => ?_⟩, fun t _ id hSeen => hSeen.elim, nofun⟩
  cases hp

theorem orderInv_of_reachable {s : System} (h : ReachableBy Orderly s) : OrderInv s := by
  have hBoth := h.invariant (I := fun s => RequestInv s ∧ OrderInv s)
    (fun _ _ _ hI hm ha => ⟨hI.1.move hm, hI.2.move hI.1 hm ha⟩) ⟨requestInv_init, orderInv_init⟩
  exact hBoth.2

-- ---------------------------------------------------------------------------
-- The theorem
-- ---------------------------------------------------------------------------

/-- The thread works on a response to the request with this id. -/
def Upstream.worksOn (id : Nat) : Upstream → Prop
  | .reading => False
  | .device _ _ id' _ => id' = id
  | .find id' _ _ => id' = id
  | .respond _ id' _ _ => id' = id
  | .reply _ id' _ => id' = id

/-- The upstream thread is reading. -/
theorem not_worksOn_of_reading {s : System} {ts : List Task} (id : Nat)
    (h : s.tasks = .listener .idle :: .upstream .reading :: ts) (hts : ∀ u, .upstream u ∉ ts) :
    ∀ u, .upstream u ∈ s.tasks → ¬ u.worksOn id := by
  intro u hu
  rw [h] at hu
  simp only [List.mem_cons, reduceCtorEq, Task.upstream.injEq, false_or] at hu
  rcases hu with rfl | hu
  · exact fun h => h
  · exact absurd hu (hts u)

/-- A thread that ends a request works on it. -/
theorem Upstream.Handles.worksOn {s : Shared} {k : ConnId} {p : PendingRequest} {u : Upstream}
    (h : u.Handles s k p) : u.worksOn p.id := by
  match u, h with
  | .device size offset id false, h => exact h.1
  | .find id false a, h => exact h.1
  | .respond k' id false a, h => exact h.1

/-- A client changes when a request is recorded at it, or by a response to its
pending request. -/
theorem client_changes {s s' : System} {op : Op} (h : ListInv s) (hm : daemon.Move s op s')
    {k : ConnId} (hne : s'.shared.client k ≠ s.shared.client k) :
    (∃ readOn line id n, op = .record readOn line k id n) ∨
      ∃ id more a, op = .respond k id more a ∧ s.shared.Pending k id := by
  have hShared : s'.shared = op.exec s.shared := hm.shared_eq
  rw [hShared] at hne
  have hChange := clientChange_exec op s.shared k
  generalize (op.exec s.shared).client k = c at hChange hne
  cases hChange with
  | same _ _ => exact absurd rfl hne
  | fresh hk => exact absurd (h.unborn k (Nat.le_of_eq hk.symm)).symm hne
  | recorded _ => exact Or.inl ⟨_, _, _, _, rfl⟩
  | responded hSend =>
    obtain ⟨p, _, hp, hId, -⟩ := ClientMutState.sendEphMemResponse_ok hSend
    exact Or.inr ⟨_, _, _, rfl, p, hp, hId⟩

/-- No thread is about to answer a request whose last response was processed. -/
theorem weigh_replyWeight_eq_zero {s : System} (h : OrderInv s) {id : Nat}
    (hSeen : FinalSeen id s.shared.log)
    (hDone : ∀ u, .upstream u ∈ s.tasks → ¬ u.worksOn id) :
    Machine.weigh (replyWeight id) s.tasks = 0 := by
  refine Machine.weigh_eq_zero fun t ht => ind_false ?_
  rintro ⟨k, size, ha⟩
  match t, ha with
  | .reader ⟨_, _, _, .reply _ _ _⟩, ⟨_, hId, _⟩ =>
    have hNot := h.forwarded _ ht id hSeen
    rw [Task.forwards, decide_eq_false_iff_not] at hNot
    exact hNot hId
  | .upstream (.reply _ _ _), ⟨_, hId, _⟩ => exact hDone _ ht hId

/-- **Every request is answered once.** In every state reached, what was
received for a pending request is the sum of its allocations and at most what
was requested, and a move changes a client only when it records a request at it
or responds to its pending one. If no last response so far was lost, then a
request whose last response was processed is not pending, and one reply was
sent for it, to its client and with the final sum. -/
theorem answered_once {s : System} (h : Reachable s) :
    (∀ k p, (s.shared.client k).pendingRequest = some p →
      p.received = totalSize p.allocations ∧ p.received ≤ p.requested) ∧
    (∀ s' op, daemon.Move s op s' → ∀ k, s'.shared.client k ≠ s.shared.client k →
      (∃ readOn line id n, op = .record readOn line k id n) ∨
        ∃ id more a, op = .respond k id more a ∧ s.shared.Pending k id) ∧
    (ReachableBy Orderly s → ∀ id, FinalSeen id s.shared.log →
      (∀ u, .upstream u ∈ s.tasks → ¬ u.worksOn id) →
        (∀ k, ¬ s.shared.Pending k id) ∧ replies id s.shared.log = 1 ∧
        ∃ readOn line k n size l, Output.recorded readOn line k id n ∈ s.shared.log ∧
          Output.finished k id size l ∈ s.shared.log ∧ size = totalSize l ∧
          Output.replied k id size true ∈ s.shared.log) := by
  have hReq := requestInv_of_reachable h
  refine ⟨fun k p hp => ?_, fun s' op hm k hne => client_changes hReq.list hm hne,
    fun hOrd id hSeen hDone => ?_⟩
  · have hRec := hReq.record.pending k p hp
    exact ⟨hRec.received, hRec.fits⟩
  · have hInv := orderInv_of_reachable hOrd
    have hNot : ∀ k, ¬ s.shared.Pending k id := by
      rintro k ⟨p, hp, rfl⟩
      obtain ⟨u, hUp, hHandled⟩ := hInv.handled
      exact hDone u (List.mem_of_getElem? hUp.here) (hHandled k p hp hSeen).worksOn
    obtain ⟨_, _, _, _, hRecorded⟩ := exists_of_one_le_recordings hSeen.recorded
    have hOne : replies id s.shared.log = 1 :=
      hReq.replies_eq_one hRecorded hNot (weigh_replyWeight_eq_zero hInv hSeen hDone)
    refine ⟨hNot, hOne, ?_⟩
    obtain ⟨k, size, ok, hReplied⟩ := exists_of_one_le_replies (le_of_eq hOne.symm)
    cases hInv.sent k id size ok hReplied
    obtain ⟨l, hFin⟩ := hReq.record.replied k id size true hReplied
    have hAns := hReq.record.finished k id size l hFin
    obtain ⟨readOn, line, n, hRec, -⟩ := hAns.recorded
    exact ⟨readOn, line, k, n, size, l, hRec, hFin, hAns.received, hReplied⟩

/-- A client asks for some chunks. -/
def askFor (chunks : Nat) : List (Label Op Choice) :=
  connect ++ [.task 2 (.line (some (.new .ephMemRequest (some (chunks * granularity)) none))),
    .task 2 .go, .task 2 .go, .task 2 .go, .task 2 (.outcome true)]

/-- A response to it is read. -/
def readResponse (a : Nat × Nat) (more : Bool) : Label Op Choice :=
  .task 1 (.line (some (.response (some 0) a more)))

/-- Two chunks in two responses: each time the device is created and the client
found, the second time it is answered. -/
def answeredRun : List (Label Op Choice) :=
  askFor 2 ++
    [readResponse (granularity, 0) true, .task 1 (.outcome true), .task 1 .go, .task 1 .go,
      readResponse (granularity, granularity) false, .task 1 (.outcome true), .task 1 .go,
      .task 1 .go, .task 1 (.outcome true)]

theorem answeredRun_orderly : (daemon.runIf (fun s op => decide (Orderly s op)) initSystem
    answeredRun).isSome = true := by decide +kernel

theorem answered_once_two :
    Output.replied 2 0 (2 * granularity) true ∈ (daemonAfter answeredRun).shared.log ∧
    (∀ k, ¬ (daemonAfter answeredRun).shared.Pending k 0) ∧
    replies 0 (daemonAfter answeredRun).shared.log = 1 := by
  have hOrd := reachableBy_daemonAfter answeredRun_orderly
  have hSeen : FinalSeen 0 (daemonAfter answeredRun).shared.log := by decide +kernel
  have hTasks : (daemonAfter answeredRun).tasks =
      [.listener .idle, .upstream .reading, .reader ⟨2, 5, 1, .reading⟩] := by decide +kernel
  have hAll := (answered_once (s := daemonAfter answeredRun)
    (hOrd.mono fun _ _ _ => trivial)).2.2 hOrd 0 hSeen (not_worksOn_of_reading 0 hTasks (by simp))
  exact ⟨by decide +kernel, hAll.1, hAll.2.1⟩

/-- The only response. -/
def lostRun : List (Label Op Choice) := askFor 1 ++ [readResponse (0, 0) false]

/-- The last response has size 0 and is dropped: the request stays pending, no
reply is sent and none is on its way. -/
theorem last_response_lost :
    Reachable (daemonAfter lostRun) ∧
    FinalSeen 0 (daemonAfter lostRun).shared.log ∧
    (daemonAfter lostRun).tasks =
      [.listener .idle, .upstream .reading, .reader ⟨2, 5, 1, .reading⟩] ∧
    ((daemonAfter lostRun).shared.client 2).pendingRequest =
      some ⟨0, granularity, 0, []⟩ ∧
    replies 0 (daemonAfter lostRun).shared.log = 0 := by
  refine ⟨reachable_daemonAfter (by decide +kernel), by decide +kernel, by decide +kernel,
    by decide +kernel, by decide +kernel⟩

end EphMemory.Ephemerald
