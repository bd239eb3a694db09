import EphMemory.Ephemerald.Answers

/-!
# Ephemerald — a request and its responses

What `send_consumer_response` emits for a request, read in order: each response
is counted, and the last one, not an earlier one, ends the request.

* `Delivered` — nothing is lost between the orchestrator and the client;
* `Progress` — how far a request has got after a number of responses;
* `DeliveryInv` — a request is as far as the responses handled;
* `responses_accepted` — all are accepted, and the answer is their sum.
-/

namespace EphMemory.Ephemerald

open EphMemory.Lib

def EphAllocation.extent (a : EphAllocation) : Nat × Nat := (a.size, a.offset)

/-- The sizes of a request's allocations are those of their extents. -/
theorem totalSize_eq (l : List EphAllocation) :
    totalSize l = ((l.map EphAllocation.extent).map Prod.fst).sum := by
  unfold totalSize
  rw [List.map_map]
  rfl

def Output.isHeard (id : Nat) : Output → Bool
  | .received cmd => decide (cmd.id = some id)
  | _ => false

/-- How many responses to the request were read. -/
def heard (id : Nat) (log : List Output) : Nat := log.countP (Output.isHeard id)

/-- The thread is about to tell the client that the request was not sent, or
to answer it so. -/
def Task.denies (id : Nat) : Task → Bool
  | .reader ⟨_, _, _, .deny _ id'⟩ => decide (id' = id)
  | .reader ⟨_, _, _, .reply _ id' _⟩ => decide (id' = id)
  | _ => false

/-- Nothing is lost: the request is sent, the responses read for it are those
emitted for the allocations `l`, in order and after it was recorded, their
devices are created, its client stays connected and the answer can be
written. -/
def Delivered (id : Nat) (l : List (Nat × Nat)) (s : System) : Op → Prop
  | .requestEphMem id' _ ok => id' = id → ok = true
  | .receive cmd => cmd.id = some id →
      (sendConsumerResponse (some id) l)[heard id s.shared.log]? = some cmd ∧
        1 ≤ recordings id s.shared.log ∧
        ∀ k < s.shared.nextConn, ∀ p ∈ (s.shared.client k).pendingRequest, p.id = id →
          k ∈ s.shared.clients.values
  | .newDevice id' _ ok => id' = id → ok = true
  | .reply _ id' _ ok => id' = id → ok = true
  | .register pid => ∀ k ∈ s.shared.clients.get? pid,
      ∀ p ∈ (s.shared.client k).pendingRequest, p.id ≠ id
  | .close conn pid => s.shared.clients.get? pid = some conn →
      ∀ p ∈ (s.shared.client conn).pendingRequest, p.id ≠ id
  | _ => True

instance (id : Nat) (l : List (Nat × Nat)) (s : System) (op : Op) :
    Decidable (Delivered id l s op) := by
  induction op using Op.casesOn <;> dsimp only [Delivered] <;> infer_instance

/-- The request was recorded for all the allocations. -/
def Fits (id : Nat) (l : List (Nat × Nat)) (s : Shared) : Prop :=
  ∀ readOn line k n, Output.recorded readOn line k id n ∈ s.log → (l.map Prod.fst).sum ≤ n

/-- How far the request for `n` bytes recorded at `k` is after `m` responses. -/
structure Progress (s : Shared) (id n : Nat) (l : List (Nat × Nat)) (m : Nat) (k : ConnId) :
    Prop where
  pending : m < l.length → ∃ p, (s.client k).pendingRequest = some p ∧ p.id = id ∧
    p.requested = n ∧ p.allocations.map EphAllocation.extent = l.take m
  finished : m = l.length → ∃ as, as.map EphAllocation.extent = l ∧
    Output.finished k id (totalSize as) as ∈ s.log

/-- The upstream thread has a response to the request that is not counted yet. -/
def Upstream.inHand (id : Nat) : Upstream → Nat
  | .device _ _ id' _ => if id' = id then 1 else 0
  | .find id' _ _ => if id' = id then 1 else 0
  | .respond _ id' _ _ => if id' = id then 1 else 0
  | _ => 0

/-- All clients that wait for the request are listed. -/
def Shared.Waiting (s : Shared) (id : Nat) : Prop := ∀ k, s.Pending k id → k ∈ s.clients.values

/-- The response the thread has is the one after the first `m`. -/
def Upstream.Carries (s : Shared) (id : Nat) (l : List (Nat × Nat)) (m : Nat) : Upstream → Prop
  | .device size offset id' more => id' = id →
    l[m]? = some (size, offset) ∧ more = decide (m + 1 < l.length) ∧ s.Waiting id
  | .find id' more a => id' = id →
    l[m]? = some a.extent ∧ more = decide (m + 1 < l.length) ∧ s.Waiting id
  | .respond k id' more a => id' = id →
    l[m]? = some a.extent ∧ more = decide (m + 1 < l.length) ∧ s.Pending k id
  | _ => True

-- ---------------------------------------------------------------------------
-- What is heard
-- ---------------------------------------------------------------------------

/-- A response to the request counts. -/
theorem heard_receive {id : Nat} {cmd : ConsumerCommand} (s : Shared) (h : cmd.id = some id) :
    heard id ((Op.receive cmd).exec s).log = heard id s.log + 1 := by
  show List.countP _ (.received cmd :: s.log) = _
  rw [List.countP_cons_of_pos]
  · rfl
  · simp [Output.isHeard, h]

/-- No other operation counts as a response to the request. -/
theorem heard_other {id : Nat} {op : Op} (s : Shared)
    (h : ∀ cmd, op = .receive cmd → cmd.id ≠ some id) :
    heard id (op.exec s).log = heard id s.log := by
  unfold heard
  rw [log_exec, List.countP_append, Nat.add_eq_right, List.countP_eq_zero]
  intro o ho
  cases emits_of_mem ho with
  | @received cmd => simpa [Output.isHeard] using h cmd rfl
  | _ => simp [Output.isHeard]

-- ---------------------------------------------------------------------------
-- One response
-- ---------------------------------------------------------------------------

/-- The next response fits. -/
theorem take_add_le {l : List (Nat × Nat)} {m n : Nat} {a : Nat × Nat} (ha : l[m]? = some a)
    (hFits : (l.map Prod.fst).sum ≤ n) : ((l.take m).map Prod.fst).sum + a.1 ≤ n := by
  obtain ⟨hm, rfl⟩ := List.getElem?_eq_some_iff.mp ha
  have hSplit : l = l.take m ++ l[m] :: l.drop (m + 1) := by
    rw [List.getElem_cons_drop, List.take_append_drop]
  have hSum : (l.map Prod.fst).sum =
      ((l.take m).map Prod.fst).sum + (l[m].1 + ((l.drop (m + 1)).map Prod.fst).sum) := by
    conv_lhs => rw [hSplit]
    rw [List.map_append, List.map_cons, List.sum_append, List.sum_cons]
  omega

/-- A response that fits is counted; the last one ends the request. -/
theorem Progress.respond {s : Shared} {id n : Nat} {l : List (Nat × Nat)} {m : Nat} {k : ConnId}
    {a : EphAllocation} (h : Progress s id n l m k) (hRec : ∀ p,
      (s.client k).pendingRequest = some p → p.received = totalSize p.allocations)
    (ha : l[m]? = some a.extent) (hFits : (l.map Prod.fst).sum ≤ n) :
    Progress ((Op.respond k id (decide (m + 1 < l.length)) (some a)).exec s) id n l (m + 1) k := by
  obtain ⟨hm, hGet⟩ := List.getElem?_eq_some_iff.mp ha
  obtain ⟨p, hp, hId, hReq, hAs⟩ := h.pending hm
  have hFits : ¬ a.size > p.requested - p.received := by
    have hLe := take_add_le ha hFits
    rw [← hAs, ← totalSize_eq, ← hRec p hp, ← hReq] at hLe
    have hSize : a.extent.1 = a.size := rfl
    omega
  have hCount : p.count (some a) =
      .ok { p with received := p.received + a.size, allocations := p.allocations ++ [a] } := by
    simp only [PendingRequest.count]
    rw [if_neg hFits]
  have hTake : (p.allocations ++ [a]).map EphAllocation.extent = l.take (m + 1) := by
    rw [List.map_append, hAs, List.map_singleton, List.take_add_one, ha]
    rfl
  have hSend := ClientMutState.sendEphMemResponse_of_count (m := decide (m + 1 < l.length))
    hp hId hCount
  refine ⟨fun hLt => ?_, fun heq => ?_⟩
  · rw [decide_eq_true hLt, if_pos rfl] at hSend
    rw [decide_eq_true hLt, client_exec_respond hSend]
    exact ⟨_, rfl, hId, hReq, hTake⟩
  · have hNot : decide (m + 1 < l.length) = false := decide_eq_false (by omega)
    have hLog := (mem_log_respond (m := decide (m + 1 < l.length)) hp hId hCount).2 hNot
    refine ⟨p.allocations ++ [a], ?_, ?_⟩
    · rw [hTake, heq, List.take_length]
    · have hTotal : totalSize (p.allocations ++ [a]) = p.received + a.size := by
        rw [hRec p hp]
        simp [totalSize]
      rw [hTotal]
      exact hLog

/-- A move that leaves the client's request alone leaves its progress. -/
theorem Progress.exec {s : Shared} {id n : Nat} {l : List (Nat × Nat)} {m : Nat} {k : ConnId}
    {op : Op} (h : Progress s id n l m k)
    (hKeep : ∀ p, (s.client k).pendingRequest = some p → p.id = id →
      ((op.exec s).client k).pendingRequest = some p) :
    Progress (op.exec s) id n l m k := by
  refine ⟨fun hm => ?_, fun heq => ?_⟩
  · obtain ⟨p, hp, hId, hRest⟩ := h.pending hm
    exact ⟨p, hKeep p hp hId, hId, hRest⟩
  · obtain ⟨as, hAs, hFin⟩ := h.finished heq
    exact ⟨as, hAs, mem_log_exec_of_mem hFin⟩

/-- A pending request stays, unless a response to it is handled. -/
theorem pending_kept {s : System} {op : Op} (hList : ListInv s) {k : ConnId}
    {p : PendingRequest} (hp : (s.shared.client k).pendingRequest = some p)
    (hOp : ∀ more a, op ≠ .respond k p.id more a) :
    ((op.exec s.shared).client k).pendingRequest = some p := by
  have hChange := clientChange_exec op s.shared k
  generalize (op.exec s.shared).client k = c at hChange ⊢
  cases hChange with
  | same _ _ => exact hp
  | fresh hk =>
    rw [hList.unborn k (Nat.le_of_eq hk.symm)] at hp
    cases hp
  | recorded hNone =>
    rw [hNone] at hp
    cases hp
  | responded hSend =>
    obtain ⟨q, _, hq, hId, -⟩ := ClientMutState.sendEphMemResponse_ok hSend
    cases hp.symm.trans hq
    exact absurd (by rw [hId]) (hOp _ _)

-- ---------------------------------------------------------------------------
-- The upstream thread's moves
-- ---------------------------------------------------------------------------

/-- A response to another request brings nothing for this one. -/
theorem dispatch_of_other {id : Nat} {cmd : ConsumerCommand} (s : Shared)
    (l : List (Nat × Nat)) (m : Nat) (h : cmd.id ≠ some id) :
    (Upstream.dispatch cmd).inHand id = 0 ∧ (Upstream.dispatch cmd).Carries s id l m := by
  unfold Upstream.dispatch
  split
  · exact ⟨rfl, trivial⟩
  · split
    · rename_i id' _ _ hId
      split
      · exact ⟨rfl, trivial⟩
      · have hne : id' ≠ id := fun heq => h (heq ▸ hId)
        exact ⟨if_neg hne, fun heq => absurd heq hne⟩
    · exact ⟨rfl, trivial⟩

/-- A response with a size goes to the device first. -/
theorem dispatch_response {id : Nat} {a : Nat × Nat} (more : Bool) (h : a.1 ≠ 0) :
    Upstream.dispatch (.response (some id) a more) = .device a.1 a.2 id more := by
  show (if a.1 = 0 then Upstream.reading else .device a.1 a.2 id more) = _
  rw [if_neg h]

/-- What this operation does not record was recorded before. -/
theorem recorded_old {op : Op} {s : Shared} {readOn k : ConnId} {line id n : Nat}
    (h : Output.recorded readOn line k id n ∈ (op.exec s).log)
    (hOp : op ≠ .record readOn line k id n) : Output.recorded readOn line k id n ∈ s.log := by
  rcases mem_log_exec h with hEmit | hOld
  · cases hEmit
    exact absurd rfl hOp
  · exact hOld

/-- How far the responses are: `m` handled, one perhaps in the thread's hands. -/
structure Handled (id : Nat) (l : List (Nat × Nat)) (u : Upstream) (m : Nat) (s : Shared) :
    Prop where
  count : heard id s.log = m + u.inHand id
  bound : heard id s.log ≤ l.length
  carries : u.Carries s id l m
  progress : ∀ readOn line k n, Output.recorded readOn line k id n ∈ s.log →
    Progress s id n l m k

/-- A response to another request leaves this one alone. -/
theorem Handled.respond_other {id : Nat} {l : List (Nat × Nat)} {u u' : Upstream} {m : Nat}
    {s : System} (h : Handled id l u m s.shared) (hList : ListInv s) {k : ConnId} {id' : Nat}
    {more : Bool} {a : Option EphAllocation} (hne : id' ≠ id) (hu : u.inHand id = 0)
    (hu' : u'.inHand id = 0)
    (hCarry : u'.Carries ((Op.respond k id' more a).exec s.shared) id l m) :
    Handled id l u' m ((Op.respond k id' more a).exec s.shared) := by
  have hHeard : heard id ((Op.respond k id' more a).exec s.shared).log = heard id s.shared.log :=
    heard_other s.shared (by intro cmd hcmd; cases hcmd)
  refine ⟨?_, ?_, hCarry, fun readOn line k' n hRec => ?_⟩
  · rw [hHeard, h.count, hu, hu']
  · rw [hHeard]
    exact h.bound
  · refine (h.progress readOn line k' n (recorded_old hRec nofun)).exec fun p hp hId => ?_
    refine pending_kept hList hp ?_
    rintro more' a' heq
    cases heq
    exact hne hId

/-- The thread counts the response it has. -/
theorem Handled.respond {id : Nat} {l : List (Nat × Nat)} {u' : Upstream} {m : Nat}
    {s : System} {k : ConnId} {more : Bool} {a : EphAllocation}
    (h : Handled id l (.respond k id more a) m s.shared) (hReq : RequestInv s)
    (hFits : Fits id l s.shared) (hu' : u'.inHand id = 0)
    (hCarry : ∀ s, u'.Carries s id l (m + 1)) :
    Handled id l u' (m + 1) ((Op.respond k id more (some a)).exec s.shared) := by
  obtain ⟨hGet, rfl, hPending⟩ := h.carries rfl
  have hHeard : heard id ((Op.respond k id (decide (m + 1 < l.length)) (some a)).exec
      s.shared).log = heard id s.shared.log :=
    heard_other s.shared (by intro cmd hcmd; cases hcmd)
  have hHand : (Upstream.respond k id (decide (m + 1 < l.length)) a).inHand id = 1 := if_pos rfl
  refine ⟨?_, ?_, hCarry _, fun readOn line k' n hRec => ?_⟩
  · rw [hHeard, h.count, hHand, hu']
  · rw [hHeard]
    exact h.bound
  · have hOld := recorded_old hRec nofun
    obtain ⟨p, hp, hId⟩ := hPending
    obtain ⟨_, _, hRec'⟩ := (hReq.record.pending k p hp).recorded
    rw [hId] at hRec'
    obtain rfl : k = k' := (recorded_unique hReq.ids hRec' hOld).2.2.1
    exact (h.progress readOn line k n hOld).respond
      (fun q hq => (hReq.record.pending k q hq).received) hGet (hFits readOn line k n hOld)

/-- The thread that handles the responses takes them one after the other and counts each. -/
theorem Upstream.Step.handled {id : Nat} {l : List (Nat × Nat)} {u u' : Upstream} {m : Nat}
    {s : System} {op : Op} (hu : Upstream.Step s.shared u op u')
    (h : Handled id l u m s.shared) (hReq : RequestInv s)
    (hRecorded : 1 ≤ heard id s.shared.log → 1 ≤ recordings id s.shared.log)
    (ha : Delivered id l s op) (hPos : ∀ a ∈ l, a.1 ≠ 0) (hFits : Fits id l s.shared) :
    ∃ m', Handled id l u' m' (op.exec s.shared) := by
  cases hu with
  | ignored => exact ⟨m, h⟩
  | @receive cmd =>
    have hProgress : ∀ readOn line k n, Output.recorded readOn line k id n ∈
        ((Op.receive cmd).exec s.shared).log →
          Progress ((Op.receive cmd).exec s.shared) id n l m k := fun readOn line k n hRec =>
      (h.progress readOn line k n (recorded_old hRec (by simp))).exec fun p hp _ => hp
    by_cases hId : cmd.id = some id
    · -- the next response that was sent
      obtain ⟨hNext, -, hListed⟩ := ha hId
      have hCount : heard id s.shared.log = m := h.count
      rw [hCount, getElem?_sendConsumerResponse] at hNext
      obtain ⟨a, hGet, rfl⟩ := Option.map_eq_some_iff.mp hNext
      obtain ⟨hm, hGetElem⟩ := List.getElem?_eq_some_iff.mp hGet
      have hMem : a ∈ l := List.mem_of_getElem? hGet
      rw [dispatch_response _ (hPos a hMem)]
      refine ⟨m, ?_, ?_, fun _ => ⟨hGet, rfl, ?_⟩, hProgress⟩
      · rw [heard_receive _ rfl, hCount]
        show m + 1 = m + if id = id then 1 else 0
        rw [if_pos rfl]
      · rw [heard_receive _ rfl, hCount]
        exact hm
      · rintro k ⟨p, hp, hpId⟩
        exact hListed k (lt_nextConn_of_pending hReq.list hp) p hp hpId
    · obtain ⟨hHand, hCarry⟩ := dispatch_of_other ((Op.receive cmd).exec s.shared) l m hId
      have hHeard : heard id ((Op.receive cmd).exec s.shared).log = heard id s.shared.log :=
        heard_other s.shared (by intro cmd' hcmd; cases hcmd; exact hId)
      refine ⟨m, ?_, ?_, hCarry, hProgress⟩
      · rw [hHeard, hHand]
        exact h.count
      · rw [hHeard]
        exact h.bound
  | created =>
    exact ⟨m, h.count, h.bound, h.carries, fun readOn line k n hRec =>
      (h.progress readOn line k n hRec).exec fun p hp _ => hp⟩
  | @notCreated size offset id' more =>
    have hne : id' ≠ id := fun heq => Bool.false_ne_true (ha heq)
    have hCount := h.count
    rw [show (Upstream.device size offset id' more).inHand id = 0 from if_neg hne] at hCount
    exact ⟨m, hCount, h.bound, trivial, fun readOn line k n hRec =>
      (h.progress readOn line k n hRec).exec fun p hp _ => hp⟩
  | found hFound =>
    refine ⟨m, h.count, h.bound, fun heq => ?_, h.progress⟩
    obtain ⟨hGet, hMore, -⟩ := h.carries heq
    subst heq
    exact ⟨hGet, hMore, pending_of_findClient hFound⟩
  | @notFound id' more a hNone =>
    by_cases hne : id' = id
    · -- the client that waits for the request is listed
      subst hne
      obtain ⟨hGet, -, hWaiting⟩ := h.carries rfl
      have hCount := h.count
      rw [show (Upstream.find id' more a).inHand id' = 1 from if_pos rfl] at hCount
      obtain ⟨readOn, line, k, n, ho⟩ := exists_of_one_le_recordings (hRecorded (by omega))
      obtain ⟨p, hp, rfl, -⟩ := (h.progress readOn line k n ho).pending
        (List.getElem?_eq_some_iff.mp hGet).1
      exact absurd hNone (findClient_ne_none hp (hWaiting k ⟨p, hp, rfl⟩))
    · have hCount := h.count
      rw [show (Upstream.find id' more a).inHand id = 0 from if_neg hne] at hCount
      exact ⟨m, hCount, h.bound, trivial, h.progress⟩
  | @finished k id' size more a c hSend =>
    by_cases hne : id' = id
    · subst hne
      exact ⟨m + 1, h.respond hReq hFits rfl fun _ => trivial⟩
    · exact ⟨m, h.respond_other hReq.list hne (if_neg hne) rfl trivial⟩
  | @counted k id' more a hNot =>
    by_cases hne : id' = id
    · subst hne
      exact ⟨m + 1, h.respond hReq hFits rfl fun _ => trivial⟩
    · exact ⟨m, h.respond_other hReq.list hne (if_neg hne) rfl trivial⟩
  | @replied k id' size ok =>
    have hHeard : heard id ((Op.reply k id' size ok).exec s.shared).log = heard id s.shared.log :=
      heard_other s.shared (by intro cmd hcmd; cases hcmd)
    refine ⟨m, hHeard.trans h.count, hHeard ▸ h.bound, trivial, fun readOn line k' n hRec => ?_⟩
    exact (h.progress readOn line k' n (recorded_old hRec (by simp))).exec fun p hp _ => hp

-- ---------------------------------------------------------------------------
-- The other threads' moves
-- ---------------------------------------------------------------------------

/-- No other thread denies, records anew or unlists the request. -/
theorem waiting_exec {id : Nat} {l : List (Nat × Nat)} {s : System} {op : Op}
    (h : s.shared.Waiting id) (hReq : RequestInv s) (ha : Delivered id l s op)
    (hOp : ∀ readOn line k n, op ≠ .record readOn line k id n) :
    (op.exec s.shared).Waiting id := by
  intro k hk
  have hOld : s.shared.Pending k id := by
    rcases (pending_exec op s.shared (hReq.list.unborn _ (Nat.le_refl _)) k id).mp hk with
      ⟨readOn, line, n, heq, -⟩ | ⟨hOld, -⟩
    · exact absurd heq (hOp readOn line k n)
    · exact hOld
  obtain ⟨pid, hpid⟩ := OrdMap.mem_values_iff.mp (h k hOld)
  obtain ⟨p, hp, hId⟩ := hOld
  refine OrdMap.mem_values_iff.mpr ⟨pid, ?_⟩
  rcases clients_exec op s.shared with ⟨pid', rfl, hEq⟩ | ⟨conn, pid', rfl, hIn, hEq⟩ | ⟨-, hEq⟩
  · rw [hEq, OrdMap.get?_insert]
    by_cases heq : pid = pid'
    · subst heq
      exact absurd hId (ha k hpid p hp)
    · rw [if_neg heq]
      exact hpid
  · rw [hEq, OrdMap.get?_erase]
    by_cases heq : pid = pid'
    · subst heq
      cases Option.some.inj (hIn.symm.trans hpid)
      exact absurd hId (ha hIn p hp)
    · rw [if_neg heq]
      exact hpid
  · rw [hEq]
    exact hpid

/-- What the upstream thread carries it still carries after another's move. -/
theorem Upstream.Carries.exec {id : Nat} {l : List (Nat × Nat)} {m : Nat} {u : Upstream}
    {s : System} {op : Op} (h : u.Carries s.shared id l m) (hReq : RequestInv s)
    (ha : Delivered id l s op) (hRecord : u.inHand id = 1 →
      ∀ readOn line k n, op ≠ .record readOn line k id n)
    (hRespond : ∀ k more a, op ≠ .respond k id more a) :
    u.Carries (op.exec s.shared) id l m := by
  match u, h with
  | .device size offset id' more, h =>
    intro heq
    obtain ⟨hGet, hMore, hWait⟩ := h heq
    exact ⟨hGet, hMore, waiting_exec hWait hReq ha (hRecord (if_pos heq))⟩
  | .find id' more a, h =>
    intro heq
    obtain ⟨hGet, hMore, hWait⟩ := h heq
    exact ⟨hGet, hMore, waiting_exec hWait hReq ha (hRecord (if_pos heq))⟩
  | .respond k id' more a, h =>
    intro heq
    obtain ⟨hGet, hMore, p, hp, hId⟩ := h heq
    refine ⟨hGet, hMore, p, pending_kept hReq.list hp ?_, hId⟩
    rw [hId]
    exact hRespond k
  | .reading, _ => trivial
  | .reply _ _ _, _ => trivial

/-- The responses of the other threads are denials. -/
theorem Task.Step.denies_of_respond {s : Shared} {t t' : Task} {started : List Task} {k : ConnId}
    {id : Nat} {more : Bool} {a : Option EphAllocation}
    (h : Task.Step s t (.respond k id more a) t' started) (hOther : ∀ v, t ≠ .upstream v) :
    t.denies id = true := by
  cases h with
  | listener hl => cases hl
  | upstream _ => exact absurd rfl (hOther _)
  | reader hr => cases hr <;> exact decide_eq_true rfl

/-- What the other threads do leaves the responses counted. -/
theorem Task.Step.handled_of_others {id : Nat} {l : List (Nat × Nat)} {u : Upstream} {m : Nat}
    {s : System} {t t' : Task} {op : Op} {started : List Task}
    (hs : Task.Step s.shared t op t' started) (ht : t ∈ s.tasks)
    (hOther : ∀ v, t ≠ .upstream v) (h : Handled id l u m s.shared) (hReq : RequestInv s)
    (hRecorded : 1 ≤ heard id s.shared.log → 1 ≤ recordings id s.shared.log)
    (hDenies : t.denies id = false) (ha : Delivered id l s op) (hL : l ≠ []) :
    Handled id l u m (op.exec s.shared) := by
  have hReceive : ∀ cmd, op ≠ .receive cmd := by
    rintro cmd rfl
    cases hs with
    | listener hl => cases hl
    | reader hr => cases hr
    | upstream _ => exact hOther _ rfl
  have hRespond : ∀ k more a, op ≠ .respond k id more a := by
    rintro k more a rfl
    rw [hs.denies_of_respond hOther] at hDenies
    cases hDenies
  -- a request is recorded before any response to it is read
  have hRecord : ∀ readOn line k n, op = .record readOn line k id n → heard id s.shared.log = 0 := by
    rintro readOn line k n rfl
    have hZero := not_recorded_of_carries hReq.ids ht hs.carries_of_record
    by_contra hne
    have hOne := hRecorded (Nat.one_le_iff_ne_zero.mpr hne)
    omega
  have hHeard : heard id (op.exec s.shared).log = heard id s.shared.log :=
    heard_other s.shared fun cmd hcmd => absurd hcmd (hReceive cmd)
  refine ⟨hHeard.trans h.count, hHeard ▸ h.bound, h.carries.exec hReq ha ?_ hRespond, ?_⟩
  · intro hHand readOn line k n heq
    have hZero := hRecord readOn line k n heq
    have hCount := h.count
    omega
  · intro readOn line k n hRec
    rcases mem_log_exec hRec with hEmit | hOld
    · cases hEmit with
      | recorded hNone =>
        have hZero := hRecord readOn line k n rfl
        have hm : m = 0 := by
          have hCount := h.count
          omega
        subst hm
        refine ⟨fun _ => ⟨⟨id, n, 0, []⟩, ?_, rfl, rfl, by rw [List.take_zero]; rfl⟩, fun heq => ?_⟩
        · simp [Op.exec, ClientMutState.record_eq, hNone, Shared.setClient, Shared.emit]
        · exact absurd (List.eq_nil_of_length_eq_zero heq.symm) hL
    · refine (h.progress readOn line k n hOld).exec fun p hp hId => pending_kept hReq.list hp ?_
      rw [hId]
      exact hRespond k

-- ---------------------------------------------------------------------------
-- Along a run
-- ---------------------------------------------------------------------------

structure DeliveryInv (id : Nat) (l : List (Nat × Nat)) (s : System) : Prop where
  handled : Fits id l s.shared → ∃ u m, HasUpstream s u ∧ Handled id l u m s.shared
  recorded : 1 ≤ heard id s.shared.log → 1 ≤ recordings id s.shared.log
  denies : ∀ t ∈ s.tasks, t.denies id = false
  sent : ∀ k size ok, Output.replied k id size ok ∈ s.shared.log → ok = true

/-- A request is denied when the orchestrator refuses it. -/
theorem Task.Step.denies_cases {s : Shared} {t t' : Task} {op : Op} {started : List Task}
    {id : Nat} (h : Task.Step s t op t' started) (hd : t'.denies id = true) :
    t.denies id = true ∨ ∃ n, op = .requestEphMem id n false := by
  cases h with
  | listener _ => cases hd
  | upstream _ => cases hd
  | reader hr =>
    cases hr with
    | forwardFailed =>
      cases of_decide_eq_true hd
      exact Or.inr ⟨_, rfl⟩
    | denied _ => exact Or.inl hd
    | _ => cases hd

/-- No thread starts with a request to deny. -/
theorem Task.Step.not_denies_started {s : Shared} {t t' : Task} {op : Op} {started : List Task}
    (h : Task.Step s t op t' started) (id : Nat) : ∀ u ∈ started, u.denies id = false := by
  intro u hu
  cases h with
  | listener hl =>
    obtain ⟨r, hr, rfl⟩ := List.mem_map.mp hu
    cases hl with
    | register =>
      rw [List.mem_singleton.mp hr]
      rfl
    | _ => cases hr
  | reader _ => cases hu
  | upstream _ => cases hu

/-- The invariant holds on while nothing is lost. -/
theorem DeliveryInv.move {id : Nat} {l : List (Nat × Nat)} {s s' : System} {op : Op}
    (h : DeliveryInv id l s) (hReq : RequestInv s) (hm : daemon.Move s op s')
    (ha : Delivered id l s op) (hL : l ≠ []) (hPos : ∀ a ∈ l, a.1 ≠ 0) : DeliveryInv id l s' := by
  have hShared : s'.shared = op.exec s.shared := hm.shared_eq
  refine ⟨fun hFits' => ?_, ?_, ?_, ?_⟩
  · have hFits : Fits id l s.shared := fun readOn line k n hRec =>
      hFits' readOn line k n (by rw [hShared]; exact mem_log_exec_of_mem hRec)
    obtain ⟨u, m, hUp, hHandled⟩ := h.handled hFits
    rw [hShared]
    rcases hUp.move hm with ⟨u', hUp', hu⟩ | ⟨hUp', t, t', started, ht, hOther, hs⟩
    · obtain ⟨m', hHandled'⟩ := hu.handled hHandled hReq h.recorded ha hPos hFits
      exact ⟨u', m', hUp', hHandled'⟩
    · exact ⟨u, m, hUp', hs.handled_of_others ht hOther hHandled hReq h.recorded
        (h.denies t ht) ha hL⟩
  · rw [hShared]
    intro hOne
    have hMono := recordings_append_le id (op.outputs s.shared) s.shared.log
    rw [← log_exec] at hMono
    by_cases hOp : ∃ cmd, op = .receive cmd ∧ cmd.id = some id
    · obtain ⟨cmd, rfl, hId⟩ := hOp
      exact le_trans (ha hId).2.1 hMono
    · rw [heard_other s.shared fun cmd hcmd hId => hOp ⟨cmd, hcmd, hId⟩] at hOne
      exact le_trans (h.recorded hOne) hMono
  · refine forall_tasks (J := fun _ t => t.denies id = false) hm h.denies
      (fun t t' started ht hs => ⟨?_, hs.not_denies_started id⟩) (fun u _ hu => hu)
    by_contra hd
    rw [Bool.not_eq_false] at hd
    rcases hs.denies_cases hd with hOld | ⟨n, rfl⟩
    · rw [h.denies t ht] at hOld
      cases hOld
    · exact Bool.false_ne_true (ha rfl)
  · rw [hShared]
    intro k size ok hr
    rcases mem_log_exec hr with hEmit | hOld
    · cases hEmit
      exact ha rfl
    · exact h.sent k size ok hOld

theorem deliveryInv_init (id : Nat) (l : List (Nat × Nat)) : DeliveryInv id l initSystem := by
  refine ⟨fun _ => ⟨.reading, 0, hasUpstream_init, rfl, Nat.zero_le _, trivial, nofun⟩,
    fun h => absurd h (Nat.not_succ_le_zero 0), fun t ht => ?_, nofun⟩
  rcases List.mem_cons.mp ht with rfl | ht
  · rfl
  · rw [List.mem_singleton.mp ht]
    rfl

theorem deliveryInv_of_reachable {id : Nat} {l : List (Nat × Nat)} {s : System}
    (h : ReachableBy (Delivered id l) s) (hL : l ≠ []) (hPos : ∀ a ∈ l, a.1 ≠ 0) :
    DeliveryInv id l s := by
  have hBoth := h.invariant (I := fun s => RequestInv s ∧ DeliveryInv id l s)
    (fun _ _ _ hI hm ha => ⟨hI.1.move hm, hI.2.move hI.1 hm ha hL hPos⟩)
    ⟨requestInv_init, deliveryInv_init id l⟩
  exact hBoth.2

/-- A request is recorded once. -/
theorem fits_of_recorded {id : Nat} {l : List (Nat × Nat)} {s : System} (h : RequestInv s)
    {readOn k : ConnId} {line n : Nat}
    (hRec : Output.recorded readOn line k id n ∈ s.shared.log) (hFits : (l.map Prod.fst).sum ≤ n) :
    Fits id l s.shared := by
  intro readOn' line' k' n' hRec'
  rw [(recorded_unique h.ids hRec' hRec).2.2.2]
  exact hFits

/-- The request at hand is not being worked on, so no thread is about to answer
it. -/
theorem DeliveryInv.weigh_replyWeight {id : Nat} {l : List (Nat × Nat)} {s : System}
    (h : DeliveryInv id l s) (hDone : ∀ u, .upstream u ∈ s.tasks → ¬ u.worksOn id) :
    Machine.weigh (replyWeight id) s.tasks = 0 := by
  refine Machine.weigh_eq_zero fun t ht => ind_false ?_
  rintro ⟨k, size, ha⟩
  match t, ha with
  | .reader ⟨_, _, _, .reply _ _ _⟩, ⟨_, hId, _⟩ =>
    have hNot := h.denies _ ht
    rw [Task.denies, decide_eq_false_iff_not] at hNot
    exact hNot hId
  | .upstream (.reply _ _ _), ⟨_, hId, _⟩ => exact hDone _ ht hId

/-- A thread that works on another request has nothing of this one in its hand. -/
theorem Upstream.inHand_eq_zero {id : Nat} {u : Upstream} (h : ¬ u.worksOn id) :
    u.inHand id = 0 := by
  match u, h with
  | .device _ _ _ _, h => exact if_neg h
  | .find _ _ _, h => exact if_neg h
  | .respond _ _ _ _, h => exact if_neg h
  | .reading, _ => rfl
  | .reply _ _ _, _ => rfl

-- ---------------------------------------------------------------------------
-- A response is handled
-- ---------------------------------------------------------------------------

/-- A move the upstream thread can make. -/
theorem HasUpstream.step {s : System} {u u' : Upstream} {op : Op} {ch : Choice}
    (h : HasUpstream s u) (hn : u.next s.shared ch = some (op, u')) :
    ∃ s', daemon.Move s op s' ∧ HasUpstream s' u' := by
  have hNext : daemon.next 1 s.shared (.upstream u) ch = some (op, .upstream u', []) := by
    show (u.next s.shared ch).map _ = _
    rw [hn]
    rfl
  have hLt := (List.getElem?_eq_some_iff.mp h.here).1
  refine ⟨_, .task h.here hNext, ?_, fun i v hv => ?_⟩
  · show (s.tasks.set 1 (.upstream u') ++ [])[1]? = _
    rw [List.append_nil, List.getElem?_set_self hLt]
  · rcases Machine.getElem?_set_append hv with ⟨rfl, -⟩ | hv | hv
    · rfl
    · exact h.only i v hv
    · cases hv

/-- Where the upstream thread's own moves lead: back to reading, with nothing
read in between and nothing lost. -/
def Returns (id : Nat) (l : List (Nat × Nat)) (s : System) : Prop :=
  ∃ s', daemon.Steps (Delivered id l) s s' ∧ HasUpstream s' .reading ∧
    heard id s'.shared.log = heard id s.shared.log ∧ ∀ o ∈ s.shared.log, o ∈ s'.shared.log

/-- From where a delivered step leads, the thread gets back to reading; so it
does from before. -/
theorem returns_of_step {id : Nat} {l : List (Nat × Nat)} {s : System} {u u' : Upstream}
    {op : Op} {c : Choice} (hUp : HasUpstream s u) (hn : u.next s.shared c = some (op, u'))
    (ha : Delivered id l s op) (hOp : ∀ cmd, op ≠ .receive cmd)
    (hNext : ∀ s', HasUpstream s' u' → Returns id l s') : Returns id l s := by
  obtain ⟨s', hm, hUp'⟩ := hUp.step hn
  obtain ⟨s'', hSteps, hReading, hHeard, hLog⟩ := hNext s' hUp'
  have hShared : s'.shared = op.exec s.shared := hm.shared_eq
  rw [hShared] at hHeard hLog
  refine ⟨s'', Machine.Steps.trans (.tail .refl hm ha) hSteps, hReading, ?_,
    fun o ho => hLog o (mem_log_exec_of_mem ho)⟩
  rw [hHeard, heard_other s.shared fun cmd hcmd => absurd hcmd (hOp cmd)]

/-- The upstream thread is never stuck with a response: its own moves, with the
device created and the reply written, take it back to reading. -/
theorem upstream_returns (id : Nat) (l : List (Nat × Nat)) (u : Upstream) (s : System)
    (hUp : HasUpstream s u) : Returns id l s := by
  have hReading : ∀ s, HasUpstream s .reading → Returns id l s := fun s hUp =>
    ⟨s, .refl, hUp, rfl, fun _ ho => ho⟩
  have hReply : ∀ k id' size s, HasUpstream s (.reply k id' size) → Returns id l s :=
    fun k id' size s hUp =>
      returns_of_step (c := .outcome true) hUp rfl (fun _ => rfl) (by simp) hReading
  have hRespond : ∀ k id' more a s, HasUpstream s (.respond k id' more a) → Returns id l s := by
    intro k id' more a s hUp
    cases hSend : (s.shared.client k).sendEphMemResponse id' more (some a) with
    | error e =>
      have hn : (Upstream.respond k id' more a).next s.shared .go =
          some (.respond k id' more (some a), .reading) := by rw [Upstream.next, hSend]
      exact returns_of_step hUp hn trivial (by simp) hReading
    | ok r =>
      obtain ⟨c, _ | size⟩ := r
      · have hn : (Upstream.respond k id' more a).next s.shared .go =
            some (.respond k id' more (some a), .reading) := by rw [Upstream.next, hSend]
        exact returns_of_step hUp hn trivial (by simp) hReading
      · have hn : (Upstream.respond k id' more a).next s.shared .go =
            some (.respond k id' more (some a), .reply k id' size) := by
          rw [Upstream.next, hSend]
        exact returns_of_step hUp hn trivial (by simp) (hReply k id' size)
  have hFind : ∀ id' more a s, HasUpstream s (.find id' more a) → Returns id l s := by
    intro id' more a s hUp
    cases hFound : s.shared.findClient id' with
    | none =>
      have hn : (Upstream.find id' more a).next s.shared .go = some (.nop, .reading) := by
        rw [Upstream.next, hFound]
      exact returns_of_step hUp hn trivial (by simp) hReading
    | some k =>
      have hn : (Upstream.find id' more a).next s.shared .go =
          some (.nop, .respond k id' more a) := by
        rw [Upstream.next, hFound]
      exact returns_of_step hUp hn trivial (by simp) (hRespond k id' more a)
  cases u with
  | reading => exact hReading s hUp
  | reply k id' size => exact hReply k id' size s hUp
  | respond k id' more a => exact hRespond k id' more a s hUp
  | find id' more a => exact hFind id' more a s hUp
  | device size offset id' more =>
    exact returns_of_step (c := .outcome true) hUp rfl (fun _ => rfl) (by simp) (hFind _ _ _)

/-- Every reply to the request goes to its client, with the sum of all the
allocations: it was finished, so it is not pending, so all were counted. -/
theorem replied_sum {id : Nat} {l : List (Nat × Nat)} {s : System}
    (h : ReachableBy (Delivered id l) s) (hL : l ≠ []) (hPos : ∀ a ∈ l, a.1 ≠ 0)
    {readOn k k' : ConnId} {line n size : Nat} {ok : Bool}
    (hRec : Output.recorded readOn line k id n ∈ s.shared.log) (hFits : (l.map Prod.fst).sum ≤ n)
    (hReplied : Output.replied k' id size ok ∈ s.shared.log) :
    k' = k ∧ size = (l.map Prod.fst).sum := by
  have hReq := requestInv_of_reachable h
  have hInv := deliveryInv_of_reachable h hL hPos
  obtain ⟨u, m, -, hHandled⟩ := hInv.handled (fits_of_recorded hReq hRec hFits)
  have hProgress := hHandled.progress readOn line k n hRec
  obtain ⟨as', hFin'⟩ := hReq.record.replied k' id size ok hReplied
  have hm : m = l.length := by
    have hCount := hHandled.count
    have hBound := hHandled.bound
    by_contra hne
    obtain ⟨p, hp, hId, -⟩ := hProgress.pending (by omega)
    exact hReq.not_pending_of_finished hFin' ⟨p, hp, hId⟩
  obtain ⟨as, hAs, hFin⟩ := hProgress.finished hm
  obtain ⟨rfl, rfl, -⟩ := hReq.finished_unique hFin' hFin
  rw [← hAs, ← totalSize_eq]
  exact ⟨rfl, rfl⟩

/-- **The responses to a request are accepted.** In every run in which nothing
is lost and the request was recorded for all the allocations, whenever no
response to it is being worked on: as long as responses are to come, the
request is pending with the allocations of those that came; once all came, it
is not pending and one reply was sent, with the sum of them all. -/
theorem responses_accepted {id : Nat} {l : List (Nat × Nat)} {s : System}
    (h : ReachableBy (Delivered id l) s) (hL : l ≠ []) (hPos : ∀ a ∈ l, a.1 ≠ 0)
    {readOn k : ConnId} {line n : Nat}
    (hRec : Output.recorded readOn line k id n ∈ s.shared.log) (hFits : (l.map Prod.fst).sum ≤ n)
    (hDone : ∀ u, .upstream u ∈ s.tasks → ¬ u.worksOn id) :
    heard id s.shared.log ≤ l.length ∧
    (heard id s.shared.log < l.length → ∃ p, (s.shared.client k).pendingRequest = some p ∧
      p.id = id ∧ p.requested = n ∧
      p.allocations.map EphAllocation.extent = l.take (heard id s.shared.log)) ∧
    (heard id s.shared.log = l.length → (∀ k', ¬ s.shared.Pending k' id) ∧
      replies id s.shared.log = 1 ∧
      Output.replied k id (l.map Prod.fst).sum true ∈ s.shared.log) := by
  have hReq := requestInv_of_reachable h
  have hInv := deliveryInv_of_reachable h hL hPos
  obtain ⟨u, m, hUp, hHandled⟩ := hInv.handled (fits_of_recorded hReq hRec hFits)
  have hm : heard id s.shared.log = m := by
    have hCount := hHandled.count
    rw [Upstream.inHand_eq_zero (hDone u (List.mem_of_getElem? hUp.here))] at hCount
    exact hCount
  have hProgress := hHandled.progress readOn line k n hRec
  rw [hm]
  refine ⟨hm ▸ hHandled.bound, hProgress.pending, fun heq => ?_⟩
  obtain ⟨_, -, hFin⟩ := hProgress.finished heq
  have hNot : ∀ k', ¬ s.shared.Pending k' id := fun k' => hReq.not_pending_of_finished hFin
  have hOne := hReq.replies_eq_one hRec hNot (hInv.weigh_replyWeight hDone)
  refine ⟨hNot, hOne, ?_⟩
  obtain ⟨k', size, ok, hReplied⟩ := exists_of_one_le_replies (le_of_eq hOne.symm)
  cases hInv.sent k' size ok hReplied
  obtain ⟨rfl, rfl⟩ := replied_sum h hL hPos hRec hFits hReplied
  exact hReplied

end EphMemory.Ephemerald
