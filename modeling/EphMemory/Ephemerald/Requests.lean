import EphMemory.Ephemerald.Steps
import EphMemory.Lib.Count

/-!
# Ephemerald — the life of a request

A request id is taken once, recorded at most once, finished at most once and
answered once for each time it is finished. These are the laws the daemon keeps
whatever the orchestrator and the clients send.

* `idLaw` — an id is recorded at most once, and not while a thread still
  carries it;
* `RecordInv` — what is pending, finished or answered is on record, with its sum;
* `openLaw` — what was recorded is pending or finished;
* `replyLaw` — what was finished is answered or about to be;
* `RequestInv` — all of it, along every run.
-/

namespace EphMemory.Ephemerald

open EphMemory.Lib

-- ---------------------------------------------------------------------------
-- What exists
-- ---------------------------------------------------------------------------

/-- The clients a thread works with exist. -/
def Task.Known (s : Shared) : Task → Prop
  | .reader ⟨k, _, _, .takeId k' _⟩ => k < s.nextConn ∧ k' < s.nextConn
  | .reader ⟨k, _, _, .handle k' _ _⟩ => k < s.nextConn ∧ k' < s.nextConn
  | .reader ⟨k, _, _, _⟩ => k < s.nextConn
  | _ => True

/-- A reader's connection was accepted. -/
theorem Task.Known.conn_lt {s : Shared} {r : Reader} (h : (Task.reader r).Known s) :
    r.conn < s.nextConn := by
  obtain ⟨k, pid, n, pc⟩ := r
  cases pc <;> first | exact h | exact h.1

theorem Task.Known.mono {s s' : Shared} {t : Task} (h : t.Known s)
    (hLe : s.nextConn ≤ s'.nextConn) : t.Known s' := by
  cases t with
  | listener l => trivial
  | upstream u => trivial
  | reader r =>
    obtain ⟨k, pid, n, pc⟩ := r
    cases pc <;> first
      | exact Nat.lt_of_lt_of_le h hLe
      | exact ⟨Nat.lt_of_lt_of_le h.1 hLe, Nat.lt_of_lt_of_le h.2 hLe⟩

/-- The clients of the list exist, and those that do not exist are as
`Client::new` will make them. -/
structure ListInv (s : System) : Prop where
  listed : ∀ pid k, s.shared.clients.get? pid = some k → k < s.shared.nextConn
  unborn : ∀ k, s.shared.nextConn ≤ k → s.shared.client k = .new
  known : ∀ t ∈ s.tasks, t.Known s.shared

/-- A thread comes to know a connection by accepting it or by finding it in the table. -/
theorem Task.Step.known {s : Shared} {t t' : Task} {op : Op} {started : List Task}
    (h : Task.Step s t op t' started) (ht : t.Known s)
    (hListed : ∀ pid k, s.clients.get? pid = some k → k < s.nextConn) :
    t'.Known (op.exec s) ∧ ∀ u ∈ started, u.Known (op.exec s) := by
  have hNext := (counters_exec op s).1
  cases h with
  | listener hl =>
    refine ⟨trivial, fun u hu => ?_⟩
    obtain ⟨r, hr, rfl⟩ := List.mem_map.mp hu
    cases hl with
    | register =>
      rw [List.mem_singleton.mp hr]
      show s.nextConn < (Op.exec _ s).nextConn
      rw [hNext]
      exact Nat.lt_succ_self _
    | _ => cases hr
  | upstream _ => exact ⟨trivial, nofun⟩
  | @reader r r' op hr =>
    refine ⟨Task.Known.mono (s := s) ?_ (Nat.le.intro hNext.symm), nofun⟩
    have hConn := ht.conn_lt
    cases hr with
    | found hk => exact ⟨hConn, hListed _ _ hk⟩
    | takeId => exact ht
    | _ => exact hConn

/-- The table and the threads know only connections that were accepted. -/
theorem ListInv.move {s s' : System} {op : Op} (h : ListInv s) (hm : daemon.Move s op s') :
    ListInv s' := by
  obtain ⟨i, t, t', started, ht, hs, hShared, -⟩ := move_cases hm
  have hNext := (counters_exec op s.shared).1
  refine ⟨fun pid k hk => ?_, fun k hk => ?_, ?_⟩
  · rw [hShared] at hk ⊢
    rw [hNext]
    rcases clients_exec op s.shared with ⟨p, rfl, hEq⟩ | ⟨k', p, -, -, hEq⟩ | ⟨-, hEq⟩
    · rw [hEq, OrdMap.get?_insert] at hk
      split at hk
      · cases hk
        exact Nat.lt_succ_self _
      · exact Nat.lt_of_lt_of_le (h.listed pid k hk) (Nat.le_add_right _ _)
    · rw [hEq, OrdMap.get?_erase] at hk
      split at hk
      · cases hk
      · exact Nat.lt_of_lt_of_le (h.listed pid k hk) (Nat.le_add_right _ _)
    · rw [hEq] at hk
      exact Nat.lt_of_lt_of_le (h.listed pid k hk) (Nat.le_add_right _ _)
  · rw [hShared] at hk ⊢
    rw [hNext] at hk
    have hOld := h.unborn k (Nat.le_trans (Nat.le_add_right _ _) hk)
    have hChange := clientChange_exec op s.shared k
    generalize (op.exec s.shared).client k = c at hChange ⊢
    cases hChange with
    | same _ _ => exact hOld
    | fresh heq =>
      subst heq
      exact absurd hk (Nat.not_succ_le_self _)
    | recorded _ =>
      -- only a known client is recorded at
      cases hs with
      | reader hr =>
        have hKnown := h.known _ (List.mem_of_getElem? ht)
        cases hr with
        | record _ _ _ => exact absurd hKnown.2 (Nat.not_lt.mpr hk)
        | refuse hp =>
          rw [hOld] at hp
          exact absurd rfl hp
      | upstream hu => cases hu
      | listener hl => cases hl
    | responded hSend =>
      obtain ⟨p, p', hp, -⟩ := ClientMutState.sendEphMemResponse_ok hSend
      rw [hOld] at hp
      cases hp
  · refine forall_tasks (J := fun s t => t.Known s) hm h.known (fun t t' started ht hs => ?_)
      (fun u _ hu => hu.mono (Nat.le.intro hNext.symm))
    exact hs.known (h.known t ht) h.listed

-- ---------------------------------------------------------------------------
-- Counting outputs
-- ---------------------------------------------------------------------------

def Output.isRecorded (id : Nat) : Output → Bool
  | .recorded _ _ _ id' _ => decide (id' = id)
  | _ => false

def Output.isFinished (id : Nat) : Output → Bool
  | .finished _ id' _ _ => decide (id' = id)
  | _ => false

def Output.isReplied (id : Nat) : Output → Bool
  | .replied _ id' _ _ => decide (id' = id)
  | _ => false

/-- How often a request with this id was recorded. -/
def recordings (id : Nat) (log : List Output) : Int := tally (Output.isRecorded id) log

/-- How often a request with this id was finished. -/
def finishes (id : Nat) (log : List Output) : Int := tally (Output.isFinished id) log

/-- How often a request with this id was answered. -/
def replies (id : Nat) (log : List Output) : Int := tally (Output.isReplied id) log

theorem exists_of_one_le_recordings {id : Nat} {log : List Output} (h : 1 ≤ recordings id log) :
    ∃ readOn line k n, Output.recorded readOn line k id n ∈ log := by
  obtain ⟨o, ho, hIs⟩ := one_le_tally_iff.mp h
  cases o with
  | recorded readOn line k id' n =>
    cases of_decide_eq_true hIs
    exact ⟨readOn, line, k, n, ho⟩
  | _ => cases hIs

theorem exists_of_one_le_replies {id : Nat} {log : List Output} (h : 1 ≤ replies id log) :
    ∃ k size ok, Output.replied k id size ok ∈ log := by
  obtain ⟨o, ho, hIs⟩ := one_le_tally_iff.mp h
  cases o with
  | replied k id' size ok =>
    cases of_decide_eq_true hIs
    exact ⟨k, size, ok, ho⟩
  | _ => cases hIs

theorem tally_outputs_zero {p : Output → Bool} {op : Op} {s : Shared}
    (h : ∀ o, Emits s op o → p o = false) : tally p (op.outputs s) = 0 := by
  have hNonneg := tally_nonneg p (op.outputs s)
  have hNot : ¬ 1 ≤ tally p (op.outputs s) := by
    intro hOne
    obtain ⟨o, ho, hp⟩ := one_le_tally_iff.mp hOne
    rw [h o (emits_of_mem ho)] at hp
    cases hp
  omega

/-- What has been counted grows by what the operation records. -/
theorem tally_exec (p : Output → Bool) (op : Op) (s : Shared) :
    tally p (op.exec s).log = tally p s.log + tally p (op.outputs s) := by
  rw [log_exec, tally_append]
  omega

/-- Only `record` records, and only at a client that has no request pending. -/
theorem recordings_outputs (id : Nat) (op : Op) (s : Shared) :
    tally (Output.isRecorded id) (op.outputs s) =
      ind (∃ readOn line k n, op = .record readOn line k id n ∧
        (s.client k).pendingRequest = none) := by
  by_cases h : ∃ readOn line k n, op = .record readOn line k id n ∧
      (s.client k).pendingRequest = none
  · rw [ind_true h]
    obtain ⟨readOn, line, k, n, rfl, hNone⟩ := h
    simp [Op.outputs, hNone, tally, Output.isRecorded]
  · rw [ind_false h]
    refine tally_outputs_zero fun o ho => ?_
    cases ho with
    | @recorded readOn k line id' n hNone =>
      by_contra hId
      rw [Bool.not_eq_false] at hId
      simp only [Output.isRecorded, decide_eq_true_eq] at hId
      subst hId
      exact h ⟨readOn, line, k, n, rfl, hNone⟩
    | _ => rfl

/-- Only a last response finishes a request, the one it is for. -/
theorem finishes_outputs (id : Nat) (op : Op) (s : Shared) :
    tally (Output.isFinished id) (op.outputs s) =
      ind (∃ k a c size, op = .respond k id false a ∧
        (s.client k).sendEphMemResponse id false a = .ok (c, some size)) := by
  by_cases h : ∃ k a c size, op = .respond k id false a ∧
      (s.client k).sendEphMemResponse id false a = .ok (c, some size)
  · rw [ind_true h]
    obtain ⟨k, a, c, size, rfl, hSend⟩ := h
    obtain ⟨p, p', hp, hId, hCount, -⟩ := ClientMutState.sendEphMemResponse_ok hSend
    have hWith := ClientMutState.pendingWith_eq_some.mpr ⟨hp, hId⟩
    have hId' : p'.id = id := (PendingRequest.count_id hCount).1.trans hId
    simp only [Op.outputs, hWith, hCount, responseOutputs, if_neg Bool.false_ne_true]
    cases a <;> simp [tally, Output.isFinished, hId']
  · rw [ind_false h]
    refine tally_outputs_zero fun o ho => ?_
    cases ho with
    | @finished k id' a p p' hp hId hCount =>
      by_contra hEq
      rw [Bool.not_eq_false] at hEq
      simp only [Output.isFinished, decide_eq_true_eq] at hEq
      subst hEq
      refine h ⟨k, a, ⟨extendAllocations (s.client k).allocations p'.allocations, none⟩,
        p'.received, rfl, ?_⟩
      exact ClientMutState.sendEphMemResponse_of_count hp hId hCount
    | _ => rfl

/-- Only writing a reply counts as one. -/
theorem replies_outputs (id : Nat) (op : Op) (s : Shared) :
    tally (Output.isReplied id) (op.outputs s) = ind (∃ k size ok, op = .reply k id size ok) := by
  by_cases h : ∃ k size ok, op = .reply k id size ok
  · rw [ind_true h]
    obtain ⟨k, size, ok, rfl⟩ := h
    simp [Op.outputs, tally, Output.isReplied]
  · rw [ind_false h]
    refine tally_outputs_zero fun o ho => ?_
    cases ho with
    | @replied k id' size ok =>
      by_contra hEq
      rw [Bool.not_eq_false] at hEq
      simp only [Output.isReplied, decide_eq_true_eq] at hEq
      subst hEq
      exact h ⟨k, size, ok, rfl⟩
    | _ => rfl

-- ---------------------------------------------------------------------------
-- An id is recorded once
-- ---------------------------------------------------------------------------

/-- The thread carries the id of a request it has not recorded yet. -/
def Task.carries (id : Nat) : Task → Prop
  | .reader ⟨_, _, _, .handle _ id' _⟩ => id' = id
  | _ => False

noncomputable def idMeasure (id : Nat) (s : Shared) : Int :=
  recordings id s.log - ind (id < s.nextRequest)

noncomputable def idWeight (id : Nat) (t : Task) : Int := ind (t.carries id)

def idLaw (s : System) : Prop := ∀ id, Machine.total (idMeasure id) (idWeight id) s ≤ 0

/-- A number is used from the `takeId` on that hands it out. -/
theorem ind_lt_nextRequest_exec (id : Nat) (op : Op) (s : Shared) :
    ind (id < (op.exec s).nextRequest) =
      ind (id < s.nextRequest) + ind (op = .takeId ∧ id = s.nextRequest) := by
  rw [(counters_exec op s).2]
  by_cases hOp : op = .takeId
  · subst hOp
    show ind (id < s.nextRequest + 1) = _
    rcases Nat.lt_trichotomy id s.nextRequest with hlt | heq | hgt
    · rw [ind_true (by omega), ind_true hlt, ind_false (by omega)]
      rfl
    · rw [ind_true (by omega), ind_false (by omega), ind_true ⟨rfl, heq⟩]
      rfl
    · rw [ind_false (by omega), ind_false (by omega), ind_false (by omega)]
      rfl
  · have hZero : op.requestIds = 0 := by cases op <;> first | rfl | exact absurd rfl hOp
    rw [hZero, Nat.add_zero, ind_false (p := op = .takeId ∧ _) fun h => hOp h.1]
    omega

/-- Only the thread that takes an id carries it. -/
theorem Task.Step.takes_of_carries {s : Shared} {t t' : Task} {op : Op} {started : List Task}
    {id : Nat} (h : Task.Step s t op t' started) (hc : t'.carries id) :
    op = .takeId ∧ id = s.nextRequest := by
  cases h with
  | listener _ => exact hc.elim
  | upstream _ => exact hc.elim
  | reader hr =>
    cases hr with
    | takeId => exact ⟨rfl, Eq.symm hc⟩
    | _ => exact hc.elim

/-- Who records a request carries its number. -/
theorem Task.Step.carries_of_record {s : Shared} {t t' : Task} {started : List Task}
    {readOn k : ConnId} {line id n : Nat}
    (h : Task.Step s t (.record readOn line k id n) t' started) : t.carries id := by
  cases h with
  | listener hl => cases hl
  | upstream hu => cases hu
  | reader hr => cases hr <;> rfl

/-- No thread starts with a number. -/
theorem Task.Step.not_carries_started {s : Shared} {t t' : Task} {op : Op} {started : List Task}
    (h : Task.Step s t op t' started) (id : Nat) : ∀ u ∈ started, ¬ u.carries id := by
  intro u hu
  cases h with
  | listener hl =>
    obtain ⟨r, hr, rfl⟩ := List.mem_map.mp hu
    cases hl with
    | register =>
      rw [List.mem_singleton.mp hr]
      exact fun hc => hc
    | _ => cases hr
  | reader _ => cases hu
  | upstream _ => cases hu

/-- A number is handed out once, carried by one thread and recorded by it at most once. -/
theorem Task.Step.idWeight_le {s : Shared} {t t' : Task} {op : Op} {started : List Task}
    (h : Task.Step s t op t' started) (id : Nat) :
    idMeasure id (op.exec s) + idWeight id t' + Machine.weigh (idWeight id) started ≤
      idMeasure id s + idWeight id t := by
  have hStarted : Machine.weigh (idWeight id) started = 0 :=
    Machine.weigh_eq_zero fun u hu => ind_false (h.not_carries_started id u hu)
  have hRec := tally_exec (Output.isRecorded id) op s
  rw [recordings_outputs] at hRec
  have hLt := ind_lt_nextRequest_exec id op s
  -- what the step records it carried, what it carries it took
  have hRecorded : ind (∃ readOn line k n, op = .record readOn line k id n ∧
      (s.client k).pendingRequest = none) ≤ idWeight id t := by
    refine ind_mono ?_
    rintro ⟨readOn, line, k, n, rfl, -⟩
    exact h.carries_of_record
  have hTaken : idWeight id t' ≤ ind (op = .takeId ∧ id = s.nextRequest) :=
    ind_mono h.takes_of_carries
  unfold idMeasure recordings
  omega

/-- The law of the numbers holds on. -/
theorem idLaw.move {s s' : System} {op : Op} (h : idLaw s) (hm : daemon.Move s op s') :
    idLaw s' := by
  intro id
  refine le_trans (hm.total_le (fun i t ch t' started ht hn => ?_) fun started hs => ?_) (h id)
  · exact (Task.step_of_next hn).idWeight_le id
  · cases hs


-- ---------------------------------------------------------------------------
-- What is on record
-- ---------------------------------------------------------------------------

/-- The request with this id is pending at the client. -/
def Shared.Pending (s : Shared) (k : ConnId) (id : Nat) : Prop :=
  ∃ p, (s.client k).pendingRequest = some p ∧ p.id = id

/-- What is known of a pending request. -/
structure PendingRequest.OnRecord (log : List Output) (k : ConnId) (p : PendingRequest) :
    Prop where
  recorded : ∃ readOn line, Output.recorded readOn line k p.id p.requested ∈ log
  received : p.received = totalSize p.allocations
  fits : p.received ≤ p.requested
  counted : ∀ a ∈ p.allocations, Output.counted k p.id a ∈ log

/-- What is known of an answer to a request. -/
structure Answer (log : List Output) (k : ConnId) (id size : Nat)
    (allocations : List EphAllocation) : Prop where
  recorded : ∃ readOn line n, Output.recorded readOn line k id n ∈ log ∧ size ≤ n
  received : size = totalSize allocations
  counted : ∀ a ∈ allocations, Output.counted k id a ∈ log

/-- The thread is about to answer the request. -/
def Task.answers (k : ConnId) (id size : Nat) : Task → Prop
  | .reader ⟨_, _, _, .reply k' id' size'⟩ => k' = k ∧ id' = id ∧ size' = size
  | .upstream (.reply k' id' size') => k' = k ∧ id' = id ∧ size' = size
  | _ => False

/-- The books of the requests. -/
structure RecordInv (s : System) : Prop where
  pending : ∀ k p, (s.shared.client k).pendingRequest = some p → p.OnRecord s.shared.log k
  finished : ∀ k id size allocations,
    Output.finished k id size allocations ∈ s.shared.log →
      Answer s.shared.log k id size allocations
  answers : ∀ t ∈ s.tasks, ∀ k id size, t.answers k id size →
    ∃ allocations, Output.finished k id size allocations ∈ s.shared.log
  replied : ∀ k id size ok, Output.replied k id size ok ∈ s.shared.log →
    ∃ allocations, Output.finished k id size allocations ∈ s.shared.log

theorem PendingRequest.OnRecord.mono {log log' : List Output} {k : ConnId} {p : PendingRequest}
    (h : p.OnRecord log k) (hLog : ∀ o ∈ log, o ∈ log') : p.OnRecord log' k := by
  obtain ⟨⟨readOn, line, hRec⟩, hSum, hFits, hCounted⟩ := h
  exact ⟨⟨readOn, line, hLog _ hRec⟩, hSum, hFits, fun a ha => hLog _ (hCounted a ha)⟩

theorem Answer.mono {log log' : List Output} {k : ConnId} {id size : Nat}
    {l : List EphAllocation} (h : Answer log k id size l) (hLog : ∀ o ∈ log, o ∈ log') :
    Answer log' k id size l := by
  obtain ⟨⟨readOn, line, n, hRec, hLe⟩, hSum, hCounted⟩ := h
  exact ⟨⟨readOn, line, n, hLog _ hRec, hLe⟩, hSum, fun a ha => hLog _ (hCounted a ha)⟩

/-- Counting an allocation keeps a request on record, once the log shows it. -/
theorem PendingRequest.OnRecord.count {log : List Output} {k : ConnId} {p p' : PendingRequest}
    {a : Option EphAllocation} (h : p.OnRecord log k) (hCount : p.count a = .ok p')
    (hLog : ∀ b, a = some b → Output.counted k p.id b ∈ log) : p'.OnRecord log k := by
  cases a with
  | none =>
    rw [PendingRequest.count_none hCount]
    exact h
  | some b =>
    obtain ⟨hLe, rfl⟩ := PendingRequest.count_some hCount
    refine ⟨h.recorded, ?_, ?_, fun c hc => ?_⟩
    · simp [totalSize, h.received]
    · have := h.fits
      show p.received + b.size ≤ p.requested
      omega
    · rcases List.mem_append.mp hc with hc | hc
      · exact h.counted c hc
      · rw [List.mem_singleton.mp hc]
        exact hLog b rfl

/-- A pending request that ends now has its answer. -/
theorem PendingRequest.OnRecord.answer {log : List Output} {k : ConnId} {p : PendingRequest}
    (h : p.OnRecord log k) : Answer log k p.id p.received p.allocations := by
  obtain ⟨readOn, line, hRec⟩ := h.recorded
  exact ⟨⟨readOn, line, _, hRec, h.fits⟩, h.received, h.counted⟩

/-- What a successful response puts in the log. -/
theorem mem_log_respond {s : Shared} {k : ConnId} {id : Nat} {m : Bool}
    {a : Option EphAllocation} {p p' : PendingRequest} (hp : (s.client k).pendingRequest = some p)
    (hId : p.id = id) (hCount : p.count a = .ok p') :
    (∀ b, a = some b → Output.counted k id b ∈ ((Op.respond k id m a).exec s).log) ∧
    (m = false → Output.finished k id p'.received p'.allocations ∈
      ((Op.respond k id m a).exec s).log) := by
  have hWith := ClientMutState.pendingWith_eq_some.mpr ⟨hp, hId⟩
  have hId' : p'.id = id := (PendingRequest.count_id hCount).1.trans hId
  rw [log_exec]
  simp only [Op.outputs, hWith, hCount, responseOutputs, hId']
  refine ⟨?_, ?_⟩
  · rintro b rfl
    simp
  · rintro rfl
    simp

/-- The request a response was counted for, with it counted, stays on record. -/
theorem RecordInv.onRecord_count {s : System} (h : RecordInv s) {k : ConnId} {id : Nat}
    {m : Bool} {a : Option EphAllocation} {p p' : PendingRequest}
    (hp : (s.shared.client k).pendingRequest = some p) (hId : p.id = id)
    (hCount : p.count a = .ok p') :
    p'.OnRecord ((Op.respond k id m a).exec s.shared).log k := by
  refine ((h.pending k p hp).mono fun o => mem_log_exec_of_mem).count hCount fun b hb => ?_
  rw [hId]
  exact (mem_log_respond hp hId hCount).1 b hb

/-- A request is pending with what the log has of it. -/
theorem RecordInv.pending_move {s s' : System} {op : Op} (h : RecordInv s)
    (hm : daemon.Move s op s') (k : ConnId) (p : PendingRequest)
    (hp : (s'.shared.client k).pendingRequest = some p) : p.OnRecord s'.shared.log k := by
  have hShared : s'.shared = op.exec s.shared := hm.shared_eq
  rw [hShared] at hp ⊢
  have hChange := clientChange_exec op s.shared k
  generalize (op.exec s.shared).client k = c at hChange hp
  cases hChange with
  | same _ _ => exact (h.pending k p hp).mono fun o => mem_log_exec_of_mem
  | fresh _ => cases hp
  | @recorded readOn line id n hNone =>
    cases hp
    refine ⟨⟨readOn, line, ?_⟩, rfl, Nat.zero_le _, nofun⟩
    rw [log_exec]
    simp [Op.outputs, hNone]
  | responded hSend =>
    obtain ⟨q, q', hq, hId, hCount, ⟨rfl, rfl, -⟩ | ⟨-, rfl, -⟩⟩ :=
      ClientMutState.sendEphMemResponse_ok hSend
    · cases hp
      exact h.onRecord_count hq hId hCount
    · cases hp

/-- A request that ended has the answer it ended with. -/
theorem RecordInv.finished_move {s s' : System} {op : Op} (h : RecordInv s)
    (hm : daemon.Move s op s') (k : ConnId) (id size : Nat) (l : List EphAllocation)
    (hf : Output.finished k id size l ∈ s'.shared.log) : Answer s'.shared.log k id size l := by
  have hShared : s'.shared = op.exec s.shared := hm.shared_eq
  rw [hShared] at hf ⊢
  rcases mem_log_exec hf with hEmit | hOld
  · cases hEmit with
    | @finished _ _ a p p' hp hId hCount =>
      have hAns := (h.onRecord_count (m := false) hp hId hCount).answer
      rw [(PendingRequest.count_id hCount).1, hId] at hAns
      exact hAns
  · exact (h.finished k id size l hOld).mono fun o => mem_log_exec_of_mem


/-- A step that leaves a thread about to answer has just finished the request. -/
theorem Task.Step.finished_of_answers {s : Shared} {t t' : Task} {op : Op}
    {started : List Task} {k : ConnId} {id size : Nat} (h : Task.Step s t op t' started)
    (ha : t'.answers k id size) :
    ∃ a c, op = .respond k id false a ∧
      (s.client k).sendEphMemResponse id false a = .ok (c, some size) := by
  cases h with
  | listener _ => exact ha.elim
  | reader hr =>
    cases hr with
    | @denied _ _ _ _ _ _ c hSend =>
      obtain ⟨rfl, rfl, rfl⟩ := ha
      exact ⟨none, c, rfl, hSend⟩
    | _ => exact ha.elim
  | upstream hu =>
    cases hu with
    | @receive cmd =>
      unfold Upstream.dispatch at ha
      repeat' split at ha
      all_goals exact ha.elim
    | @finished _ _ _ more a c hSend =>
      obtain ⟨rfl, rfl, rfl⟩ := ha
      obtain ⟨_, _, -, -, -, ⟨-, -, hNone⟩ | ⟨rfl, -, -⟩⟩ :=
        ClientMutState.sendEphMemResponse_ok hSend
      · cases hNone
      · exact ⟨some a, c, rfl, hSend⟩
    | _ => exact ha.elim

/-- No thread starts with an answer to give. -/
theorem Task.Step.not_answers_started {s : Shared} {t t' : Task} {op : Op} {started : List Task}
    (h : Task.Step s t op t' started) (k : ConnId) (id size : Nat) :
    ∀ u ∈ started, ¬ u.answers k id size := by
  intro u hu
  cases h with
  | listener hl =>
    obtain ⟨r, hr, rfl⟩ := List.mem_map.mp hu
    cases hl with
    | register =>
      rw [List.mem_singleton.mp hr]
      exact fun ha => ha
    | _ => cases hr
  | reader _ => cases hu
  | upstream _ => cases hu

/-- Who writes a reply was about to. -/
theorem Task.Step.answers_of_reply {s : Shared} {t t' : Task} {started : List Task}
    {k : ConnId} {id size : Nat} {ok : Bool}
    (h : Task.Step s t (.reply k id size ok) t' started) : t.answers k id size := by
  cases h with
  | listener hl => cases hl
  | reader hr =>
    cases hr
    exact ⟨rfl, rfl, rfl⟩
  | upstream hu =>
    cases hu
    exact ⟨rfl, rfl, rfl⟩

/-- The response that ends a request is logged. -/
theorem finished_mem_of_send {s : Shared} {k : ConnId} {id size : Nat}
    {a : Option EphAllocation} {c : ClientMutState}
    (hSend : (s.client k).sendEphMemResponse id false a = .ok (c, some size)) :
    ∃ l, Output.finished k id size l ∈ ((Op.respond k id false a).exec s).log := by
  obtain ⟨p, p', hp, hId, hCount, ⟨hMore, -⟩ | ⟨-, -, hSize⟩⟩ :=
    ClientMutState.sendEphMemResponse_ok hSend
  · cases hMore
  · cases hSize
    exact ⟨_, (mem_log_respond hp hId hCount).2 rfl⟩

/-- Requests, their ends and their replies stay on record together. -/
theorem RecordInv.move {s s' : System} {op : Op} (h : RecordInv s)
    (hm : daemon.Move s op s') : RecordInv s' := by
  refine ⟨h.pending_move hm, h.finished_move hm, ?_, fun k id size ok hr => ?_⟩
  · refine forall_tasks (J := fun s t => ∀ k id size, t.answers k id size →
      ∃ l, Output.finished k id size l ∈ s.log) hm h.answers (fun t t' started _ hs => ?_)
      (fun u _ hu k id size ha => ?_)
    · refine ⟨fun k id size ha => ?_, fun u hu k id size ha => ?_⟩
      · obtain ⟨a, c, rfl, hSend⟩ := hs.finished_of_answers ha
        exact finished_mem_of_send hSend
      · exact absurd ha (hs.not_answers_started k id size u hu)
    · obtain ⟨l, hl⟩ := hu k id size ha
      exact ⟨l, mem_log_exec_of_mem hl⟩
  · obtain ⟨i, t, t', started, ht, hs, hShared, -⟩ := move_cases hm
    rw [hShared] at hr ⊢
    rcases mem_log_exec hr with hEmit | hOld
    · cases hEmit
      obtain ⟨l, hl⟩ := h.answers t (List.mem_of_getElem? ht) k id size hs.answers_of_reply
      exact ⟨l, mem_log_exec_of_mem hl⟩
    · obtain ⟨l, hl⟩ := h.replied k id size ok hOld
      exact ⟨l, mem_log_exec_of_mem hl⟩

-- ---------------------------------------------------------------------------
-- What was recorded is pending or finished
-- ---------------------------------------------------------------------------

/-- A number is recorded at most once. -/
theorem recordings_le_one {s : System} (h : idLaw s) (id : Nat) :
    recordings id s.shared.log ≤ 1 := by
  have hTotal := h id
  have hNonneg : 0 ≤ Machine.weigh (idWeight id) s.tasks :=
    Machine.weigh_nonneg (fun t => ind_nonneg _) _
  have hOne := ind_le_one (id < s.shared.nextRequest)
  unfold Machine.total idMeasure at hTotal
  omega

/-- An id is recorded once. -/
theorem recorded_unique {s : System} (h : idLaw s) {readOn readOn' k k' : ConnId}
    {line line' id n n' : Nat}
    (h1 : Output.recorded readOn line k id n ∈ s.shared.log)
    (h2 : Output.recorded readOn' line' k' id n' ∈ s.shared.log) :
    readOn = readOn' ∧ line = line' ∧ k = k' ∧ n = n' := by
  have heq := eq_of_tally_le_one (p := Output.isRecorded id) (recordings_le_one h id) h1 h2
    (by simp [Output.isRecorded]) (by simp [Output.isRecorded])
  cases heq
  exact ⟨rfl, rfl, rfl, rfl⟩

/-- An id a thread is about to record is not on record. -/
theorem not_recorded_of_carries {s : System} (h : idLaw s) {t : Task} {id : Nat}
    (ht : t ∈ s.tasks) (hc : t.carries id) : recordings id s.shared.log ≤ 0 := by
  obtain ⟨i, hi⟩ := List.getElem?_of_mem ht
  have hTotal := h id
  have hLe := Machine.le_weigh (w := idWeight id) (fun t => ind_nonneg _) hi
  rw [show idWeight id t = 1 from ind_true hc] at hLe
  have hOne := ind_le_one (id < s.shared.nextRequest)
  unfold Machine.total idMeasure at hTotal
  omega

theorem one_le_recordings {log : List Output} {readOn k : ConnId} {line id n : Nat}
    (h : Output.recorded readOn line k id n ∈ log) : 1 ≤ recordings id log :=
  one_le_tally_iff.mpr ⟨_, h, by simp [Output.isRecorded]⟩

/-- How an operation changes what is pending. -/
theorem pending_exec (op : Op) (s : Shared) (hUnborn : s.client s.nextConn = .new)
    (k : ConnId) (id : Nat) :
    (op.exec s).Pending k id ↔
      (∃ readOn line n, op = .record readOn line k id n ∧ (s.client k).pendingRequest = none) ∨
      (s.Pending k id ∧ ¬ ∃ a c size, op = .respond k id false a ∧
        (s.client k).sendEphMemResponse id false a = .ok (c, some size)) := by
  unfold Shared.Pending
  have hChange := clientChange_exec op s k
  generalize (op.exec s).client k = c at hChange ⊢
  cases hChange with
  | same h1 h2 =>
    refine ⟨fun h => Or.inr ⟨h, ?_⟩, ?_⟩
    · rintro ⟨a, c, size, rfl, hSend⟩
      rcases h2 id false a with hne | hne
      · exact hne rfl
      · exact hne c _ hSend
    · rintro (⟨readOn, line, n, rfl, hNone⟩ | ⟨h, -⟩)
      · rcases h1 readOn line id n with hne | hne
        · exact absurd rfl hne
        · exact absurd hNone hne
      · exact h
  | fresh hk =>
    subst hk
    rw [hUnborn]
    refine ⟨nofun, ?_⟩
    rintro (⟨_, _, _, heq, -⟩ | ⟨⟨_, hp, -⟩, -⟩)
    · cases heq
    · cases hp
  | @recorded readOn line id' n hNone =>
    refine ⟨?_, ?_⟩
    · rintro ⟨p, hp, rfl⟩
      cases hp
      exact Or.inl ⟨readOn, line, n, rfl, hNone⟩
    · rintro (⟨_, _, _, heq, -⟩ | ⟨⟨p, hp, -⟩, -⟩)
      · cases heq
        exact ⟨_, rfl, rfl⟩
      · rw [hNone] at hp
        cases hp
  | @responded id' more a c r hSend =>
    obtain ⟨p, p', hp, hId, hCount, ⟨rfl, rfl, rfl⟩ | ⟨rfl, rfl, rfl⟩⟩ :=
      ClientMutState.sendEphMemResponse_ok hSend
    · have hId' := (PendingRequest.count_id hCount).1
      refine ⟨?_, ?_⟩
      · rintro ⟨q, hq, rfl⟩
        cases hq
        refine Or.inr ⟨⟨p, hp, hId'.symm⟩, ?_⟩
        rintro ⟨_, _, _, heq, -⟩
        cases heq
      · rintro (⟨_, _, _, heq, -⟩ | ⟨⟨q, hq, rfl⟩, -⟩)
        · cases heq
        · rw [hp] at hq
          cases hq
          exact ⟨p', rfl, hId'⟩
    · refine ⟨?_, ?_⟩
      · rintro ⟨_, hq, -⟩
        cases hq
      · rintro (⟨_, _, _, heq, -⟩ | ⟨⟨q, hq, rfl⟩, hNot⟩)
        · cases heq
        · rw [hp] at hq
          cases hq
          subst hId
          exact absurd ⟨a, _, _, rfl, hSend⟩ hNot


noncomputable def pendingCount (id : Nat) (s : Shared) : Int := ind (∃ k, s.Pending k id)

/-- What was recorded is pending or finished. -/
def openLaw (s : System) : Prop :=
  ∀ id, finishes id s.shared.log + pendingCount id s.shared = recordings id s.shared.log

/-- A request is pending at one client. -/
theorem pending_unique {s : System} (hIds : idLaw s) (hRec : RecordInv s) {k k' : ConnId}
    {id : Nat} (h : s.shared.Pending k id) (h' : s.shared.Pending k' id) : k = k' := by
  obtain ⟨p, hp, rfl⟩ := h
  obtain ⟨q, hq, hId⟩ := h'
  obtain ⟨_, _, h1⟩ := (hRec.pending k p hp).recorded
  obtain ⟨_, _, h2⟩ := (hRec.pending k' q hq).recorded
  rw [hId] at h2
  exact (recorded_unique hIds h1 h2).2.2.1

/-- A recorded request is pending at one client, or has ended. -/
theorem openLaw.move {s s' : System} {op : Op} (h : openLaw s) (hList : ListInv s)
    (hIds : idLaw s) (hRec : RecordInv s) (hm : daemon.Move s op s') : openLaw s' := by
  intro id
  obtain ⟨i, t, t', started, ht, hs, hShared, -⟩ := move_cases hm
  have hOld := h id
  have hPending := pending_exec op s.shared (hList.unborn _ (Nat.le_refl _))
  rw [hShared]
  unfold finishes recordings pendingCount at *
  rw [tally_exec, tally_exec, recordings_outputs, finishes_outputs]
  by_cases hRecord : ∃ readOn line k n, op = .record readOn line k id n ∧
      (s.shared.client k).pendingRequest = none
  · -- a request becomes pending that was not on record
    rw [ind_true hRecord]
    obtain ⟨readOn, line, k, n, rfl, hNone⟩ := hRecord
    rw [ind_false (p := ∃ k a c size, _ ∧ _) (by rintro ⟨_, _, _, _, heq, -⟩; cases heq),
      ind_true ⟨k, (hPending k id).mpr (Or.inl ⟨readOn, line, n, rfl, hNone⟩)⟩]
    have hZero := not_recorded_of_carries hIds (List.mem_of_getElem? ht) hs.carries_of_record
    have hFin := tally_nonneg (Output.isFinished id) s.shared.log
    have hPend := ind_nonneg (∃ k, s.shared.Pending k id)
    unfold recordings at hZero
    omega
  · rw [ind_false hRecord]
    by_cases hFinish : ∃ k a c size, op = .respond k id false a ∧
        (s.shared.client k).sendEphMemResponse id false a = .ok (c, some size)
    · -- the pending request is finished, and no other has its id
      rw [ind_true hFinish]
      obtain ⟨k, a, c, size, rfl, hSend⟩ := hFinish
      have hWas : s.shared.Pending k id := by
        obtain ⟨p, _, hp, hId, -⟩ := ClientMutState.sendEphMemResponse_ok hSend
        exact ⟨p, hp, hId⟩
      rw [ind_true ⟨k, hWas⟩] at hOld
      rw [ind_false]
      · omega
      · rintro ⟨k', hk'⟩
        rcases (hPending k' id).mp hk' with ⟨_, _, _, heq, -⟩ | ⟨hp', hNot⟩
        · cases heq
        · cases pending_unique hIds hRec hWas hp'
          exact hNot ⟨a, c, size, rfl, hSend⟩
    · rw [ind_false hFinish]
      have hSame : (∃ k, (op.exec s.shared).Pending k id) ↔ ∃ k, s.shared.Pending k id := by
        refine exists_congr fun k => (hPending k id).trans ⟨?_, ?_⟩
        · rintro (⟨readOn, line, n, heq, hNone⟩ | ⟨hp, -⟩)
          · exact absurd ⟨readOn, line, k, n, heq, hNone⟩ hRecord
          · exact hp
        · intro hp
          refine Or.inr ⟨hp, ?_⟩
          rintro ⟨a, c, size, hOp, hSend⟩
          exact hFinish ⟨k, a, c, size, hOp, hSend⟩
      rw [hSame]
      omega

-- ---------------------------------------------------------------------------
-- What was finished is answered
-- ---------------------------------------------------------------------------

noncomputable def replyWeight (id : Nat) (t : Task) : Int := ind (∃ k size, t.answers k id size)

/-- What was finished is answered or about to be. -/
def replyLaw (s : System) : Prop :=
  ∀ id, Machine.total (fun s => replies id s.log - finishes id s.log) (replyWeight id) s = 0

/-- A thread that finishes a request answers it next. -/
theorem Task.Step.answers_of_finish {s : Shared} {t t' : Task} {started : List Task}
    {k : ConnId} {id size : Nat} {a : Option EphAllocation} {c : ClientMutState}
    (h : Task.Step s t (.respond k id false a) t' started)
    (hSend : (s.client k).sendEphMemResponse id false a = .ok (c, some size)) :
    t'.answers k id size := by
  cases h with
  | listener hl => cases hl
  | reader hr =>
    cases hr with
    | denied hSend' =>
      cases hSend.symm.trans hSend'
      exact ⟨rfl, rfl, rfl⟩
    | denyFailed hNot => exact absurd hSend (hNot _ _)
  | upstream hu =>
    cases hu with
    | finished hSend' =>
      cases hSend.symm.trans hSend'
      exact ⟨rfl, rfl, rfl⟩
    | counted hNot => exact absurd hSend (hNot _ _)

/-- A thread about to answer answers. -/
theorem Task.Step.reply_of_answers {s : Shared} {t t' : Task} {op : Op} {started : List Task}
    {k : ConnId} {id size : Nat} (h : Task.Step s t op t' started)
    (ha : t.answers k id size) : ∃ ok, op = .reply k id size ok := by
  cases h with
  | listener _ => exact ha.elim
  | reader hr =>
    cases hr with
    | @replied _ _ _ _ _ _ ok =>
      obtain ⟨rfl, rfl, rfl⟩ := ha
      exact ⟨ok, rfl⟩
    | _ => exact ha.elim
  | upstream hu =>
    cases hu with
    | @replied _ _ _ ok =>
      obtain ⟨rfl, rfl, rfl⟩ := ha
      exact ⟨ok, rfl⟩
    | _ => exact ha.elim

/-- Each end leads to one reply, written by the thread that ended it. -/
theorem Task.Step.replyWeight_eq {s : Shared} {t t' : Task} {op : Op} {started : List Task}
    (h : Task.Step s t op t' started) (id : Nat) :
    replies id (op.exec s).log - finishes id (op.exec s).log + replyWeight id t' +
        Machine.weigh (replyWeight id) started =
      replies id s.log - finishes id s.log + replyWeight id t := by
  have hStarted : Machine.weigh (replyWeight id) started = 0 := by
    refine Machine.weigh_eq_zero fun u hu => ind_false ?_
    rintro ⟨k, size, ha⟩
    exact h.not_answers_started k id size u hu ha
  have hReply : tally (Output.isReplied id) (op.outputs s) = replyWeight id t := by
    rw [replies_outputs]
    refine congrArg ind (propext ⟨?_, ?_⟩)
    · rintro ⟨k, size, ok, rfl⟩
      exact ⟨k, size, h.answers_of_reply⟩
    · rintro ⟨k, size, ha⟩
      obtain ⟨ok, rfl⟩ := h.reply_of_answers ha
      exact ⟨k, size, ok, rfl⟩
  have hFinish : tally (Output.isFinished id) (op.outputs s) = replyWeight id t' := by
    rw [finishes_outputs]
    refine congrArg ind (propext ⟨?_, ?_⟩)
    · rintro ⟨k, a, c, size, rfl, hSend⟩
      exact ⟨k, size, h.answers_of_finish hSend⟩
    · rintro ⟨k, size, ha⟩
      obtain ⟨a, c, rfl, hSend⟩ := h.finished_of_answers ha
      exact ⟨k, a, c, size, rfl, hSend⟩
  unfold replies finishes
  rw [tally_exec, tally_exec, hReply, hFinish, hStarted]
  omega

/-- Replies and replies to come balance the ends. -/
theorem replyLaw.move {s s' : System} {op : Op} (h : replyLaw s) (hm : daemon.Move s op s') :
    replyLaw s' := by
  intro id
  refine Eq.trans (hm.total_eq (fun i t ch t' started ht hn => ?_) fun started hs => ?_) (h id)
  · exact (Task.step_of_next hn).replyWeight_eq id
  · cases hs

-- ---------------------------------------------------------------------------
-- Along every run
-- ---------------------------------------------------------------------------

structure RequestInv (s : System) : Prop where
  list : ListInv s
  ids : idLaw s
  record : RecordInv s
  opened : openLaw s
  replies : replyLaw s

/-- The laws hold on together. -/
theorem RequestInv.move {s s' : System} {op : Op} (h : RequestInv s) (hm : daemon.Move s op s') :
    RequestInv s' :=
  ⟨h.list.move hm, h.ids.move hm, h.record.move hm, h.opened.move h.list h.ids h.record hm,
    h.replies.move hm⟩

theorem one_le_finishes {log : List Output} {k : ConnId} {id size : Nat}
    {l : List EphAllocation} (h : Output.finished k id size l ∈ log) : 1 ≤ finishes id log :=
  one_le_tally_iff.mpr ⟨_, h, by simp [Output.isFinished]⟩

/-- A finished request is not pending. -/
theorem RequestInv.not_pending_of_finished {s : System} (h : RequestInv s) {k k' : ConnId}
    {id size : Nat} {l : List EphAllocation}
    (hFin : Output.finished k id size l ∈ s.shared.log) : ¬ s.shared.Pending k' id := by
  intro hPending
  have hOpen := h.opened id
  have hOne := recordings_le_one h.ids id
  have hFinishes := one_le_finishes hFin
  unfold pendingCount at hOpen
  rw [ind_true ⟨k', hPending⟩] at hOpen
  omega

/-- A request is finished once. -/
theorem RequestInv.finished_unique {s : System} (h : RequestInv s) {k k' : ConnId}
    {id size size' : Nat} {l l' : List EphAllocation}
    (h1 : Output.finished k id size l ∈ s.shared.log)
    (h2 : Output.finished k' id size' l' ∈ s.shared.log) : k = k' ∧ size = size' ∧ l = l' := by
  have hOpen := h.opened id
  have hOne := recordings_le_one h.ids id
  have hNonneg : 0 ≤ pendingCount id s.shared := ind_nonneg _
  have heq := eq_of_tally_le_one (p := Output.isFinished id) (l := s.shared.log)
    (by unfold finishes at hOpen; omega) h1 h2 (by simp [Output.isFinished])
    (by simp [Output.isFinished])
  cases heq
  exact ⟨rfl, rfl, rfl⟩

/-- A recorded request that is not pending, and that no thread is about to
answer, was answered once. -/
theorem RequestInv.replies_eq_one {s : System} (h : RequestInv s) {readOn k : ConnId}
    {line id n : Nat} (hRec : Output.recorded readOn line k id n ∈ s.shared.log)
    (hNot : ∀ k, ¬ s.shared.Pending k id)
    (hIdle : Machine.weigh (replyWeight id) s.tasks = 0) :
    Ephemerald.replies id s.shared.log = 1 := by
  have hOpen := h.opened id
  have hReplies : Ephemerald.replies id s.shared.log - finishes id s.shared.log +
    Machine.weigh (replyWeight id) s.tasks = 0 := h.replies id
  have hLe := recordings_le_one h.ids id
  have hGe := one_le_recordings hRec
  unfold pendingCount at hOpen
  rw [ind_false (by rintro ⟨k, hk⟩; exact hNot k hk)] at hOpen
  omega

theorem requestInv_init : RequestInv initSystem := by
  have hTasks : ∀ t ∈ initSystem.tasks, t = .listener .idle ∨ t = .upstream .reading := by
    intro t ht
    rcases List.mem_cons.mp ht with rfl | ht
    · exact Or.inl rfl
    · exact Or.inr (List.mem_singleton.mp ht)
  have hPend : ∀ id, pendingCount id initSystem.shared = 0 := by
    intro id
    refine ind_false ?_
    rintro ⟨k, p, hp, -⟩
    cases hp
  refine ⟨⟨nofun, fun _ _ => rfl, fun t ht => ?_⟩, fun id => ?_, ⟨nofun, nofun, fun t ht => ?_, nofun⟩,
    fun id => ?_, fun id => ?_⟩
  · rcases hTasks t ht with rfl | rfl <;> trivial
  · have hw : Machine.weigh (idWeight id) initSystem.tasks = 0 := by
      refine Machine.weigh_eq_zero fun t ht => ind_false ?_
      rcases hTasks t ht with rfl | rfl <;> exact fun hc => hc
    unfold Machine.total idMeasure
    rw [hw, ind_false (p := id < initSystem.shared.nextRequest) (Nat.not_lt_zero id)]
    exact Int.le_refl 0
  · rcases hTasks t ht with rfl | rfl <;> exact fun _ _ _ ha => ha.elim
  · rw [hPend]
    rfl
  · have hw : Machine.weigh (replyWeight id) initSystem.tasks = 0 := by
      refine Machine.weigh_eq_zero fun t ht => ind_false ?_
      rcases hTasks t ht with rfl | rfl <;> exact fun ⟨_, _, ha⟩ => ha
    unfold Machine.total
    rw [hw]
    rfl

theorem requestInv_of_reachable {allow : System → Op → Prop} {s : System}
    (h : ReachableBy allow s) : RequestInv s :=
  h.invariant (I := RequestInv) (fun _ _ _ hI hm _ => hI.move hm) requestInv_init

end EphMemory.Ephemerald
