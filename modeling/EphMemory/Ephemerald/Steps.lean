import EphMemory.Ephemerald.Daemon

/-!
# Ephemerald — what a thread can do

The moves of each thread, one constructor a move, and what each operation
changes. Every argument about the daemon goes through these.

* `Reader.Step` / `Upstream.Step` / `Listener.Step` / `Task.Step` — the moves;
* `move_cases` — a move of the daemon is a step of one of its threads;
* `forall_tasks` — a property of each thread and the shared state, along a move;
* `ClientChange` — the ways an operation changes a client.
-/

namespace EphMemory.Ephemerald

open EphMemory.Lib

-- ---------------------------------------------------------------------------
-- Moves
-- ---------------------------------------------------------------------------

inductive Reader.Step (s : Shared) : Reader → Op → Reader → Prop
  | ignored {k : ConnId} {pid : Pid} {n : Nat} :
      Step s ⟨k, pid, n, .reading⟩ .nop ⟨k, pid, n + 1, .reading⟩
  | request {k : ConnId} {pid : Pid} {n : Nat} {cmd : ConsumerCommand} :
      cmd.function = .ephMemRequest →
      Step s ⟨k, pid, n, .reading⟩ .nop ⟨k, pid, n + 1, .lookup cmd.size⟩
  | hungUp {k : ConnId} {pid : Pid} {n : Nat} :
      Step s ⟨k, pid, n, .reading⟩ .nop ⟨k, pid, n, .closing⟩
  | found {k k' : ConnId} {pid : Pid} {n amount : Nat} :
      s.clients.get? pid = some k' →
      Step s ⟨k, pid, n, .lookup (some amount)⟩ (.lookup k pid) ⟨k, pid, n, .takeId k' amount⟩
  | notFound {k : ConnId} {pid : Pid} {n : Nat} {size : Option Nat} :
      Step s ⟨k, pid, n, .lookup size⟩ (.lookup k pid) ⟨k, pid, n, .reading⟩
  | takeId {k k' : ConnId} {pid : Pid} {n amount : Nat} :
      Step s ⟨k, pid, n, .takeId k' amount⟩ .takeId ⟨k, pid, n, .handle k' s.nextRequest amount⟩
  | badSize {k k' : ConnId} {pid : Pid} {n id amount : Nat} :
      Step s ⟨k, pid, n, .handle k' id amount⟩ .nop ⟨k, pid, n, .reading⟩
  | record {k k' : ConnId} {pid : Pid} {n id amount aligned : Nat} :
      checkedNextMultipleOf amount = some aligned → aligned ≠ 0 →
      (s.client k').pendingRequest = none →
      Step s ⟨k, pid, n, .handle k' id amount⟩ (.record k n k' id aligned)
        ⟨k, pid, n, .forward k' id aligned⟩
  | refuse {k k' : ConnId} {pid : Pid} {n id amount aligned : Nat} :
      (s.client k').pendingRequest ≠ none →
      Step s ⟨k, pid, n, .handle k' id amount⟩ (.record k n k' id aligned) ⟨k, pid, n, .reading⟩
  | forwarded {k k' : ConnId} {pid : Pid} {n id amount : Nat} :
      Step s ⟨k, pid, n, .forward k' id amount⟩ (.requestEphMem id amount true)
        ⟨k, pid, n, .reading⟩
  | forwardFailed {k k' : ConnId} {pid : Pid} {n id amount : Nat} :
      Step s ⟨k, pid, n, .forward k' id amount⟩ (.requestEphMem id amount false)
        ⟨k, pid, n, .deny k' id⟩
  | denied {k k' : ConnId} {pid : Pid} {n id size : Nat} {c : ClientMutState} :
      (s.client k').sendEphMemResponse id false none = .ok (c, some size) →
      Step s ⟨k, pid, n, .deny k' id⟩ (.respond k' id false none) ⟨k, pid, n, .reply k' id size⟩
  | denyFailed {k k' : ConnId} {pid : Pid} {n id : Nat} :
      (∀ c size, (s.client k').sendEphMemResponse id false none ≠ .ok (c, some size)) →
      Step s ⟨k, pid, n, .deny k' id⟩ (.respond k' id false none) ⟨k, pid, n, .reading⟩
  | replied {k k' : ConnId} {pid : Pid} {n id size : Nat} {ok : Bool} :
      Step s ⟨k, pid, n, .reply k' id size⟩ (.reply k' id size ok) ⟨k, pid, n, .reading⟩
  | close {k : ConnId} {pid : Pid} {n : Nat} :
      Step s ⟨k, pid, n, .closing⟩ (.close k pid) ⟨k, pid, n, .closed⟩

/-- Whatever a reader does next is one of its steps. -/
theorem Reader.step_of_next {s : Shared} {r r' : Reader} {ch : Choice} {op : Op}
    (h : r.next s ch = some (op, r')) : Reader.Step s r op r' := by
  obtain ⟨k, pid, n, pc⟩ := r
  unfold next at h
  split at h <;> rename_i hpc <;> simp only at hpc <;> subst hpc
  · split at h
    · cases h
      unfold dispatch
      split
      · exact .ignored
      · split
        · exact .request ‹_›
        · exact .ignored
    · cases h
      exact .hungUp
    · cases h
  · cases h
    split
    · exact .found ‹_›
    · exact .notFound
  · cases h
    exact .takeId
  · rename_i k' id amount
    split at h
    · cases h
      exact .badSize
    · rename_i aligned hSize
      split at h
      · cases h
        exact .badSize
      · rename_i hne
        cases h
        cases hp : (s.client k').pendingRequest with
        | none =>
          simp only [ClientMutState.record, hp]
          exact .record hSize hne hp
        | some p =>
          simp only [ClientMutState.record, hp]
          exact .refuse (by simp [hp])
  · split at h
    · rename_i ok
      cases h
      cases ok with
      | true => exact .forwarded
      | false => exact .forwardFailed
    · cases h
  · cases h
    split
    · exact .denied ‹_›
    · rename_i hNot
      exact .denyFailed fun c size heq => hNot c size heq
  · split at h <;> cases h
    exact .replied
  · cases h
    exact .close
  · cases h

inductive Upstream.Step (s : Shared) : Upstream → Op → Upstream → Prop
  | ignored : Step s .reading .nop .reading
  | receive {cmd : ConsumerCommand} : Step s .reading (.receive cmd) (dispatch cmd)
  | created {size offset id : Nat} {more : Bool} :
      Step s (.device size offset id more) (.newDevice id more true)
        (.find id more ⟨offset, size, ⟨s.nextDevice, size⟩⟩)
  | notCreated {size offset id : Nat} {more : Bool} :
      Step s (.device size offset id more) (.newDevice id more false) .reading
  | found {k : ConnId} {id : Nat} {more : Bool} {a : EphAllocation} :
      s.findClient id = some k → Step s (.find id more a) .nop (.respond k id more a)
  | notFound {id : Nat} {more : Bool} {a : EphAllocation} :
      s.findClient id = none → Step s (.find id more a) .nop .reading
  | finished {k : ConnId} {id size : Nat} {more : Bool} {a : EphAllocation} {c : ClientMutState} :
      (s.client k).sendEphMemResponse id more (some a) = .ok (c, some size) →
      Step s (.respond k id more a) (.respond k id more (some a)) (.reply k id size)
  | counted {k : ConnId} {id : Nat} {more : Bool} {a : EphAllocation} :
      (∀ c size, (s.client k).sendEphMemResponse id more (some a) ≠ .ok (c, some size)) →
      Step s (.respond k id more a) (.respond k id more (some a)) .reading
  | replied {k : ConnId} {id size : Nat} {ok : Bool} :
      Step s (.reply k id size) (.reply k id size ok) .reading

/-- Whatever the thread that handles the responses does next is one of its steps. -/
theorem Upstream.step_of_next {s : Shared} {u u' : Upstream} {ch : Choice} {op : Op}
    (h : u.next s ch = some (op, u')) : Upstream.Step s u op u' := by
  unfold next at h
  split at h
  · split at h <;> cases h
    · exact .receive
    · exact .ignored
  · split at h
    · rename_i ok
      cases h
      cases ok with
      | true => exact .created
      | false => exact .notCreated
    · cases h
  · cases h
    split
    · exact .notFound ‹_›
    · exact .found ‹_›
  · cases h
    split
    · exact .finished ‹_›
    · rename_i hNot
      exact .counted fun c size heq => hNot c size heq
  · split at h <;> cases h
    exact .replied

inductive Listener.Step (s : Shared) : Listener → Op → Listener → List Reader → Prop
  | tooMany : Step s .idle .nop .idle []
  | accepted {pid : Pid} : Step s .idle .nop (.accepted pid) []
  | register {pid : Pid} :
      Step s (.accepted pid) (.register pid) .idle [⟨s.nextConn, pid, 0, .reading⟩]
  | failed {pid : Pid} : Step s (.accepted pid) .nop .idle []

/-- Whatever the listener does next is one of its steps. -/
theorem Listener.step_of_next {s : Shared} {l l' : Listener} {ch : Choice} {op : Op}
    {started : List Reader} (h : l.next s ch = some (op, l', started)) :
    Listener.Step s l op l' started := by
  unfold next at h
  split at h
  · split at h
    · cases h
      split
      · exact .tooMany
      · exact .accepted
    · cases h
  · split at h <;> cases h
    · exact .register
    · exact .failed

inductive Task.Step (s : Shared) : Task → Op → Task → List Task → Prop
  | listener {l l' : Listener} {op : Op} {started : List Reader} :
      Listener.Step s l op l' started →
      Step s (.listener l) op (.listener l') (started.map .reader)
  | reader {r r' : Reader} {op : Op} :
      Reader.Step s r op r' → Step s (.reader r) op (.reader r') []
  | upstream {u u' : Upstream} {op : Op} :
      Upstream.Step s u op u' → Step s (.upstream u) op (.upstream u') []

/-- **The steps cover the code**: each thread moves by one of the steps of its kind. -/
theorem Task.step_of_next {s : Shared} {t t' : Task} {ch : Choice} {op : Op}
    {started : List Task} (h : t.next s ch = some (op, t', started)) :
    Task.Step s t op t' started := by
  unfold next at h
  split at h
  all_goals
    obtain ⟨out, hn, heq⟩ := Option.map_eq_some_iff.mp h
    cases heq
  · exact .listener (Listener.step_of_next hn)
  · exact .reader (Reader.step_of_next hn)
  · exact .upstream (Upstream.step_of_next hn)

/-- A move of the daemon is a step of one of its threads. -/
theorem move_cases {c d : System} {op : Op} (hm : daemon.Move c op d) :
    ∃ (i : Nat) (t t' : Task) (started : List Task), c.tasks[i]? = some t ∧
      Task.Step c.shared t op t' started ∧ d.shared = op.exec c.shared ∧
      d.tasks = c.tasks.set i t' ++ started := by
  cases hm with
  | @task i t t' ch started ht hn =>
    exact ⟨i, t, t', started, ht, Task.step_of_next hn, rfl, rfl⟩
  | outside hs => cases hs

/-- A property of each thread and the shared state, kept by every step of the
thread and stable under the operations of the others. -/
theorem forall_tasks {c d : System} {op : Op} {J : Shared → Task → Prop}
    (hm : daemon.Move c op d) (hJ : ∀ t ∈ c.tasks, J c.shared t)
    (hOwn : ∀ t t' started, t ∈ c.tasks → Task.Step c.shared t op t' started →
      J (op.exec c.shared) t' ∧ ∀ u ∈ started, J (op.exec c.shared) u)
    (hStable : ∀ u ∈ c.tasks, J c.shared u → J (op.exec c.shared) u) :
    ∀ u ∈ d.tasks, J d.shared u := by
  intro u hu
  obtain ⟨j, hj⟩ := List.getElem?_of_mem hu
  refine hm.forall_tasks (J := fun _ s t => J s t)
    (fun i t ht => hJ t (List.mem_of_getElem? ht)) (fun i t ch t' started ht hn => ?_)
    (fun started hs => by cases hs)
    (fun i v hv => hStable v (List.mem_of_getElem? hv)) j u hj
  have hStep := hOwn t t' started (List.mem_of_getElem? ht) (Task.step_of_next hn)
  exact ⟨hStep.1, fun _ => hStep.2⟩

-- ---------------------------------------------------------------------------
-- What an operation changes
-- ---------------------------------------------------------------------------

/-- How an operation changes the client `k`. -/
inductive ClientChange (s : Shared) (k : ConnId) : Op → ClientMutState → Prop
  | same {op : Op} :
      (∀ readOn line id n, op ≠ .record readOn line k id n ∨
        (s.client k).pendingRequest ≠ none) →
      (∀ id more a, op ≠ .respond k id more a ∨
        ∀ c r, (s.client k).sendEphMemResponse id more a ≠ .ok (c, r)) →
      ClientChange s k op (s.client k)
  | fresh {pid : Pid} : k = s.nextConn → ClientChange s k (.register pid) .new
  | recorded {readOn : ConnId} {line id n : Nat} :
      (s.client k).pendingRequest = none →
      ClientChange s k (.record readOn line k id n)
        { s.client k with pendingRequest := some ⟨id, n, 0, []⟩ }
  | responded {id : Nat} {more : Bool} {a : Option EphAllocation} {c : ClientMutState}
      {r : Option Nat} :
      (s.client k).sendEphMemResponse id more a = .ok (c, r) →
      ClientChange s k (.respond k id more a) c

theorem ClientMutState.record_eq (c : ClientMutState) (id n : Nat) :
    c.record id n = match c.pendingRequest with
      | some _ => .error .alreadyPending
      | none => .ok { c with pendingRequest := some ⟨id, n, 0, []⟩ } := rfl

/-- `respond` in terms of the one section it runs. -/
theorem exec_respond (s : Shared) (k : ConnId) (id : Nat) (more : Bool)
    (a : Option EphAllocation) :
    (∃ p p' c r, (s.client k).pendingRequest = some p ∧ p.id = id ∧ p.count a = .ok p' ∧
      (s.client k).sendEphMemResponse id more a = .ok (c, r) ∧
      (Op.respond k id more a).exec s =
        (s.setClient k c).emit (responseOutputs k p' more a)) ∨
    ((∀ c r, (s.client k).sendEphMemResponse id more a ≠ .ok (c, r)) ∧
      (Op.respond k id more a).exec s = s) := by
  cases hSend : (s.client k).sendEphMemResponse id more a with
  | error e =>
    refine Or.inr ⟨nofun, ?_⟩
    simp only [Op.exec, hSend]
    split
    · rfl
    · split
      · rename_i heq
        cases heq
      · rfl
  | ok out =>
    obtain ⟨c, r⟩ := out
    obtain ⟨p, p', hp, hId, hCount, -⟩ := ClientMutState.sendEphMemResponse_ok hSend
    refine Or.inl ⟨p, p', c, r, hp, hId, hCount, rfl, ?_⟩
    have hWith := ClientMutState.pendingWith_eq_some.mpr ⟨hp, hId⟩
    simp only [Op.exec, hWith, hCount, hSend]

/-- A response that the client takes leaves it as `send_eph_mem_response` says. -/
theorem client_exec_respond {s : Shared} {k : ConnId} {id : Nat} {more : Bool}
    {a : Option EphAllocation} {c : ClientMutState} {r : Option Nat}
    (h : (s.client k).sendEphMemResponse id more a = .ok (c, r)) :
    ((Op.respond k id more a).exec s).client k = c := by
  rcases exec_respond s k id more a with ⟨_, _, c', r', -, -, -, hSend, hExec⟩ | ⟨hNot, -⟩
  · cases h.symm.trans hSend
    rw [hExec]
    simp [Shared.setClient, Shared.emit]
  · exact absurd h (hNot c r)

/-- **What an operation does to a client**, case by case. -/
theorem clientChange_exec (op : Op) (s : Shared) (k : ConnId) :
    ClientChange s k op ((op.exec s).client k) := by
  cases op with
  | register pid =>
    by_cases hk : k = s.nextConn
    · have hNew : ((Op.register pid).exec s).client k = .new := by
        simp [Op.exec, hk]
      rw [hNew]
      exact .fresh hk
    · have hSame : ((Op.register pid).exec s).client k = s.client k := by
        simp [Op.exec, hk]
      rw [hSame]
      exact .same (fun _ _ _ _ => Or.inl nofun) (fun _ _ _ => Or.inl nofun)
  | record readOn line k' id n =>
    cases hp : (s.client k').pendingRequest with
    | some p =>
      have hSame : (Op.record readOn line k' id n).exec s = s := by
        simp [Op.exec, ClientMutState.record_eq, hp]
      rw [hSame]
      refine .same (fun r l i m => ?_) (fun _ _ _ => Or.inl nofun)
      by_cases hk : k' = k
      · subst hk
        exact Or.inr (by simp [hp])
      · exact Or.inl (by simp [hk])
    | none =>
      by_cases hk : k' = k
      · subst hk
        have hNew : ((Op.record readOn line k' id n).exec s).client k' =
            { s.client k' with pendingRequest := some ⟨id, n, 0, []⟩ } := by
          simp [Op.exec, ClientMutState.record_eq, hp, Shared.setClient, Shared.emit]
        rw [hNew]
        exact .recorded hp
      · have hSame : ((Op.record readOn line k' id n).exec s).client k = s.client k := by
          simp [Op.exec, ClientMutState.record_eq, hp, Shared.setClient, Shared.emit,
            Function.update_of_ne (Ne.symm hk)]
        rw [hSame]
        exact .same (fun _ _ _ _ => Or.inl (by simp [hk])) (fun _ _ _ => Or.inl nofun)
  | respond k' id more a =>
    rcases exec_respond s k' id more a with
      ⟨p, p', c, r, -, -, -, hSend, hExec⟩ | ⟨hNot, hExec⟩
    · rw [hExec]
      by_cases hk : k' = k
      · subst hk
        have hNew : ((s.setClient k' c).emit (responseOutputs k' p' more a)).client k' = c := by
          simp [Shared.setClient, Shared.emit]
        rw [hNew]
        exact .responded hSend
      · have hSame : ((s.setClient k' c).emit (responseOutputs k' p' more a)).client k =
            s.client k := by
          simp [Shared.setClient, Shared.emit, Function.update_of_ne (Ne.symm hk)]
        rw [hSame]
        exact .same (fun _ _ _ _ => Or.inl nofun) (fun _ _ _ => Or.inl (by simp [hk]))
    · rw [hExec]
      refine .same (fun _ _ _ _ => Or.inl nofun) (fun id' more' a' => ?_)
      by_cases heq : Op.respond k' id more a = .respond k id' more' a'
      · cases heq
        exact Or.inr hNot
      · exact Or.inl heq
  | close conn pid =>
    have hSame : ((Op.close conn pid).exec s).client k = s.client k := by
      simp only [Op.exec]
      split
      · rfl
      · split <;> rfl
    rw [hSame]
    exact .same (fun _ _ _ _ => Or.inl nofun) (fun _ _ _ => Or.inl nofun)
  | _ => exact .same (fun _ _ _ _ => Or.inl nofun) (fun _ _ _ => Or.inl nofun)

-- ---------------------------------------------------------------------------
-- The log
-- ---------------------------------------------------------------------------

/-- What an operation can add to the log. -/
inductive Emits (s : Shared) : Op → Output → Prop
  | recorded {readOn k : ConnId} {line id n : Nat} :
      (s.client k).pendingRequest = none →
      Emits s (.record readOn line k id n) (.recorded readOn line k id n)
  | received {cmd : ConsumerCommand} : Emits s (.receive cmd) (.received cmd)
  | counted {k : ConnId} {id : Nat} {more : Bool} {a : EphAllocation} {p p' : PendingRequest} :
      (s.client k).pendingRequest = some p → p.id = id → p.count (some a) = .ok p' →
      Emits s (.respond k id more (some a)) (.counted k id a)
  | finished {k : ConnId} {id : Nat} {a : Option EphAllocation} {p p' : PendingRequest} :
      (s.client k).pendingRequest = some p → p.id = id → p.count a = .ok p' →
      Emits s (.respond k id false a) (.finished k id p'.received p'.allocations)
  | replied {k : ConnId} {id size : Nat} {ok : Bool} :
      Emits s (.reply k id size ok) (.replied k id size ok)
  | removed {k : ConnId} {pid : Pid} :
      s.clients.get? pid = some k → Emits s (.close k pid) (.removed k k)

/-- What an operation adds to the log, newest first. -/
def Op.outputs (s : Shared) : Op → List Output
  | .record readOn line k id n =>
    match (s.client k).pendingRequest with
    | some _ => []
    | none => [.recorded readOn line k id n]
  | .receive cmd => [.received cmd]
  | .respond k id more a =>
    match (s.client k).pendingWith id with
    | none => []
    | some p =>
      match p.count a with
      | .error _ => []
      | .ok p' => responseOutputs k p' more a
  | .reply k id size ok => [.replied k id size ok]
  | .close conn pid => if s.clients.get? pid = some conn then [.removed conn conn] else []
  | _ => []

/-- A response that is counted ends the request when no more are to come. -/
theorem ClientMutState.sendEphMemResponse_of_count {c : ClientMutState} {id : Nat} {m : Bool}
    {a : Option EphAllocation} {p p' : PendingRequest} (hp : c.pendingRequest = some p)
    (hId : p.id = id) (hCount : p.count a = .ok p') :
    c.sendEphMemResponse id m a =
      if m then .ok ({ c with pendingRequest := some p' }, none)
      else .ok (⟨extendAllocations c.allocations p'.allocations, none⟩, some p'.received) := by
  simp [sendEphMemResponse, hp, hId, hCount]

/-- The log grows by what the operation records. -/
theorem log_exec (op : Op) (s : Shared) : (op.exec s).log = op.outputs s ++ s.log := by
  cases op with
  | record readOn line k id n =>
    simp only [Op.exec, Op.outputs, ClientMutState.record_eq]
    cases (s.client k).pendingRequest <;> rfl
  | respond k id more a =>
    simp only [Op.exec, Op.outputs]
    cases hp : (s.client k).pendingWith id with
    | none => rfl
    | some p =>
      obtain ⟨hSome, hId⟩ := ClientMutState.pendingWith_eq_some.mp hp
      cases hCount : p.count a with
      | error e => simp only [hCount, List.nil_append]
      | ok p' =>
        simp only [ClientMutState.sendEphMemResponse_of_count hSome hId hCount, hCount]
        cases more <;> rfl
  | close conn pid =>
    simp only [Op.exec, Op.outputs]
    cases hk : s.clients.get? pid with
    | none => rfl
    | some k =>
      by_cases heq : k = conn
      · simp [heq, Shared.emit]
      · simp [heq]
  | _ => rfl

/-- Every entry an operation writes is one of those it can write. -/
theorem emits_of_mem {op : Op} {s : Shared} {o : Output} (h : o ∈ op.outputs s) :
    Emits s op o := by
  cases op with
  | record readOn line k id n =>
    simp only [Op.outputs] at h
    cases hp : (s.client k).pendingRequest with
    | some p => simp [hp] at h
    | none =>
      rw [hp] at h
      rw [List.mem_singleton.mp h]
      exact .recorded hp
  | receive cmd =>
    rw [List.mem_singleton.mp h]
    exact .received
  | respond k id more a =>
    simp only [Op.outputs] at h
    split at h
    · cases h
    · rename_i p hp
      obtain ⟨hSome, hId⟩ := ClientMutState.pendingWith_eq_some.mp hp
      split at h
      · cases h
      · rename_i p' hCount
        have hId' := (PendingRequest.count_id hCount).1
        rcases List.mem_append.mp h with hFin | hCnt
        · cases more with
          | true => cases hFin
          | false =>
            rw [if_neg (by simp)] at hFin
            rw [List.mem_singleton.mp hFin, hId', hId]
            exact .finished hSome hId hCount
        · cases a with
          | none => cases hCnt
          | some a =>
            rw [List.mem_singleton.mp hCnt, hId', hId]
            exact .counted hSome hId hCount
  | reply k id size ok =>
    rw [List.mem_singleton.mp h]
    exact .replied
  | close conn pid =>
    simp only [Op.outputs] at h
    split at h
    · rw [List.mem_singleton.mp h]
      exact .removed ‹_›
    · cases h
  | _ => cases h

/-- An entry of the log was written by this operation or before. -/
theorem mem_log_exec {op : Op} {s : Shared} {o : Output} (h : o ∈ (op.exec s).log) :
    Emits s op o ∨ o ∈ s.log := by
  rw [log_exec] at h
  exact (List.mem_append.mp h).imp emits_of_mem id

theorem mem_log_exec_of_mem {op : Op} {s : Shared} {o : Output} (h : o ∈ s.log) :
    o ∈ (op.exec s).log := by
  rw [log_exec]
  exact List.mem_append_right _ h

-- ---------------------------------------------------------------------------
-- The client list and the counters
-- ---------------------------------------------------------------------------

/-- The table of clients changes when one registers and when its own connection closes. -/
theorem clients_exec (op : Op) (s : Shared) :
    (∃ pid, op = .register pid ∧ (op.exec s).clients = s.clients.insert pid s.nextConn) ∨
    (∃ k pid, op = .close k pid ∧ s.clients.get? pid = some k ∧
      (op.exec s).clients = s.clients.erase pid) ∨
    ((∀ pid, op ≠ .register pid) ∧ (op.exec s).clients = s.clients) := by
  cases op with
  | register pid => exact Or.inl ⟨pid, rfl, rfl⟩
  | close conn pid =>
    cases hk : s.clients.get? pid with
    | none =>
      refine Or.inr (Or.inr ⟨nofun, ?_⟩)
      simp [Op.exec, hk]
    | some k =>
      by_cases heq : k = conn
      · subst heq
        refine Or.inr (Or.inl ⟨k, pid, rfl, hk, ?_⟩)
        simp [Op.exec, hk]
      · refine Or.inr (Or.inr ⟨nofun, ?_⟩)
        simp [Op.exec, hk, heq]
  | record readOn line k id n =>
    refine Or.inr (Or.inr ⟨nofun, ?_⟩)
    simp only [Op.exec]
    split <;> rfl
  | respond k id more a =>
    refine Or.inr (Or.inr ⟨nofun, ?_⟩)
    rcases exec_respond s k id more a with ⟨_, _, _, _, -, -, -, -, hExec⟩ | ⟨-, hExec⟩
    · rw [hExec]
      rfl
    · rw [hExec]
  | _ => exact Or.inr (Or.inr ⟨nofun, rfl⟩)

/-- The connections an operation opens. -/
def Op.connections : Op → Nat
  | .register _ => 1
  | _ => 0

/-- The request ids an operation takes. -/
def Op.requestIds : Op → Nat
  | .takeId => 1
  | _ => 0

/-- Connections and requests are numbered one after the other. -/
theorem counters_exec (op : Op) (s : Shared) :
    (op.exec s).nextConn = s.nextConn + op.connections ∧
      (op.exec s).nextRequest = s.nextRequest + op.requestIds := by
  cases op with
  | record readOn line k id n =>
    simp only [Op.exec]
    split <;> exact ⟨rfl, rfl⟩
  | respond k id more a =>
    rcases exec_respond s k id more a with ⟨_, _, _, _, -, -, -, -, hExec⟩ | ⟨-, hExec⟩
    · rw [hExec]
      exact ⟨rfl, rfl⟩
    · rw [hExec]
      exact ⟨rfl, rfl⟩
  | close conn pid =>
    simp only [Op.exec]
    split
    · exact ⟨rfl, rfl⟩
    · split <;> exact ⟨rfl, rfl⟩
  | _ => exact ⟨rfl, rfl⟩

end EphMemory.Ephemerald
