import EphMemory.Libephmem.Calls

/-!
# Libephmem — the amount of a request

A call sends its rounded amount, the daemon's reader reads the lines in order
and rounds the amount it reads, and forwards what it recorded. So what a
request is recorded for and what the orchestrator is asked for is the amount
on the line the request was read from, which a call has rounded.

* `AmountInv` — along every run of a process and the daemon, what the daemon
  has at hand for a line is the amount on it;
* `CallsBy.recorded_amount` — so is what it records;
* `forwarded_recorded` — and what it forwards is what it has recorded.
-/

namespace EphMemory.Libephmem

open EphMemory.Lib EphMemory.Ephemerald

-- ---------------------------------------------------------------------------
-- From the line to the record
-- ---------------------------------------------------------------------------

/-- The reader has the amount of the last line it read. -/
def Reads (sent : List Nat) (r : Reader) : Prop :=
  match r.pc with
  | .lookup size => ∃ amount, size = some amount ∧ sent[r.lines - 1]? = some amount
  | .takeId _ amount => sent[r.lines - 1]? = some amount
  | .handle _ _ amount => sent[r.lines - 1]? = some amount
  | _ => True

/-- The amount a call is about to send. -/
def LibPc.amount : LibPc → Option Nat
  | .idle => none
  | .draining aligned => some aligned
  | .sending aligned => some aligned
  | .waiting aligned => some aligned

structure AmountInv (k : ConnId) (j : Joint) : Prop where
  calls : ∀ a ∈ j.lib.pc.amount, checkedNextMultipleOf a = some a
  sent : ∀ a ∈ j.lib.sent, checkedNextMultipleOf a = some a
  readers : ∀ r, .reader r ∈ j.daemon.tasks → r.conn = k → Reads j.lib.sent r
  recorded : ∀ line k' id n, Output.recorded k line k' id n ∈ j.daemon.shared.log →
    j.lib.sent[line - 1]? = some n

/-- A line that was sent stays the line it was. -/
theorem getElem?_sent {sent : List Nat} {i a : Nat} (h : sent[i]? = some a) (b : Nat) :
    (sent ++ [b])[i]? = some a := by
  obtain ⟨hLt, -⟩ := List.getElem?_eq_some_iff.mp h
  rw [List.getElem?_append_left hLt, h]

/-- Sending one more line changes nothing about those that were read. -/
theorem Reads.send {sent : List Nat} {r : Reader} (h : Reads sent r) (b : Nat) :
    Reads (sent ++ [b]) r := by
  obtain ⟨conn, pid, lines, pc⟩ := r
  cases pc with
  | lookup size =>
    obtain ⟨amount, hSize, hSent⟩ := h
    exact ⟨amount, hSize, getElem?_sent hSent b⟩
  | takeId k amount => exact getElem?_sent h b
  | handle k id amount => exact getElem?_sent h b
  | _ => trivial

/-- A reader of the connection reads the next line that was sent, and keeps its
amount until it records it. -/
theorem Reads.next {k : ConnId} {j : Joint} {i : Nat} {q r : Reader} {ch : Choice} {op : Op}
    (h : Reads j.lib.sent q) (hk : q.conn = k) (hq : j.daemon.tasks[i]? = some (.reader q))
    (hFeeds : feeds k j (.task i ch) = true) (hn : q.next j.daemon.shared ch = some (op, r)) :
    Reads j.lib.sent r := by
  cases Reader.step_of_next hn with
  | @request conn pid lines cmd _ =>
    cases ch with
    | line cmd' =>
      simp only [feeds, hq, decide_eq_true_eq] at hFeeds
      rcases hFeeds with hne | ⟨hSome, hLine⟩
      · exact absurd hk hne
      · obtain ⟨a, ha⟩ := Option.isSome_iff_exists.mp hSome
        rw [ha] at hLine
        subst hLine
        have hSize : some a = cmd.size := by
          simpa [Reader.next, Reader.dispatch, request, ConsumerCommand.new] using hn
        exact ⟨a, hSize.symm, ha⟩
    | _ => cases hn
  | found _ =>
    obtain ⟨amount, hSize, hSent⟩ := h
    cases hSize
    exact hSent
  | takeId => exact h
  | _ => trivial

/-- What is recorded for a line is the amount on it: rounding it again changes
nothing. -/
theorem AmountInv.record {k : ConnId} {j : Joint} (h : AmountInv k j) {i : Nat} {t t' : Task}
    {started : List Task} {line id n : Nat} {k' : ConnId} (ht : j.daemon.tasks[i]? = some t)
    (hs : Task.Step j.daemon.shared t (.record k line k' id n) t' started)
    (hNone : (j.daemon.shared.client k').pendingRequest = none) :
    j.lib.sent[line - 1]? = some n := by
  cases hs with
  | listener hl => cases hl
  | upstream hu => cases hu
  | reader hr =>
    cases hr with
    | record hSize _ _ =>
      have hSent := h.readers _ (List.mem_of_getElem? ht) rfl
      have hRound := h.sent _ (List.mem_of_getElem? hSent)
      cases hRound.symm.trans hSize
      exact hSent
    | refuse hSome => exact absurd hNone hSome

/-- A step of the daemon reads lines off the socket, and records what it read. -/
theorem AmountInv.daemon_move {k : ConnId} {j : Joint} (h : AmountInv k j)
    {l : Label Op Choice} {s' : System} (hFire : daemon.fire j.daemon l = some s')
    (hFeeds : feeds k j l = true) : AmountInv k ⟨s', j.lib⟩ := by
  obtain ⟨i, ch, t, op, t', started, rfl, ht, hn, -, rfl⟩ := daemon_fire hFire
  have hStep := Task.step_of_next hn
  refine ⟨h.calls, h.sent, fun r hr hk => ?_, fun line k' id n hRec => ?_⟩
  · rcases List.mem_append.mp hr with hOld | hNew
    · rcases List.mem_or_eq_of_mem_set hOld with hOld | rfl
      · exact h.readers r hOld hk
      · -- the reader that moved
        cases t with
        | listener l =>
          obtain ⟨_, -, hEq⟩ := Option.map_eq_some_iff.mp hn
          cases hEq
        | upstream u =>
          obtain ⟨_, -, hEq⟩ := Option.map_eq_some_iff.mp hn
          cases hEq
        | reader q =>
          obtain ⟨⟨op', q'⟩, hNext, hEq⟩ := Option.map_eq_some_iff.mp hn
          have hConn : q'.conn = q.conn := by cases Reader.step_of_next hNext <;> rfl
          cases hEq
          have hOwn := hConn.symm.trans hk
          exact (h.readers q (List.mem_of_getElem? ht) hOwn).next hOwn ht hFeeds hNext
    · -- a new connection
      cases hStep with
      | reader _ => cases hNew
      | upstream _ => cases hNew
      | listener hl =>
        obtain ⟨q, hq, hEq⟩ := List.mem_map.mp hNew
        cases hEq
        cases hl with
        | register =>
          rw [List.mem_singleton.mp hq]
          trivial
        | _ => cases hq
  · rcases mem_log_exec hRec with hEmit | hOld
    · cases hEmit with
      | recorded hNone => exact h.record ht hStep hNone
    · exact h.recorded line k' id n hOld

/-- A step of the process adds a line at the end. -/
theorem AmountInv.lib_move {k : ConnId} {j : Joint} (h : AmountInv k j) {a : Action} {lib : Lib}
    (hs : Lib.Step (j.unread k) j.lib a lib) : AmountInv k ⟨j.daemon, lib⟩ := by
  cases hs with
  | @call amount aligned _ hAligned =>
    refine ⟨fun a ha => ?_, h.sent, h.readers, h.recorded⟩
    have hRound := alignAmount_eq amount
    rw [hAligned, Option.map_some] at hRound
    cases ha
    exact checkedNextMultipleOf_aligned hRound.symm
  | @drain aligned hpc =>
    exact ⟨fun a ha => h.calls a (by rw [hpc]; exact ha), h.sent, h.readers, h.recorded⟩
  | @send aligned hpc =>
    have hAligned := h.calls aligned (by rw [hpc]; rfl)
    refine ⟨fun a ha => ?_, fun a ha => ?_, fun r hr hk => (h.readers r hr hk).send aligned,
      fun line k' id n hRec => getElem?_sent (h.recorded line k' id n hRec) aligned⟩
    · cases ha
      exact hAligned
    · rcases List.mem_append.mp ha with ha | ha
      · exact h.sent a ha
      · rw [List.mem_singleton.mp ha]
        exact hAligned
  | _ => exact ⟨nofun, h.sent, h.readers, h.recorded⟩

theorem amountInv_init (k : ConnId) : AmountInv k initJoint.shared := by
  refine ⟨nofun, nofun, fun r hr => ?_, nofun⟩
  rcases List.mem_cons.mp hr with hEq | hr
  · cases hEq
  · cases List.mem_singleton.mp hr

/-- **The daemon records what the process asked for.** A request that was read
from a line is recorded for the amount on it, which the call has rounded. -/
theorem CallsBy.recorded_amount {k : ConnId} {allow : Joint → Action → Prop} {j : Joint}
    (h : CallsBy k allow j) {line id n : Nat} {k' : ConnId}
    (hRec : Output.recorded k line k' id n ∈ j.daemon.shared.log) :
    j.lib.sent[line - 1]? = some n := by
  have hInv : AmountInv k j := by
    refine h.invariant (fun j a j' hI hFire _ => ?_) (amountInv_init k)
    rcases fire_cases hFire with ⟨l, rfl, hFeeds, hd, hLib⟩ | ⟨hDaemon, hs⟩
    · have hNext := hI.daemon_move hd hFeeds
      rw [← hLib] at hNext
      exact hNext
    · have hNext := hI.lib_move hs
      rw [← hDaemon] at hNext
      exact hNext
  exact hInv.recorded line k' id n hRec

-- ---------------------------------------------------------------------------
-- From the record to the orchestrator
-- ---------------------------------------------------------------------------

/-- What the thread is about to forward is recorded. -/
def Forwards (s : Shared) : Task → Prop
  | .reader ⟨conn, _, lines, .forward k id n⟩ => Output.recorded conn lines k id n ∈ s.log
  | _ => True

/-- What has been recorded stays recorded. -/
theorem Forwards.exec {s : Shared} {u : Task} (h : Forwards s u) (op : Op) :
    Forwards (op.exec s) u := by
  cases u with
  | reader r =>
    obtain ⟨conn, pid, lines, pc⟩ := r
    cases pc with
    | forward => exact mem_log_exec_of_mem h
    | _ => trivial
  | _ => trivial

/-- Along every run a reader forwards what it has recorded. -/
theorem forwards_of_reachable {allow : System → Op → Prop} {s : System}
    (h : ReachableBy allow s) : ∀ t ∈ s.tasks, Forwards s.shared t := by
  refine h.invariant (I := fun s => ∀ t ∈ s.tasks, Forwards s.shared t)
    (fun s op s' hI hm _ => ?_) (fun t ht => ?_)
  · refine forall_tasks hm hI (fun t t' started ht hs => ?_) (fun u hu hOld => ?_)
    · cases hs with
      | listener hl =>
        refine ⟨trivial, fun u hu => ?_⟩
        obtain ⟨r, hr, rfl⟩ := List.mem_map.mp hu
        cases hl with
        | register => rw [List.mem_singleton.mp hr]; trivial
        | _ => cases hr
      | upstream _ => exact ⟨trivial, nofun⟩
      | reader hr =>
        refine ⟨?_, nofun⟩
        cases hr with
        | record _ _ hNone =>
          show _ ∈ ((Op.record _ _ _ _ _).exec s.shared).log
          rw [log_exec]
          simp [Op.outputs, hNone]
        | _ => trivial
    · exact hOld.exec op
  · rcases List.mem_cons.mp ht with rfl | ht
    · trivial
    · rw [List.mem_singleton.mp ht]
      trivial

/-- **The orchestrator is asked for what was recorded.** -/
theorem forwarded_recorded {allow : System → Op → Prop} {s s' : System} {id m : Nat} {ok : Bool}
    (h : ReachableBy allow s) (hm : daemon.Move s (.requestEphMem id m ok) s') :
    ∃ readOn line k, Output.recorded readOn line k id m ∈ s.shared.log := by
  obtain ⟨i, t, t', started, ht, hs, -, -⟩ := move_cases hm
  have hForwards := forwards_of_reachable h t (List.mem_of_getElem? ht)
  cases hs with
  | listener hl => cases hl
  | upstream hu => cases hu
  | reader hr =>
    cases hr with
    | forwarded => exact ⟨_, _, _, hForwards⟩
    | forwardFailed => exact ⟨_, _, _, hForwards⟩

end EphMemory.Libephmem
