import EphMemory.Lib.Pool
import EphMemory.Orchestrator.Types

/-!
# QMP — connections

The orchestrator's side of the QMP connections, `qmp.rs` and the receiving end
of `qmp/events.rs`:

* `Caller` — a thread between `vm.qmp.lock()` and the drop of the guard: it
  writes a command and waits for the next value in the response channel, as
  often as it likes;
* `Reader` — `qmp_read_thread`: it reads QEMU's lines, puts answers into the
  connection's response channel and events into the channel of the event
  handler;
* `Handler` — `qmp_event_handler_thread` up to the call of `handle_event`.

QEMU is the environment. It executes the commands of a connection in order
and writes one line with a `return` or an `error` for each; it writes lines
without either whenever it likes, and hangs up. Whether QEMU got the command of
a write that failed is open. `StaysBroken` is what the runs assume of sockets.

`executed`, `answered`, `emitted`, `handled` and `log` record what happened.
The theorems read them; no thread does.
-/

namespace EphMemory.Qmp

open EphMemory.Lib
open EphMemory.Orchestrator (VmId)

-- ---------------------------------------------------------------------------
-- Messages
-- ---------------------------------------------------------------------------

/-- `serde_json::Value`. The numbers of the protocol are integers. -/
inductive Json where
  | null
  | bool (b : Bool)
  | num (n : Int)
  | str (s : String)
  | arr (values : List Json)
  | obj (fields : List (String × Json))

/-- `Value::get` with a key. -/
def Json.get (key : String) : Json → Option Json
  | .obj fields => (fields.find? fun f => f.1 = key).map Prod.snd
  | _ => none

/-- The read thread takes a line with one of these keys for an answer. -/
def Json.isResponse (value : Json) : Bool :=
  (value.get "return").isSome || (value.get "error").isSome

def Json.isEvent (value : Json) : Bool := !value.isResponse && (value.get "event").isSome

structure QmpCommand where
  execute : String
  arguments : Option Json

/-- What the read thread makes of a line: the JSON value in it, if it is one. -/
inductive Line where
  | value (v : Json)
  | malformed

inductive QmpError where
  | io
  | disconnected
  | failed (error : Json)
  | unexpected (response : Json)
  | decode

/-- `QmpConnection::validate_qmp_response`. -/
def validateQmpResponse (response : Json) : Except QmpError Json :=
  match response.get "error" with
  | some error => .error (.failed error)
  | none =>
    if (response.get "return").isSome then .ok response else .error (.unexpected response)

/-- `QmpConnection::qmp_call` on the result of `send`. `none` is the panic of
its `expect`. -/
def qmpCall {α : Type} (fromValue : Json → Option α) (sent : Except QmpError Json) :
    Option (Except QmpError α) :=
  match sent with
  | .error e => some (.error e)
  | .ok response =>
    match response.get "return" with
    | none => none
    | some value =>
      match fromValue value with
      | none => some (.error .decode)
      | some result => some (.ok result)

-- ---------------------------------------------------------------------------
-- Shared state
-- ---------------------------------------------------------------------------

/-- A connection, with what is on its socket. -/
structure Connection where
  connected : Bool
  /-- The mutex around the `QmpConnection`. -/
  locked : Bool
  /-- The threads that hold the VM. -/
  users : Nat
  /-- The commands QEMU has not executed. -/
  toQemu : List QmpCommand
  /-- The lines the read thread has not read. -/
  fromQemu : List Line
  hungUp : Bool
  /-- A write has failed. -/
  broken : Bool
  /-- The response channel. -/
  responses : List Json
  /-- The read thread has not ended, so the channel has a sender. -/
  reading : Bool
  /-- The `QmpConnection` is dropped, and the channel's receiver with it. -/
  dropped : Bool
  /-- What QEMU executed, with its answers. -/
  executed : List (QmpCommand × Json)
  /-- The commands that got an answer from the channel, with the answer. -/
  answered : List (QmpCommand × Json)
  /-- The events QEMU wrote. -/
  emitted : List Json

/-- Before the connection is made. -/
def Connection.new : Connection where
  connected := false
  locked := false
  users := 0
  toQemu := []
  fromQemu := []
  hungUp := false
  broken := false
  responses := []
  reading := false
  dropped := false
  executed := []
  answered := []
  emitted := []

/-- `send` has returned. -/
inductive Output where
  | returned (vm : VmId) (cmd : QmpCommand) (result : Except QmpError Json)

structure Shared where
  conn : VmId → Connection
  /-- The channel to the event handler. -/
  events : List (VmId × Json)
  /-- The event handler runs, so that channel has a receiver. -/
  handling : Bool
  handled : List (VmId × Json)
  log : List Output

-- ---------------------------------------------------------------------------
-- Operations
-- ---------------------------------------------------------------------------

/-- The operations on one connection. -/
inductive ConnOp where
  | connect
  | lock
  | unlock
  | write (cmd : QmpCommand)
  | writeFailed (cmd : QmpCommand) (delivered : Bool)
  | recv (cmd : QmpCommand)
  | readLine
  | sendResponse (value : Json)
  | endReading
  -- the environment
  | enter
  | drop
  | execute (answer : Json)
  | emit (value : Json)
  | garble
  | hangUp

def ConnOp.exec : ConnOp → Connection → Connection
  | .connect, _ =>
    { Connection.new with connected := true, locked := true, users := 1, reading := true }
  | .lock, c => { c with locked := true }
  | .unlock, c => { c with locked := false, users := c.users - 1 }
  | .write cmd, c => { c with toQemu := c.toQemu ++ [cmd] }
  | .writeFailed cmd delivered, c =>
    { c with broken := true, toQemu := if delivered then c.toQemu ++ [cmd] else c.toQemu }
  | .recv cmd, c =>
    match c.responses with
    | [] => c
    | r :: rest => { c with responses := rest, answered := c.answered ++ [(cmd, r)] }
  | .readLine, c => { c with fromQemu := c.fromQemu.tail }
  -- to a channel without a receiver nothing is sent
  | .sendResponse value, c =>
    if c.dropped then c else { c with responses := c.responses ++ [value] }
  | .endReading, c => { c with reading := false }
  | .enter, c => { c with users := c.users + 1 }
  | .drop, c => { c with dropped := true }
  | .execute answer, c =>
    match c.toQemu with
    | [] => c
    | cmd :: rest =>
      { c with
        toQemu := rest
        fromQemu := c.fromQemu ++ [.value answer]
        executed := c.executed ++ [(cmd, answer)] }
  | .emit value, c =>
    { c with
      fromQemu := c.fromQemu ++ [.value value]
      emitted := if value.isEvent then c.emitted ++ [value] else c.emitted }
  | .garble, c => { c with fromQemu := c.fromQemu ++ [.malformed] }
  | .hangUp, c => { c with hungUp := true }

inductive Op where
  | nop
  | conn (vm : VmId) (op : ConnOp)
  | sendEvent (vm : VmId) (value : Json)
  | takeEvent
  | handlerEnds
  | returned (vm : VmId) (cmd : QmpCommand) (result : Except QmpError Json)

def Op.exec : Op → Shared → Shared
  | .nop, s => s
  | .conn v op, s => { s with conn := Function.update s.conn v (op.exec (s.conn v)) }
  | .sendEvent v value, s =>
    if s.handling then { s with events := s.events ++ [(v, value)] } else s
  | .takeEvent, s =>
    match s.events with
    | [] => s
    | e :: rest => { s with events := rest, handled := s.handled ++ [e] }
  | .handlerEnds, s => { s with handling := false, events := [] }
  | .returned v cmd result, s => { s with log := .returned v cmd result :: s.log }

-- ---------------------------------------------------------------------------
-- Threads
-- ---------------------------------------------------------------------------

/-- What the environment decides at a step: nothing, which command a caller
sends and how the write ends, that it gives the lock back, that a read fails. -/
inductive Choice where
  | go
  | send (cmd : QmpCommand)
  | sendFails (cmd : QmpCommand) (delivered : Bool)
  | leave
  | readFails

inductive CallerPc where
  | lock
  | ready
  /-- `response_rx.recv()`. -/
  | recv (cmd : QmpCommand)
  | result (cmd : QmpCommand) (result : Except QmpError Json)
  | done

structure Caller where
  vm : VmId
  pc : CallerPc

namespace Caller

def next (s : Shared) (c : Caller) (ch : Choice) : Option (Op × Caller) :=
  match c.pc with
  | .lock => if (s.conn c.vm).locked then none else some (.conn c.vm .lock, { c with pc := .ready })
  | .ready =>
    match ch with
    | .send cmd => some (.conn c.vm (.write cmd), { c with pc := .recv cmd })
    | .sendFails cmd delivered =>
      some (.conn c.vm (.writeFailed cmd delivered), { c with pc := .result cmd (.error .io) })
    | .leave => some (.conn c.vm .unlock, { c with pc := .done })
    | _ => none
  | .recv cmd =>
    match (s.conn c.vm).responses with
    | r :: _ => some (.conn c.vm (.recv cmd), { c with pc := .result cmd (validateQmpResponse r) })
    | [] =>
      if (s.conn c.vm).reading then none
      else some (.nop, { c with pc := .result cmd (.error .disconnected) })
  | .result cmd result => some (.returned c.vm cmd result, { c with pc := .ready })
  | .done => none

end Caller

inductive ReaderPc where
  | read
  | dispatch (value : Json)
  /-- After a value was dealt with: is anybody listening? -/
  | listening
  | ending
  | done

structure Reader where
  vm : VmId
  responseTxDead : Bool
  eventTxDead : Bool
  pc : ReaderPc

namespace Reader

def next (s : Shared) (r : Reader) (ch : Choice) : Option (Op × Reader) :=
  match r.pc with
  | .read =>
    match ch with
    | .readFails => some (.nop, { r with pc := .ending })
    | _ =>
      match (s.conn r.vm).fromQemu with
      | .value v :: _ => some (.conn r.vm .readLine, { r with pc := .dispatch v })
      | .malformed :: _ => some (.conn r.vm .readLine, { r with pc := .ending })
      | [] => if (s.conn r.vm).hungUp then some (.nop, { r with pc := .ending }) else none
  | .dispatch v =>
    if v.isResponse then
      if r.responseTxDead then some (.nop, { r with pc := .read })
      else some (.conn r.vm (.sendResponse v),
        { r with responseTxDead := (s.conn r.vm).dropped, pc := .listening })
    else if (v.get "event").isSome then
      if r.eventTxDead then some (.nop, { r with pc := .read })
      else some (.sendEvent r.vm v, { r with eventTxDead := !s.handling, pc := .listening })
    -- the greeting is ignored, any other value only printed
    else some (.nop, { r with pc := .listening })
  | .listening =>
    some (.nop, { r with pc := if r.responseTxDead && r.eventTxDead then .ending else .read })
  | .ending => some (.conn r.vm .endReading, { r with pc := .done })
  | .done => none

end Reader

inductive Task where
  | caller (c : Caller)
  | reader (r : Reader)
  | handler

def Task.next (s : Shared) (t : Task) (ch : Choice) : Option (Op × Task × List Task) :=
  match t with
  | .caller c => (c.next s ch).map fun (op, c') => (op, .caller c', [])
  | .reader r => (r.next s ch).map fun (op, r') => (op, .reader r', [])
  | .handler => if s.handling && !s.events.isEmpty then some (.takeEvent, .handler, []) else none

/-- `QmpConnection::new` makes a connection, whose read thread it starts, and
calls on it before anybody else knows it; later a thread that holds the VM may
call. The rest is QEMU. -/
def outside (s : Shared) : Op → Option (List Task)
  | .conn v .connect =>
    if (s.conn v).connected then none
    else some [.reader ⟨v, false, false, .read⟩, .caller ⟨v, .ready⟩]
  | .conn v .enter =>
    if (s.conn v).connected && !(s.conn v).dropped then some [.caller ⟨v, .lock⟩] else none
  | .conn v .drop => if (s.conn v).users = 0 ∧ (s.conn v).connected then some [] else none
  | .conn v (.execute answer) =>
    if answer.isResponse && (s.conn v).connected && !(s.conn v).hungUp then
      if (s.conn v).toQemu.isEmpty then none else some []
    else none
  | .conn v (.emit value) =>
    if !value.isResponse && (s.conn v).connected && !(s.conn v).hungUp then some [] else none
  | .conn v .garble => if (s.conn v).connected && !(s.conn v).hungUp then some [] else none
  | .conn v .hangUp => if (s.conn v).connected then some [] else none
  | .handlerEnds => some []
  | _ => none

abbrev System := Config Shared Task

def qmp : Machine Shared Task Op Choice where
  next := fun _ => Task.next
  exec := Op.exec
  outside := outside

def initSystem : System where
  shared := ⟨fun _ => .new, [], true, [], []⟩
  tasks := [.handler]

/-- A socket a write to which has failed takes no more. -/
def StaysBroken (s : System) : Op → Prop
  | .conn v (.write _) => (s.shared.conn v).broken = false
  | _ => True

instance (s : System) (op : Op) : Decidable (StaysBroken s op) := by
  unfold StaysBroken
  split <;> infer_instance

abbrev Reachable (s : System) : Prop := qmp.Steps StaysBroken initSystem s

-- ---------------------------------------------------------------------------
-- Steps
-- ---------------------------------------------------------------------------

inductive Caller.Step (s : Shared) : Caller → Op → Caller → Prop
  | lock {v : VmId} :
      (s.conn v).locked = false → Step s ⟨v, .lock⟩ (.conn v .lock) ⟨v, .ready⟩
  | sent {v : VmId} {cmd : QmpCommand} :
      Step s ⟨v, .ready⟩ (.conn v (.write cmd)) ⟨v, .recv cmd⟩
  | notSent {v : VmId} {cmd : QmpCommand} {delivered : Bool} :
      Step s ⟨v, .ready⟩ (.conn v (.writeFailed cmd delivered)) ⟨v, .result cmd (.error .io)⟩
  | leave {v : VmId} : Step s ⟨v, .ready⟩ (.conn v .unlock) ⟨v, .done⟩
  | received {v : VmId} {cmd : QmpCommand} {r : Json} {rest : List Json} :
      (s.conn v).responses = r :: rest →
      Step s ⟨v, .recv cmd⟩ (.conn v (.recv cmd)) ⟨v, .result cmd (validateQmpResponse r)⟩
  | disconnected {v : VmId} {cmd : QmpCommand} :
      (s.conn v).responses = [] → (s.conn v).reading = false →
      Step s ⟨v, .recv cmd⟩ .nop ⟨v, .result cmd (.error .disconnected)⟩
  | returned {v : VmId} {cmd : QmpCommand} {r : Except QmpError Json} :
      Step s ⟨v, .result cmd r⟩ (.returned v cmd r) ⟨v, .ready⟩

inductive Reader.Step (s : Shared) : Reader → Op → Reader → Prop
  | ends {v : VmId} {rd ed : Bool} : Step s ⟨v, rd, ed, .read⟩ .nop ⟨v, rd, ed, .ending⟩
  | read {v : VmId} {rd ed : Bool} {x : Json} {rest : List Line} :
      (s.conn v).fromQemu = .value x :: rest →
      Step s ⟨v, rd, ed, .read⟩ (.conn v .readLine) ⟨v, rd, ed, .dispatch x⟩
  | garbled {v : VmId} {rd ed : Bool} {rest : List Line} :
      (s.conn v).fromQemu = .malformed :: rest →
      Step s ⟨v, rd, ed, .read⟩ (.conn v .readLine) ⟨v, rd, ed, .ending⟩
  | response {v : VmId} {ed : Bool} {x : Json} :
      x.isResponse = true →
      Step s ⟨v, false, ed, .dispatch x⟩ (.conn v (.sendResponse x))
        ⟨v, (s.conn v).dropped, ed, .listening⟩
  | responseDead {v : VmId} {ed : Bool} {x : Json} :
      x.isResponse = true → Step s ⟨v, true, ed, .dispatch x⟩ .nop ⟨v, true, ed, .read⟩
  | event {v : VmId} {rd : Bool} {x : Json} :
      x.isEvent = true →
      Step s ⟨v, rd, false, .dispatch x⟩ (.sendEvent v x) ⟨v, rd, !s.handling, .listening⟩
  | eventDead {v : VmId} {rd : Bool} {x : Json} :
      x.isEvent = true → Step s ⟨v, rd, true, .dispatch x⟩ .nop ⟨v, rd, true, .read⟩
  | other {v : VmId} {rd ed : Bool} {x : Json} :
      x.isResponse = false → x.isEvent = false →
      Step s ⟨v, rd, ed, .dispatch x⟩ .nop ⟨v, rd, ed, .listening⟩
  | listening {v : VmId} {rd ed : Bool} :
      Step s ⟨v, rd, ed, .listening⟩ .nop ⟨v, rd, ed, .read⟩
  | nobody {v : VmId} : Step s ⟨v, true, true, .listening⟩ .nop ⟨v, true, true, .ending⟩
  | ended {v : VmId} {rd ed : Bool} :
      Step s ⟨v, rd, ed, .ending⟩ (.conn v .endReading) ⟨v, rd, ed, .done⟩

inductive Task.Step (s : Shared) : Task → Op → Task → Prop
  | caller {c c' : Caller} {op : Op} :
      Caller.Step s c op c' → Step s (.caller c) op (.caller c')
  | reader {r r' : Reader} {op : Op} :
      Reader.Step s r op r' → Step s (.reader r) op (.reader r')
  | handler {e : VmId × Json} {rest : List (VmId × Json)} :
      s.handling = true → s.events = e :: rest → Step s .handler .takeEvent .handler

/-- The moves of the environment: an operation and the tasks it starts. -/
inductive OutsideStep (s : Shared) : Op → List Task → Prop
  | connect {v : VmId} :
      (s.conn v).connected = false →
      OutsideStep s (.conn v .connect) [.reader ⟨v, false, false, .read⟩, .caller ⟨v, .ready⟩]
  | enter {v : VmId} :
      (s.conn v).connected = true → OutsideStep s (.conn v .enter) [.caller ⟨v, .lock⟩]
  | drop {v : VmId} : (s.conn v).connected = true → OutsideStep s (.conn v .drop) []
  | execute {v : VmId} {answer : Json} {cmd : QmpCommand} {rest : List QmpCommand} :
      answer.isResponse = true → (s.conn v).connected = true →
      (s.conn v).toQemu = cmd :: rest → OutsideStep s (.conn v (.execute answer)) []
  | emit {v : VmId} {value : Json} :
      value.isResponse = false → (s.conn v).connected = true →
      OutsideStep s (.conn v (.emit value)) []
  | garble {v : VmId} : (s.conn v).connected = true → OutsideStep s (.conn v .garble) []
  | hangUp {v : VmId} : (s.conn v).connected = true → OutsideStep s (.conn v .hangUp) []
  | handlerEnds : OutsideStep s .handlerEnds []

/-- Whatever a caller does next is one of its steps. -/
theorem Caller.step_of_next {s : Shared} {c c' : Caller} {ch : Choice} {op : Op}
    (h : c.next s ch = some (op, c')) : Caller.Step s c op c' := by
  obtain ⟨v, pc⟩ := c
  unfold next at h
  split at h <;> rename_i hpc <;> simp only at hpc <;> subst hpc
  · split at h <;> cases h
    exact .lock (Bool.eq_false_of_not_eq_true ‹_›)
  · split at h <;> cases h
    · exact .sent
    · exact .notSent
    · exact .leave
  · split at h
    · cases h
      exact .received ‹_›
    · split at h <;> cases h
      exact .disconnected ‹_› (Bool.eq_false_of_not_eq_true ‹_›)
  · cases h
    exact .returned
  · cases h

/-- Whatever the read thread does next is one of its steps. -/
theorem Reader.step_of_next {s : Shared} {r r' : Reader} {ch : Choice} {op : Op}
    (h : r.next s ch = some (op, r')) : Reader.Step s r op r' := by
  obtain ⟨v, rd, ed, pc⟩ := r
  unfold next at h
  split at h <;> rename_i hpc <;> simp only at hpc <;> subst hpc
  · split at h
    · cases h
      exact .ends
    · split at h
      · cases h
        exact .read ‹_›
      · cases h
        exact .garbled ‹_›
      · split at h <;> cases h
        exact .ends
  · split at h
    · rename_i hResponse
      cases rd
      · cases h
        exact .response hResponse
      · cases h
        exact .responseDead hResponse
    · rename_i hNot
      have hNot := Bool.eq_false_of_not_eq_true hNot
      split at h
      · rename_i x _ hKey
        have hEvent : x.isEvent = true := by
          rw [Json.isEvent, hNot, hKey]
          rfl
        cases ed
        · cases h
          exact .event hEvent
        · cases h
          exact .eventDead hEvent
      · rename_i hOther
        cases h
        refine .other hNot ?_
        rw [Json.isEvent, Bool.eq_false_of_not_eq_true hOther, Bool.and_false]
  · cases h
    cases rd <;> cases ed
    · exact .listening
    · exact .listening
    · exact .listening
    · exact .nobody
  · cases h
    exact .ended
  · cases h

/-- **The steps cover the code**; no thread starts another. -/
theorem Task.step_of_next {s : Shared} {t t' : Task} {ch : Choice} {op : Op}
    {started : List Task} (h : t.next s ch = some (op, t', started)) :
    Task.Step s t op t' ∧ started = [] := by
  unfold next at h
  split at h
  · obtain ⟨out, hn, heq⟩ := Option.map_eq_some_iff.mp h
    cases heq
    exact ⟨.caller (Caller.step_of_next hn), rfl⟩
  · obtain ⟨out, hn, heq⟩ := Option.map_eq_some_iff.mp h
    cases heq
    exact ⟨.reader (Reader.step_of_next hn), rfl⟩
  · split at h <;> cases h
    rename_i hBoth
    rw [Bool.and_eq_true, Bool.not_eq_true', List.isEmpty_eq_false_iff] at hBoth
    obtain ⟨e, rest, heq⟩ := List.exists_cons_of_ne_nil hBoth.2
    exact ⟨.handler hBoth.1 heq, rfl⟩

/-- Whatever comes from outside is one of the environment's moves. -/
theorem outsideStep_of_outside {s : Shared} {op : Op} {started : List Task}
    (h : outside s op = some started) : OutsideStep s op started := by
  unfold outside at h
  split at h
  · split at h <;> cases h
    exact .connect (Bool.eq_false_of_not_eq_true ‹_›)
  · split at h <;> cases h
    rename_i hBoth
    exact .enter (Bool.and_eq_true_iff.mp hBoth).1
  · split at h <;> cases h
    rename_i hBoth
    exact .drop hBoth.2
  · split at h
    · rename_i hAll
      rw [Bool.and_eq_true, Bool.and_eq_true] at hAll
      split at h <;> cases h
      rename_i hNe
      rw [List.isEmpty_iff] at hNe
      obtain ⟨cmd, rest, heq⟩ := List.exists_cons_of_ne_nil hNe
      exact .execute hAll.1.1 hAll.1.2 heq
    · cases h
  · split at h <;> cases h
    rename_i hAll
    rw [Bool.and_eq_true, Bool.and_eq_true, Bool.not_eq_true'] at hAll
    exact .emit hAll.1.1 hAll.1.2
  · split at h <;> cases h
    rename_i hBoth
    exact .garble (Bool.and_eq_true_iff.mp hBoth).1
  · split at h <;> cases h
    exact .hangUp ‹_›
  · cases h
    exact .handlerEnds
  · cases h

/-- A move is a step of one of the threads or one of the environment. -/
theorem move_cases {s s' : System} {op : Op} (hm : qmp.Move s op s') :
    (∃ i t t', s.tasks[i]? = some t ∧ Task.Step s.shared t op t' ∧
      s'.tasks = s.tasks.set i t') ∨
    ∃ started, OutsideStep s.shared op started ∧ s'.tasks = s.tasks ++ started := by
  cases hm with
  | @task i t t' ch started ht hn =>
    obtain ⟨hStep, rfl⟩ := Task.step_of_next hn
    exact Or.inl ⟨i, t, t', ht, hStep, List.append_nil _⟩
  | @outside started hs => exact Or.inr ⟨started, outsideStep_of_outside hs, rfl⟩

end EphMemory.Qmp
