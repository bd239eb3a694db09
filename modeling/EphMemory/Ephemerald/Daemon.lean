import EphMemory.Ephemerald.Client

/-!
# Ephemerald — threads

The daemon's threads over the state they share. A `Client` owns one
connection, and `ID_COUNTER` numbers the connections once, so an
`Arc<Client>` is named by the number of its connection.

* `Listener` — `listener_thread` with `register_client`;
* `Reader` — the reader thread of a client's connection: `read_loop`,
  `Client::msg_handler`, `handle_eph_mem_request` and the close handler;
* `Upstream` — the reader thread of the connection to the orchestrator:
  `Orchestrator::msg_handler` and `handle_eph_mem_response`.

`register_client` holds the client list from before the reader thread starts
until the client is in it, so the two are one step. The walk over the clients
in `handle_eph_mem_response` holds the list too and asks each client once;
request ids are unique, so only one answer matters and the walk is one step.
When the connection to the orchestrator closes the process exits, which ends
the run.

`Shared.log` records what the threads did, newest first. The theorems read it;
no thread does.
-/

namespace EphMemory.Ephemerald

open EphMemory.Lib

/-- What the threads did. `readOn` is the connection a request was read on and
`line` the number of the line. -/
inductive Output where
  | recorded (readOn : ConnId) (line : Nat) (client : ConnId) (id requested : Nat)
  | received (cmd : ConsumerCommand)
  | counted (client : ConnId) (id : Nat) (a : EphAllocation)
  | finished (client : ConnId) (id received : Nat) (allocations : List EphAllocation)
  | replied (client : ConnId) (id size : Nat) (ok : Bool)
  | removed (conn client : ConnId)
  deriving DecidableEq, Repr

structure Shared where
  /-- The client list. -/
  clients : OrdMap Pid ConnId
  client : ConnId → ClientMutState
  /-- `ID_COUNTER`. -/
  nextConn : ConnId
  /-- `REQUEST_ID_COUNTER`. -/
  nextRequest : Nat
  /-- The number of the next device `daxctl` creates. -/
  nextDevice : Nat
  log : List Output

namespace Shared

def emit (s : Shared) (l : List Output) : Shared := { s with log := l ++ s.log }

def setClient (s : Shared) (k : ConnId) (c : ClientMutState) : Shared :=
  { s with client := Function.update s.client k c }

/-- The first client of the list whose pending request has this id. -/
def findClient (s : Shared) (id : Nat) : Option ConnId :=
  s.clients.values.find? fun k => ((s.client k).pendingWith id).isSome

end Shared

-- ---------------------------------------------------------------------------
-- Operations
-- ---------------------------------------------------------------------------

inductive Op where
  | nop
  -- register_client
  | register (pid : Pid)
  -- Client::msg_handler: the lookup in the client list, the request id
  | lookup (readOn : ConnId) (pid : Pid)
  | takeId
  -- handle_eph_mem_request
  | record (readOn : ConnId) (line : Nat) (client : ConnId) (id amount : Nat)
  | requestEphMem (id amount : Nat) (ok : Bool)
  -- Orchestrator::msg_handler
  | receive (cmd : ConsumerCommand)
  | newDevice (id : Nat) (more ok : Bool)
  -- send_eph_mem_response
  | respond (client : ConnId) (id : Nat) (more : Bool) (allocation : Option EphAllocation)
  | reply (client : ConnId) (id size : Nat) (ok : Bool)
  -- the close handler
  | close (conn : ConnId) (pid : Pid)
  deriving DecidableEq, Repr

/-- What a successful `send_eph_mem_response` shows in the log. -/
def responseOutputs (k : ConnId) (p : PendingRequest) (more : Bool)
    (allocation : Option EphAllocation) : List Output :=
  (if more then [] else [.finished k p.id p.received p.allocations]) ++
    (allocation.map (Output.counted k p.id)).toList

open Shared in
def Op.exec : Op → Shared → Shared
  | .nop, s => s
  | .register pid, s =>
    { s with
      clients := s.clients.insert pid s.nextConn
      client := Function.update s.client s.nextConn .new
      nextConn := s.nextConn + 1 }
  | .lookup _ _, s => s
  | .takeId, s => { s with nextRequest := s.nextRequest + 1 }
  | .record readOn line k id amount, s =>
    match (s.client k).record id amount with
    | .error _ => s
    | .ok c => (s.setClient k c).emit [.recorded readOn line k id amount]
  | .requestEphMem _ _ _, s => s
  | .receive cmd, s => s.emit [.received cmd]
  | .newDevice _ _ _, s => { s with nextDevice := s.nextDevice + 1 }
  | .respond k id more allocation, s =>
    match (s.client k).pendingWith id with
    | none => s
    | some p =>
      match p.count allocation, (s.client k).sendEphMemResponse id more allocation with
      | .ok p', .ok (c, _) => (s.setClient k c).emit (responseOutputs k p' more allocation)
      | _, _ => s
  | .reply k id size ok, s => s.emit [.replied k id size ok]
  | .close conn pid, s =>
    match s.clients.get? pid with
    | none => s
    | some k =>
      -- make sure we're removing the correct client
      if k = conn then { s.emit [.removed conn k] with clients := s.clients.erase pid } else s

-- ---------------------------------------------------------------------------
-- Threads
-- ---------------------------------------------------------------------------

/-- What the environment decides at a step: nothing, the next line of a
connection (none when its JSON is not a command), that a connection ends or
breaks the protocol, how a write or a device creation ends, who connects. -/
inductive Choice where
  | go
  | line (cmd : Option ConsumerCommand)
  | hangUp
  | outcome (ok : Bool)
  | accept (pid : Pid)
  deriving DecidableEq, Repr

def maxClients : Nat := 64

inductive Listener where
  | idle
  | accepted (pid : Pid)
  deriving DecidableEq, Repr

inductive ReaderPc where
  | reading
  | lookup (size : Option Nat)
  | takeId (client : ConnId) (amount : Nat)
  | handle (client : ConnId) (id amount : Nat)
  | forward (client : ConnId) (id amount : Nat)
  /-- The orchestrator could not be asked. -/
  | deny (client : ConnId) (id : Nat)
  | reply (client : ConnId) (id size : Nat)
  | closing
  | closed
  deriving DecidableEq, Repr

structure Reader where
  conn : ConnId
  pid : Pid
  /-- How many lines it has read. -/
  lines : Nat
  pc : ReaderPc
  deriving DecidableEq, Repr

inductive Upstream where
  | reading
  | device (size offset id : Nat) (more : Bool)
  | find (id : Nat) (more : Bool) (a : EphAllocation)
  | respond (client : ConnId) (id : Nat) (more : Bool) (a : EphAllocation)
  | reply (client : ConnId) (id size : Nat)
  deriving DecidableEq, Repr

inductive Task where
  | listener (l : Listener)
  | reader (r : Reader)
  | upstream (u : Upstream)
  deriving DecidableEq, Repr

namespace Reader

/-- `msg_handler` on a command: only a request gets past its `match`. -/
def dispatch (r : Reader) : Option ConsumerCommand → Reader
  | none => { r with lines := r.lines + 1, pc := .reading }
  | some cmd =>
    match cmd.function with
    | .ephMemRequest => { r with lines := r.lines + 1, pc := .lookup cmd.size }
    | .ephMemResponse => { r with lines := r.lines + 1, pc := .reading }

def next (s : Shared) (r : Reader) (ch : Choice) : Option (Op × Reader) :=
  match r.pc with
  | .reading =>
    match ch with
    | .line cmd => some (.nop, r.dispatch cmd)
    | .hangUp => some (.nop, { r with pc := .closing })
    | _ => none
  | .lookup size =>
    some (.lookup r.conn r.pid,
      match s.clients.get? r.pid, size with
      | some k, some amount => { r with pc := .takeId k amount }
      | _, _ => { r with pc := .reading })
  | .takeId k amount => some (.takeId, { r with pc := .handle k s.nextRequest amount })
  | .handle k id amount =>
    match checkedNextMultipleOf amount with
    | none => some (.nop, { r with pc := .reading })
    | some amount =>
      if amount = 0 then some (.nop, { r with pc := .reading })
      else
        some (.record r.conn r.lines k id amount,
          match (s.client k).record id amount with
          | .error _ => { r with pc := .reading }
          | .ok _ => { r with pc := .forward k id amount })
  | .forward k id amount =>
    match ch with
    | .outcome ok =>
      some (.requestEphMem id amount ok, { r with pc := if ok then .reading else .deny k id })
    | _ => none
  | .deny k id =>
    some (.respond k id false none,
      match (s.client k).sendEphMemResponse id false none with
      | .ok (_, some size) => { r with pc := .reply k id size }
      | _ => { r with pc := .reading })
  | .reply k id size =>
    match ch with
    | .outcome ok => some (.reply k id size ok, { r with pc := .reading })
    | _ => none
  | .closing => some (.close r.conn r.pid, { r with pc := .closed })
  | .closed => none

end Reader

namespace Upstream

/-- `msg_handler` on a command: its checks, in order. -/
def dispatch (cmd : ConsumerCommand) : Upstream :=
  match cmd.function with
  | .ephMemRequest => .reading
  | .ephMemResponse =>
    match cmd.size, cmd.offset, cmd.id with
    | some size, some offset, some id =>
      if size = 0 then .reading else .device size offset id cmd.hasMore
    | _, _, _ => .reading

def next (s : Shared) (u : Upstream) (ch : Choice) : Option (Op × Upstream) :=
  match u with
  | .reading =>
    match ch with
    | .line (some cmd) => some (.receive cmd, dispatch cmd)
    | .line none => some (.nop, .reading)
    | _ => none
  | .device size offset id more =>
    match ch with
    | .outcome ok =>
      some (.newDevice id more ok,
        if ok then .find id more ⟨offset, size, ⟨s.nextDevice, size⟩⟩ else .reading)
    | _ => none
  | .find id more a =>
    some (.nop,
      match s.findClient id with
      | none => .reading
      | some k => .respond k id more a)
  | .respond k id more a =>
    some (.respond k id more (some a),
      match (s.client k).sendEphMemResponse id more (some a) with
      | .ok (_, some size) => .reply k id size
      | _ => .reading)
  | .reply k id size =>
    match ch with
    | .outcome ok => some (.reply k id size ok, .reading)
    | _ => none

end Upstream

namespace Listener

def next (s : Shared) (l : Listener) (ch : Choice) : Option (Op × Listener × List Reader) :=
  match l with
  | .idle =>
    match ch with
    | .accept pid =>
      some (.nop, if s.clients.size ≥ maxClients then .idle else .accepted pid, [])
    | _ => none
  | .accepted pid =>
    match ch with
    | .outcome true => some (.register pid, .idle, [⟨s.nextConn, pid, 0, .reading⟩])
    | .outcome false => some (.nop, .idle, [])
    | _ => none

end Listener

def Task.next (s : Shared) (t : Task) (ch : Choice) : Option (Op × Task × List Task) :=
  match t with
  | .listener l => (l.next s ch).map fun (op, l', started) =>
      (op, .listener l', started.map .reader)
  | .reader r => (r.next s ch).map fun (op, r') => (op, .reader r', [])
  | .upstream u => (u.next s ch).map fun (op, u') => (op, .upstream u', [])

abbrev System := Config Shared Task

def daemon : Machine Shared Task Op Choice where
  next := fun _ => Task.next
  exec := Op.exec
  outside := fun _ _ => none

/-- The daemon at its start. Its connection to the orchestrator has taken the
first connection number. -/
def initSystem : System where
  shared :=
    { clients := .empty
      client := fun _ => .new
      nextConn := 2
      nextRequest := 0
      nextDevice := 0
      log := [] }
  tasks := [.listener .idle, .upstream .reading]

/-- The states reached by the runs whose every step meets `allow`. -/
def ReachableBy (allow : System → Op → Prop) (s : System) : Prop :=
  daemon.Steps allow initSystem s

abbrev Reachable (s : System) : Prop := ReachableBy (fun _ _ => True) s

-- ---------------------------------------------------------------------------
-- Concrete runs
-- ---------------------------------------------------------------------------

/-- Where a schedule leads from the daemon's start. -/
def daemonAfter (ls : List (Label Op Choice)) : System := daemon.after initSystem ls

theorem reachable_daemonAfter {ls : List (Label Op Choice)}
    (h : (daemon.run initSystem ls).isSome = true) : Reachable (daemonAfter ls) :=
  Machine.steps_after h

/-- A schedule whose every operation meets a condition is a run that does. -/
theorem reachableBy_daemonAfter {allow : System → Op → Prop} [∀ s op, Decidable (allow s op)]
    {ls : List (Label Op Choice)}
    (h : (daemon.runIf (fun s op => decide (allow s op)) initSystem ls).isSome = true) :
    ReachableBy allow (daemonAfter ls) :=
  Machine.steps_afterIf h

/-- PID 5 connects. -/
def connect : List (Label Op Choice) := [.task 0 (.accept 5), .task 0 (.outcome true)]

/-- The reader `i` reads a request for one chunk, which gets the id and is
forwarded. The response with the chunk at an offset is read, its device created,
the client found and answered. -/
def askAndAnswer (i id offset : Nat) : List (Label Op Choice) :=
  [.task i (.line (some (.new .ephMemRequest (some granularity) none))), .task i .go, .task i .go,
    .task i .go, .task i (.outcome true),
    .task 1 (.line (some
      ((ConsumerCommand.new .ephMemResponse (some granularity) (some offset)).withId (some id)))),
    .task 1 (.outcome true), .task 1 .go, .task 1 .go, .task 1 (.outcome true)]

end EphMemory.Ephemerald
