import EphMemory.Lib.Pool
import EphMemory.Proto

/-!
# Vsock — the connections of consumer VMs

The orchestrator's side of a consumer's vsock connection: who accepts it, who
reads requests from it and who writes responses to it.

* `Listener` — `consumer_listener_thread`: it gives up on a connection when it
  cannot take the VM's `vsock_conn` at once or finds a stream in it;
* `Serving` — `consumer_thread` with what `send_consumer_response` does to the
  connection, and the reset of `vsock_conn` at its end.

`vsock_conn` is a mutex. Whoever takes it holds it over several steps, and a
thread that panics while it does leaves it poisoned. The work of
`handle_eph_mem_request` between a request and its response touches neither,
so here it is one choice of the environment; `Orchestrator` models it. Which
VM an accepted connection belongs to is the environment's choice too, so a VM
that leaves and one that takes its path are covered.

`Shared.log` records what was written and reset, newest first.
-/

namespace EphMemory.Vsock

open EphMemory.Lib

abbrev VmId := Nat
abbrev ConnId := Nat

inductive Lock where
  | free
  | held
  | poisoned
  deriving DecidableEq, Repr

/-- What the threads did. `readOn` is the connection a request was read on. -/
inductive Output where
  | wrote (vm : VmId) (readOn target : ConnId) (cmd : ConsumerCommand)
  | reset (vm : VmId) (conn : ConnId) (discarded : Option ConnId)
  deriving DecidableEq, Repr

structure Shared where
  /-- The stream in a VM's `vsock_conn`. -/
  vsockConn : VmId → Option ConnId
  lock : VmId → Lock
  nextConn : ConnId
  log : List Output

-- ---------------------------------------------------------------------------
-- Operations
-- ---------------------------------------------------------------------------

inductive Op where
  | nop
  | accept
  | lock (vm : VmId)
  | unlock (vm : VmId)
  | poison (vm : VmId)
  | set (vm : VmId) (conn : ConnId)
  | write (vm : VmId) (readOn target : ConnId) (cmd : ConsumerCommand)
  | reset (vm : VmId) (conn : ConnId)
  deriving DecidableEq, Repr

def Op.exec : Op → Shared → Shared
  | .nop, s => s
  | .accept, s => { s with nextConn := s.nextConn + 1 }
  | .lock v, s => { s with lock := Function.update s.lock v .held }
  | .unlock v, s => { s with lock := Function.update s.lock v .free }
  | .poison v, s => { s with lock := Function.update s.lock v .poisoned }
  | .set v k, s => { s with vsockConn := Function.update s.vsockConn v (some k) }
  | .write v readOn k cmd, s => { s with log := .wrote v readOn k cmd :: s.log }
  | .reset v k, s =>
    { s with
      vsockConn := Function.update s.vsockConn v none
      log := .reset v k (s.vsockConn v) :: s.log }

-- ---------------------------------------------------------------------------
-- Threads
-- ---------------------------------------------------------------------------

/-- What the environment decides at a step: nothing, who connects, the next
line of a connection (none when it is no command), that the connection ends,
what became of a request, how a write ends, that the thread panics. -/
inductive Choice where
  | go
  | accept (vm : Option VmId)
  | line (cmd : Option ConsumerCommand)
  | hangUp
  | live (allocations : List (Nat × Nat))
  | outcome (ok : Bool)
  | panic
  deriving DecidableEq, Repr

inductive Listener where
  | idle
  | tryLock (vm : VmId) (conn : ConnId)
  | check (vm : VmId) (conn : ConnId)
  | set (vm : VmId) (conn : ConnId)
  | drop (vm : VmId) (conn : ConnId)
  | spawn (vm : VmId) (conn : ConnId)
  /-- Leaves `vsock_conn` as it is. -/
  | leave (vm : VmId)
  | dead
  deriving DecidableEq, Repr

inductive ServingPc where
  | reading
  | handling (id : Nat)
  | lock (cmds : List ConsumerCommand)
  | check (cmds : List ConsumerCommand)
  | write (target : ConnId) (cmds : List ConsumerCommand)
  | unlock
  | ending
  | reset
  | last
  | done
  deriving DecidableEq, Repr

structure Serving where
  vm : VmId
  conn : ConnId
  pc : ServingPc
  deriving DecidableEq, Repr

inductive Task where
  | listener (l : Listener)
  | serving (c : Serving)
  deriving DecidableEq, Repr

namespace Listener

def next (s : Shared) (l : Listener) (ch : Choice) : Option (Op × Listener × List Serving) :=
  match l with
  | .idle =>
    match ch with
    | .accept (some v) => some (.accept, .tryLock v s.nextConn, [])
    | .accept none => some (.accept, .idle, [])
    | _ => none
  | .tryLock v k =>
    if s.lock v = .free then some (.lock v, .check v k, []) else some (.nop, .idle, [])
  | .check v k =>
    if (s.vsockConn v).isSome then some (.nop, .leave v, []) else some (.nop, .set v k, [])
  | .set v k =>
    match ch with
    -- whether the stream can be cloned
    | .outcome true => some (.set v k, .drop v k, [])
    | .outcome false => some (.nop, .leave v, [])
    | _ => none
  | .leave v => some (.unlock v, .idle, [])
  | .drop v k => some (.unlock v, .spawn v k, [])
  | .spawn v k =>
    match ch with
    | .outcome true => some (.nop, .idle, [⟨v, k, .reading⟩])
    | .outcome false => some (.nop, .dead, [])
    | _ => none
  | .dead => none

end Listener

namespace Serving

/-- `consumer_cmd_dispatacher`: a request with its fields is handled. -/
def dispatch : Option ConsumerCommand → ServingPc
  | none => .reading
  | some cmd =>
    match cmd.function, cmd.size, cmd.id with
    | .ephMemRequest, some _, some id => .handling id
    | _, _, _ => .reading

/-- Whether the thread holds its VM's `vsock_conn`. -/
def holding : ServingPc → Bool
  | .check _ | .write _ _ | .unlock | .reset | .last => true
  | _ => false

/-- A step of the loop or of the reset at its end. -/
def work (s : Shared) (c : Serving) (ch : Choice) : Option (Op × Serving) :=
  match c.pc with
  | .reading =>
    match ch with
    | .line cmd => some (.nop, { c with pc := dispatch cmd })
    | .hangUp => some (.nop, { c with pc := .ending })
    | _ => none
  | .handling id =>
    match ch with
    | .live [] => some (.nop, { c with pc := .reading })
    | .live l => some (.nop, { c with pc := .lock (sendConsumerResponse (some id) l) })
    | _ => none
  | .lock cmds =>
    match s.lock c.vm with
    | .free => some (.lock c.vm, { c with pc := .check cmds })
    | .held => none
    -- lock().unwrap()
    | .poisoned => some (.nop, { c with pc := .done })
  | .check cmds =>
    match s.vsockConn c.vm with
    | none => some (.nop, { c with pc := .unlock })
    | some k => some (.nop, { c with pc := .write k cmds })
  | .write _ [] => some (.nop, { c with pc := .unlock })
  | .write k (cmd :: cmds) =>
    match ch with
    | .outcome true => some (.write c.vm c.conn k cmd, { c with pc := .write k cmds })
    | .outcome false => some (.write c.vm c.conn k cmd, { c with pc := .unlock })
    | _ => none
  | .unlock => some (.unlock c.vm, { c with pc := .reading })
  | .ending =>
    match s.lock c.vm with
    | .free => some (.lock c.vm, { c with pc := .reset })
    | .held => none
    | .poisoned => some (.nop, { c with pc := .done })
  | .reset => some (.reset c.vm c.conn, { c with pc := .last })
  | .last => some (.unlock c.vm, { c with pc := .done })
  | .done => none

def next (s : Shared) (c : Serving) (ch : Choice) : Option (Op × Serving) :=
  if ch = .panic ∧ c.pc ≠ .done then
    some (if holding c.pc then .poison c.vm else .nop, { c with pc := .done })
  else c.work s ch

end Serving

def Task.next (s : Shared) (t : Task) (ch : Choice) : Option (Op × Task × List Task) :=
  match t with
  | .listener l => (l.next s ch).map fun (op, l', started) =>
      (op, .listener l', started.map .serving)
  | .serving c => (c.next s ch).map fun (op, c') => (op, .serving c', [])

abbrev System := Config Shared Task

def vsock : Machine Shared Task Op Choice where
  next := fun _ => Task.next
  exec := Op.exec
  outside := fun _ _ => none

/-- Before the first connection. -/
def initSystem : System where
  shared := ⟨fun _ => none, fun _ => .free, 0, []⟩
  tasks := [.listener .idle]

abbrev Reachable (s : System) : Prop := vsock.Steps (fun _ _ => True) initSystem s

-- ---------------------------------------------------------------------------
-- Moves
-- ---------------------------------------------------------------------------

inductive Listener.Step (s : Shared) : Listener → Op → Listener → List Serving → Prop
  | accept {v : VmId} : Step s .idle .accept (.tryLock v s.nextConn) []
  | unknown : Step s .idle .accept .idle []
  | locked {v : VmId} {k : ConnId} :
      s.lock v = .free → Step s (.tryLock v k) (.lock v) (.check v k) []
  | busy {v : VmId} {k : ConnId} : Step s (.tryLock v k) .nop .idle []
  | connected {v : VmId} {k : ConnId} : Step s (.check v k) .nop (.leave v) []
  | unconnected {v : VmId} {k : ConnId} :
      s.vsockConn v = none → Step s (.check v k) .nop (.set v k) []
  | set {v : VmId} {k : ConnId} : Step s (.set v k) (.set v k) (.drop v k) []
  | notCloned {v : VmId} {k : ConnId} : Step s (.set v k) .nop (.leave v) []
  | leave {v : VmId} : Step s (.leave v) (.unlock v) .idle []
  | drop {v : VmId} {k : ConnId} : Step s (.drop v k) (.unlock v) (.spawn v k) []
  | spawn {v : VmId} {k : ConnId} : Step s (.spawn v k) .nop .idle [⟨v, k, .reading⟩]
  | notSpawned {v : VmId} {k : ConnId} : Step s (.spawn v k) .nop .dead []

inductive Serving.Step (s : Shared) : Serving → Op → Serving → Prop
  /-- The moves that touch neither the lock nor the stream, before the end. -/
  | work {v : VmId} {k : ConnId} {pc pc' : ServingPc} :
      holding pc = false → holding pc' = false → pc ≠ .done → pc' ≠ .done →
      Step s ⟨v, k, pc⟩ .nop ⟨v, k, pc'⟩
  | die {v : VmId} {k : ConnId} {pc : ServingPc} :
      holding pc = false → Step s ⟨v, k, pc⟩ .nop ⟨v, k, .done⟩
  | poison {v : VmId} {k : ConnId} {pc : ServingPc} :
      holding pc = true → Step s ⟨v, k, pc⟩ (.poison v) ⟨v, k, .done⟩
  | locked {v : VmId} {k : ConnId} {cmds : List ConsumerCommand} :
      s.lock v = .free → Step s ⟨v, k, .lock cmds⟩ (.lock v) ⟨v, k, .check cmds⟩
  | notConnected {v : VmId} {k : ConnId} {cmds : List ConsumerCommand} :
      Step s ⟨v, k, .check cmds⟩ .nop ⟨v, k, .unlock⟩
  | connected {v : VmId} {k k' : ConnId} {cmds : List ConsumerCommand} :
      s.vsockConn v = some k' → Step s ⟨v, k, .check cmds⟩ .nop ⟨v, k, .write k' cmds⟩
  | written {v : VmId} {k k' : ConnId} : Step s ⟨v, k, .write k' []⟩ .nop ⟨v, k, .unlock⟩
  | write {v : VmId} {k k' : ConnId} {cmd : ConsumerCommand} {cmds : List ConsumerCommand} :
      Step s ⟨v, k, .write k' (cmd :: cmds)⟩ (.write v k k' cmd) ⟨v, k, .write k' cmds⟩
  | notWritten {v : VmId} {k k' : ConnId} {cmd : ConsumerCommand}
      {cmds : List ConsumerCommand} :
      Step s ⟨v, k, .write k' (cmd :: cmds)⟩ (.write v k k' cmd) ⟨v, k, .unlock⟩
  | unlock {v : VmId} {k : ConnId} : Step s ⟨v, k, .unlock⟩ (.unlock v) ⟨v, k, .reading⟩
  | ending {v : VmId} {k : ConnId} :
      s.lock v = .free → Step s ⟨v, k, .ending⟩ (.lock v) ⟨v, k, .reset⟩
  | reset {v : VmId} {k : ConnId} : Step s ⟨v, k, .reset⟩ (.reset v k) ⟨v, k, .last⟩
  | last {v : VmId} {k : ConnId} : Step s ⟨v, k, .last⟩ (.unlock v) ⟨v, k, .done⟩

inductive Task.Step (s : Shared) : Task → Op → Task → List Task → Prop
  | listener {l l' : Listener} {op : Op} {started : List Serving} :
      Listener.Step s l op l' started →
      Step s (.listener l) op (.listener l') (started.map .serving)
  | serving {c c' : Serving} {op : Op} :
      Serving.Step s c op c' → Step s (.serving c) op (.serving c') []

/-- Whatever the listener does next is one of its steps. -/
theorem Listener.step_of_next {s : Shared} {l l' : Listener} {ch : Choice} {op : Op}
    {started : List Serving} (h : l.next s ch = some (op, l', started)) :
    Listener.Step s l op l' started := by
  unfold next at h
  split at h
  · split at h <;> cases h
    · exact .accept
    · exact .unknown
  · split at h <;> cases h
    · exact .locked ‹_›
    · exact .busy
  · split at h
    · cases h
      exact .connected
    · rename_i hNot
      cases h
      exact .unconnected (by simpa using hNot)
  · split at h <;> cases h
    · exact .set
    · exact .notCloned
  · cases h
    exact .leave
  · cases h
    exact .drop
  · split at h <;> cases h
    · exact .spawn
    · exact .notSpawned
  · cases h

/-- Every line that is not a request is passed over. -/
theorem Serving.dispatch_cases (cmd : Option ConsumerCommand) :
    dispatch cmd = .reading ∨ ∃ id, dispatch cmd = .handling id := by
  unfold dispatch
  split
  · exact Or.inl rfl
  · split
    · exact Or.inr ⟨_, rfl⟩
    · exact Or.inl rfl

/-- What a connection's thread does without panicking is one of its steps. -/
theorem Serving.step_of_work {s : Shared} {c c' : Serving} {ch : Choice} {op : Op}
    (h : c.work s ch = some (op, c')) : Serving.Step s c op c' := by
  obtain ⟨v, k, pc⟩ := c
  unfold work at h
  split at h <;> rename_i hpc <;> simp only at hpc <;> subst hpc
  · split at h <;> cases h
    · rename_i cmd
      rcases dispatch_cases cmd with heq | ⟨id, heq⟩ <;> rw [heq] <;>
        exact .work rfl rfl nofun nofun
    · exact .work rfl rfl nofun nofun
  · split at h <;> cases h <;> exact .work rfl rfl nofun nofun
  · split at h <;> cases h
    · exact .locked ‹_›
    · exact .die rfl
  · split at h <;> cases h
    · exact .notConnected
    · exact .connected ‹_›
  · cases h
    exact .written
  · split at h <;> cases h
    · exact .write
    · exact .notWritten
  · cases h
    exact .unlock
  · split at h <;> cases h
    · exact .ending ‹_›
    · exact .die rfl
  · cases h
    exact .reset
  · cases h
    exact .last
  · cases h

/-- Whatever a connection's thread does next, a panic included, is one of its
steps. -/
theorem Serving.step_of_next {s : Shared} {c c' : Serving} {ch : Choice} {op : Op}
    (h : c.next s ch = some (op, c')) : Serving.Step s c op c' := by
  unfold next at h
  split at h
  · cases h
    split
    · exact .poison ‹_›
    · rename_i hNot
      exact .die (Bool.eq_false_iff.mpr hNot)
  · exact step_of_work h

/-- **The steps cover the code**: each thread moves by one of the steps of its kind. -/
theorem Task.step_of_next {s : Shared} {t t' : Task} {ch : Choice} {op : Op}
    {started : List Task} (h : t.next s ch = some (op, t', started)) :
    Task.Step s t op t' started := by
  unfold next at h
  split at h
  all_goals
    obtain ⟨out, hn, heq⟩ := Option.map_eq_some_iff.mp h
    cases heq
  · exact .listener (Listener.step_of_next hn)
  · exact .serving (Serving.step_of_next hn)

/-- A move is a step of one of the threads. -/
theorem move_cases {s s' : System} {op : Op} (hm : vsock.Move s op s') :
    ∃ (i : Nat) (t t' : Task) (started : List Task), s.tasks[i]? = some t ∧
      Task.Step s.shared t op t' started ∧ s'.shared = op.exec s.shared := by
  cases hm with
  | @task i t t' ch started ht hn => exact ⟨i, t, t', started, ht, Task.step_of_next hn, rfl⟩
  | outside hs => cases hs

end EphMemory.Vsock
