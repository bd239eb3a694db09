import EphMemory.Lib.Held
import EphMemory.Qmp.Connection

/-!
# QMP — what flows through a connection

Commands and answers are matched by their order alone: a caller takes whatever
comes next out of the response channel. What the threads know of a connection:

* `lockHeld`, `readerHeld` — one caller inside, one read thread;
* `Caller.Sees` — a caller inside knows that every command is answered, except
  its own while it waits;
* `Reader.Flows` — the read thread, that every answer is received, queued, in
  its hand or unread, and every event likewise;
* `ConnInv`, `QmpInv` — with what holds of the connections themselves;
* `Connection.quiet_exec`, `Reader.Flows.other`, `Reader.Step.flows` — which
  operations leave that knowledge;
* `Connection.received` — the next answer is the one waited for.
-/

namespace EphMemory.Qmp

open EphMemory.Lib
open EphMemory.Lib.Machine
open EphMemory.Orchestrator (VmId)

-- ---------------------------------------------------------------------------
-- Holders
-- ---------------------------------------------------------------------------

def CallerPc.inside : CallerPc → Bool
  | .lock | .done => false
  | _ => true

/-- The caller holds the connection's mutex. -/
def Task.calls (v : VmId) : Task → Prop
  | .caller c => c.vm = v ∧ c.pc.inside = true
  | _ => False

def ReaderPc.running : ReaderPc → Bool
  | .done => false
  | _ => true

/-- The task is the connection's read thread. -/
def Task.reads (v : VmId) : Task → Prop
  | .reader r => r.vm = v ∧ r.pc.running = true
  | _ => False

def lockHeld (s : System) : Prop :=
  ∀ v, Held (fun s : Shared => (s.conn v).locked = true) (Task.calls v) s

def readerHeld (s : System) : Prop :=
  ∀ v, Held (fun s : Shared => (s.conn v).reading = true) (Task.reads v) s

-- ---------------------------------------------------------------------------
-- What the threads know
-- ---------------------------------------------------------------------------

namespace Connection

/-- The commands QEMU was given. -/
def given (c : Connection) : List QmpCommand := c.executed.map Prod.fst ++ c.toQemu

/-- An answer can come, or is there. -/
def Hears (c : Connection) : Prop := c.reading = true ∨ c.responses ≠ []

/-- Nobody waits for an answer. -/
def Settled (c : Connection) : Prop :=
  c.broken = false → c.Hears → c.given = c.answered.map Prod.fst

/-- Somebody waits for the answer to `cmd`. -/
def Awaits (c : Connection) (cmd : QmpCommand) : Prop :=
  c.broken = false ∧ (c.Hears → c.given = c.answered.map Prod.fst ++ [cmd])

/-- No answer comes any more. -/
def Dead (c : Connection) : Prop := c.connected = true ∧ c.reading = false ∧ c.responses = []

/-- The lines of a kind that the read thread has not read. -/
def unread (kind : Json → Bool) (c : Connection) : List Json :=
  c.fromQemu.filterMap fun
    | .value v => if kind v then some v else none
    | .malformed => none

/-- What `send` may return for a command. -/
def Justifies (c : Connection) (cmd : QmpCommand) : Except QmpError Json → Prop
  | .ok response => (cmd, response) ∈ c.answered ∧ (response.get "return").isSome = true ∧
      response.get "error" = none
  | .error (.failed e) => ∃ answer, (cmd, answer) ∈ c.answered ∧ answer.get "error" = some e
  | .error .disconnected => c.Dead
  | .error .io => c.broken = true
  | .error (.unexpected _) => False
  | .error .decode => False

end Connection

/-- The value of a kind the read thread has read and not dealt with. -/
def Reader.hand (kind : Json → Bool) (r : Reader) : List Json :=
  match r.pc with
  | .dispatch v => if kind v then [v] else []
  | _ => []

/-- The events of a VM in a list. -/
def eventsOf (v : VmId) (l : List (VmId × Json)) : List Json :=
  (l.filter fun e => e.1 = v).map Prod.snd

def Caller.Sees (s : Shared) (c : Caller) : Prop :=
  match c.pc with
  | .ready => (s.conn c.vm).Settled
  | .recv cmd => (s.conn c.vm).Awaits cmd
  | .result cmd r => (s.conn c.vm).Settled ∧ (s.conn c.vm).Justifies cmd r
  | .lock => (s.conn c.vm).connected = true
  | .done => True

/-- Every answer was received, is queued, in the read thread's hand or unread. -/
def Connection.AnswersFlow (c : Connection) (hand : List Json) : Prop :=
  c.dropped = false → c.executed.map Prod.snd =
    c.answered.map Prod.snd ++ c.responses ++ (hand ++ c.unread Json.isResponse)

/-- The same of the events of a VM. -/
def Shared.EventsFlow (s : Shared) (v : VmId) (hand : List Json) : Prop :=
  s.handling = true → (s.conn v).emitted =
    eventsOf v s.handled ++ eventsOf v s.events ++ (hand ++ (s.conn v).unread Json.isEvent)

structure Reader.Flows (s : Shared) (r : Reader) : Prop where
  answers : (s.conn r.vm).AnswersFlow (r.hand Json.isResponse)
  events : s.EventsFlow r.vm (r.hand Json.isEvent)
  responseTx : r.responseTxDead = true → (s.conn r.vm).dropped = true
  eventTx : r.eventTxDead = true → s.handling = false

def Task.Sees (s : Shared) : Task → Prop
  | .caller c => c.Sees s
  | .reader r => r.pc.running = true → r.Flows s
  | .handler => True

/-- The events taken so far and those queued. -/
def Shared.reported (s : Shared) (v : VmId) : List Json :=
  eventsOf v s.handled ++ eventsOf v s.events

structure ConnInv (s : Shared) (v : VmId) : Prop where
  fresh : (s.conn v).connected = false → s.conn v = .new
  transcript : (s.conn v).answered <+: (s.conn v).executed
  answers : (s.conn v).answered.map Prod.snd ++ (s.conn v).responses <+:
    (s.conn v).executed.map Prod.snd
  responses : ∀ p ∈ (s.conn v).executed, p.2.isResponse = true
  free : (s.conn v).locked = false → (s.conn v).Settled
  events : s.reported v <+: (s.conn v).emitted
  log : ∀ cmd r, Output.returned v cmd r ∈ s.log → (s.conn v).Justifies cmd r

structure QmpInv (s : System) : Prop where
  locks : lockHeld s
  readers : readerHeld s
  sees : ∀ (i : Nat) (t : Task), s.tasks[i]? = some t → t.Sees s.shared
  conns : ∀ v, ConnInv s.shared v

-- ---------------------------------------------------------------------------
-- Operations on other connections
-- ---------------------------------------------------------------------------

theorem conn_exec_self (s : Shared) (v : VmId) (op : ConnOp) :
    ((Op.conn v op).exec s).conn v = op.exec (s.conn v) := Function.update_self ..

theorem conn_exec_ne (s : Shared) {v w : VmId} (op : ConnOp) (h : v ≠ w) :
    ((Op.conn v op).exec s).conn w = s.conn w := Function.update_of_ne (Ne.symm h) _ _

/-- The other operations leave all of them alone. -/
theorem conn_exec_other (s : Shared) (op : Op) (h : ∀ v o, op ≠ .conn v o) :
    (op.exec s).conn = s.conn := by
  cases op with
  | conn v o => exact absurd rfl (h v o)
  | sendEvent v value =>
    simp only [Op.exec]
    split <;> rfl
  | takeEvent =>
    simp only [Op.exec]
    split <;> rfl
  | _ => rfl

/-- The operations on the mutex. -/
def ConnOp.onLock : ConnOp → Bool
  | .connect | .lock | .unlock => true
  | _ => false

/-- The operations on the end of the response channel that the read thread
owns. -/
def ConnOp.onReading : ConnOp → Bool
  | .connect | .endReading => true
  | _ => false

/-- The mutex is taken and given back by its own operations only. -/
theorem locked_exec {op : ConnOp} (h : op.onLock = false) (c : Connection) :
    (op.exec c).locked = c.locked := by
  cases op with
  | recv cmd =>
    simp only [ConnOp.exec]
    split <;> rfl
  | sendResponse value =>
    simp only [ConnOp.exec]
    split <;> rfl
  | execute answer =>
    simp only [ConnOp.exec]
    split <;> rfl
  | connect => cases h
  | lock => cases h
  | unlock => cases h
  | _ => rfl

/-- The read thread's end of the channel is made and dropped by its own operations only. -/
theorem reading_exec {op : ConnOp} (h : op.onReading = false) (c : Connection) :
    (op.exec c).reading = c.reading := by
  cases op with
  | recv cmd =>
    simp only [ConnOp.exec]
    split <;> rfl
  | sendResponse value =>
    simp only [ConnOp.exec]
    split <;> rfl
  | execute answer =>
    simp only [ConnOp.exec]
    split <;> rfl
  | connect => cases h
  | endReading => cases h
  | _ => rfl

/-- A flag that the operation leaves alone. -/
theorem flag_exec {g : Connection → Bool} {op : Op} (s : Shared) (v : VmId)
    (h : ∀ w o, op = .conn w o → ∀ c, g (o.exec c) = g c) :
    g ((op.exec s).conn v) = g (s.conn v) := by
  cases op with
  | conn w o =>
    by_cases hw : w = v
    · rw [hw, conn_exec_self]
      exact h w o rfl _
    · rw [conn_exec_ne s o hw]
  | _ => rw [conn_exec_other s _ fun _ _ => by simp]

/-- A step of a thread touches its own connection only. -/
theorem Caller.Step.conn_ne {s : Shared} {c c' : Caller} {op : Op} (h : Caller.Step s c op c')
    {v : VmId} (hv : c.vm ≠ v) : (op.exec s).conn v = s.conn v := by
  cases h with
  | disconnected _ _ => rfl
  | returned => rfl
  | _ => exact conn_exec_ne s _ hv

theorem Reader.Step.conn_ne {s : Shared} {r r' : Reader} {op : Op} (h : Reader.Step s r op r')
    {v : VmId} (hv : r.vm ≠ v) : (op.exec s).conn v = s.conn v := by
  cases h with
  | read _ => exact conn_exec_ne s _ hv
  | garbled _ => exact conn_exec_ne s _ hv
  | response _ => exact conn_exec_ne s _ hv
  | ended => exact conn_exec_ne s _ hv
  | event _ => rw [conn_exec_other s _ fun _ _ => by simp]
  | _ => rfl

/-- A caller stays on its connection. -/
theorem Caller.Step.vm_eq {s : Shared} {c c' : Caller} {op : Op} (h : Caller.Step s c op c') :
    c'.vm = c.vm := by
  cases h <;> rfl

/-- A read thread stays on its connection. -/
theorem Reader.Step.vm_eq {s : Shared} {r r' : Reader} {op : Op} (h : Reader.Step s r op r') :
    r'.vm = r.vm := by
  cases h <;> rfl

-- ---------------------------------------------------------------------------
-- The mutex and the read thread
-- ---------------------------------------------------------------------------

/-- The mutex passes from caller to caller. -/
theorem Caller.Step.passes {s : Shared} {c c' : Caller} {op : Op} (h : Caller.Step s c op c')
    (v : VmId) : Passes ((s.conn v).locked = true) (((op.exec s).conn v).locked = true)
      (Task.calls v (.caller c)) (Task.calls v (.caller c')) := by
  by_cases hv : c.vm = v
  · subst hv
    cases h with
    | @lock v hFree =>
      refine .takes ?_ ?_ (fun h => Bool.false_ne_true h.2) ⟨rfl, rfl⟩
      · rw [hFree]
        exact Bool.false_ne_true
      · rw [conn_exec_self]
        rfl
    | @leave v =>
      refine .drops ⟨rfl, rfl⟩ ?_ fun h => Bool.false_ne_true h.2
      rw [conn_exec_self]
      exact Bool.false_ne_true
    | sent => exact .same (by rw [conn_exec_self, locked_exec rfl]) Iff.rfl
    | notSent => exact .same (by rw [conn_exec_self, locked_exec rfl]) Iff.rfl
    | received _ => exact .same (by rw [conn_exec_self, locked_exec rfl]) Iff.rfl
    | disconnected _ _ => exact .same Iff.rfl Iff.rfl
    | returned => exact .same Iff.rfl Iff.rfl
  · refine .same (by rw [h.conn_ne hv]) (iff_of_false (fun hc => ?_) fun hc => hv hc.1)
    exact hv (h.vm_eq ▸ hc.1)

/-- The channel's sender goes when its read thread ends. -/
theorem Reader.Step.passes {s : Shared} {r r' : Reader} {op : Op} (h : Reader.Step s r op r')
    (v : VmId) : Passes ((s.conn v).reading = true) (((op.exec s).conn v).reading = true)
      (Task.reads v (.reader r)) (Task.reads v (.reader r')) := by
  by_cases hv : r.vm = v
  · subst hv
    cases h with
    | ended =>
      refine .drops ⟨rfl, rfl⟩ ?_ fun h => Bool.false_ne_true h.2
      rw [conn_exec_self]
      exact Bool.false_ne_true
    | read _ => exact .same (by rw [conn_exec_self, reading_exec rfl]) Iff.rfl
    | garbled _ => exact .same (by rw [conn_exec_self, reading_exec rfl]) Iff.rfl
    | response _ => exact .same (by rw [conn_exec_self, reading_exec rfl]) Iff.rfl
    | event _ => exact .same (by rw [conn_exec_other s _ fun _ _ => by simp]) Iff.rfl
    | _ => exact .same Iff.rfl Iff.rfl
  · refine .same (by rw [h.conn_ne hv]) (iff_of_false (fun hc => ?_) fun hc => hv hc.1)
    exact hv (h.vm_eq ▸ hc.1)

/-- The environment raises a flag with the task that holds it, when it makes a
connection, and leaves the flags of the others alone. -/
theorem OutsideStep.flag {s : Shared} {op : Op} {started : List Task}
    (h : OutsideStep s op started) {g : Connection → Bool} {on : Task → Prop} {v : VmId}
    (hFresh : (s.conn v).connected = false → g (s.conn v) = false)
    (hConnect : ∀ c, g (ConnOp.connect.exec c) = true)
    (hKeep : ∀ {o : ConnOp}, o.onLock = false → o.onReading = false → ∀ c, g (o.exec c) = g c)
    (hOn : ∀ w, weigh (fun t => ind (on t))
      [.reader ⟨w, false, false, .read⟩, .caller ⟨w, .ready⟩] = ind (w = v))
    (hOff : ∀ w, w ≠ v → ∀ u ∈ [Task.reader ⟨w, false, false, .read⟩, .caller ⟨w, .ready⟩], ¬ on u)
    (hWaits : ∀ w, ¬ on (.caller ⟨w, .lock⟩)) :
    ((g ((op.exec s).conn v) = true ↔ g (s.conn v) = true) ∧ ∀ u ∈ started, ¬ on u) ∨
      (¬ g (s.conn v) = true ∧ g ((op.exec s).conn v) = true ∧
        weigh (fun t => ind (on t)) started = 1) := by
  cases h with
  | @connect w hNew =>
    by_cases hw : w = v
    · subst hw
      refine Or.inr ⟨?_, ?_, by rw [hOn, ind_true rfl]⟩
      · rw [hFresh hNew]
        exact Bool.false_ne_true
      · rw [conn_exec_self]
        exact hConnect _
    · exact Or.inl ⟨by rw [conn_exec_ne _ _ hw], hOff w hw⟩
  | enter _ =>
    refine Or.inl ⟨?_, fun u hu => ?_⟩
    · rw [flag_exec (g := g) s v]
      rintro w o ⟨⟩
      exact hKeep rfl rfl
    · rw [List.mem_singleton.mp hu]
      exact hWaits _
  | handlerEnds => exact Or.inl ⟨Iff.rfl, fun u hu => by cases hu⟩
  | _ =>
    refine Or.inl ⟨?_, fun u hu => by cases hu⟩
    rw [flag_exec (g := g) s v]
    rintro w o ⟨⟩
    exact hKeep rfl rfl

/-- The mutex is held by the one caller that is inside. -/
theorem lockHeld.move {s s' : System} {op : Op} (h : lockHeld s)
    (hConns : ∀ v, ConnInv s.shared v) (hm : qmp.Move s op s') : lockHeld s' := by
  intro v
  refine (h v).move hm (fun i t ch t' started ht hn => ?_) fun started hs => ?_
  · obtain ⟨hStep, rfl⟩ := Task.step_of_next hn
    refine ⟨?_, fun u hu => by cases hu⟩
    cases hStep with
    | caller hc => exact hc.passes v
    | reader hr =>
      refine .same ?_ Iff.rfl
      show ((op.exec s.shared).conn v).locked = true ↔ _
      rw [flag_exec (g := Connection.locked) s.shared v]
      rintro w o rfl
      cases hr <;> exact locked_exec rfl
    | handler _ _ =>
      refine .same ?_ Iff.rfl
      show ((Op.exec .takeEvent s.shared).conn v).locked = true ↔ _
      rw [conn_exec_other s.shared _ fun _ _ => by simp]
  · refine (outsideStep_of_outside hs).flag (g := Connection.locked) (fun hNew => ?_)
      (fun _ => rfl) (fun ho _ => locked_exec ho) (fun w => ?_) (fun w hw u hu => ?_) fun w hc => ?_
    · rw [(hConns v).fresh hNew]
      rfl
    · rw [weigh_cons, weigh_cons, weigh_nil, ind_false (p := Task.calls v (.reader _)) id]
      show 0 + (ind (w = v ∧ true = true) + 0) = _
      simp
    · simp only [List.mem_cons, List.not_mem_nil, or_false] at hu
      rcases hu with rfl | rfl
      · exact id
      · exact fun hc => hw hc.1
    · exact Bool.false_ne_true hc.2

/-- The channel's sender is held by the one read thread that runs. -/
theorem readerHeld.move {s s' : System} {op : Op} (h : readerHeld s)
    (hConns : ∀ v, ConnInv s.shared v) (hm : qmp.Move s op s') : readerHeld s' := by
  intro v
  refine (h v).move hm (fun i t ch t' started ht hn => ?_) fun started hs => ?_
  · obtain ⟨hStep, rfl⟩ := Task.step_of_next hn
    refine ⟨?_, fun u hu => by cases hu⟩
    cases hStep with
    | reader hr => exact hr.passes v
    | caller hc =>
      refine .same ?_ Iff.rfl
      show ((op.exec s.shared).conn v).reading = true ↔ _
      rw [flag_exec (g := Connection.reading) s.shared v]
      rintro w o rfl
      cases hc <;> exact reading_exec rfl
    | handler _ _ =>
      refine .same ?_ Iff.rfl
      show ((Op.exec .takeEvent s.shared).conn v).reading = true ↔ _
      rw [conn_exec_other s.shared _ fun _ _ => by simp]
  · refine (outsideStep_of_outside hs).flag (g := Connection.reading) (fun hNew => ?_)
      (fun _ => rfl) (fun _ ho => reading_exec ho) (fun w => ?_) (fun w hw u hu => ?_) fun w hc => hc
    · rw [(hConns v).fresh hNew]
      rfl
    · rw [weigh_cons, weigh_cons, weigh_nil, ind_false (p := Task.reads v (.caller _)) id]
      show ind (w = v ∧ true = true) + (0 + 0) = _
      simp
    · simp only [List.mem_cons, List.not_mem_nil, or_false] at hu
      rcases hu with rfl | rfl
      · exact fun hc => hw hc.1
      · exact id

-- ---------------------------------------------------------------------------
-- What an operation leaves
-- ---------------------------------------------------------------------------

/-- The operations callers and the making of a connection perform on what is
sent and received. -/
def ConnOp.calling : ConnOp → Bool
  | .connect | .write _ | .writeFailed _ _ | .recv _ => true
  | _ => false

/-- Nothing a waiting caller relies on changed. -/
structure Connection.Quiet (c c' : Connection) : Prop where
  given : c'.given = c.given
  answered : c'.answered = c.answered
  broken : c'.broken = c.broken
  hears : c'.Hears → c.Hears

/-- What justified a result still does. -/
structure Connection.Grows (c c' : Connection) : Prop where
  connected : c.connected = true → c'.connected = true
  answered : c.answered <+: c'.answered
  broken : c.broken = true → c'.broken = true
  dead : c.Dead → c'.Dead

namespace Connection

variable {c c' : Connection} {op : ConnOp}

theorem Quiet.refl (c : Connection) : c.Quiet c := ⟨rfl, rfl, rfl, id⟩

theorem Grows.refl (c : Connection) : c.Grows c := ⟨id, List.prefix_refl _, id, id⟩

/-- A sender means a live channel. -/
theorem quiet_exec (h : op.calling = false)
    (hSend : ∀ x, op = .sendResponse x → c.reading = true) : c.Quiet (op.exec c) := by
  cases op with
  | connect => cases h
  | write cmd => cases h
  | writeFailed cmd delivered => cases h
  | recv cmd => cases h
  | sendResponse x =>
    have hReading := hSend x rfl
    simp only [ConnOp.exec]
    split
    · exact .refl c
    · exact ⟨rfl, rfl, rfl, fun _ => Or.inl hReading⟩
  | execute answer =>
    simp only [ConnOp.exec]
    split
    · exact .refl c
    · rename_i cmd rest heq
      refine ⟨?_, rfl, rfl, id⟩
      simp only [given, List.map_append, List.map_cons, List.map_nil, List.append_assoc, heq]
      rfl
  | endReading => exact ⟨rfl, rfl, rfl, fun h => Or.inr (h.resolve_left Bool.false_ne_true)⟩
  | _ => exact ⟨rfl, rfl, rfl, id⟩

/-- Every operation justifies what was justified: answers and errors are kept. -/
theorem grows_exec (hConnect : op = .connect → c = .new)
    (hSend : ∀ x, op = .sendResponse x → c.reading = true) : c.Grows (op.exec c) := by
  cases op with
  | connect =>
    rw [hConnect rfl]
    exact ⟨fun _ => rfl, List.nil_prefix, fun h => absurd h Bool.false_ne_true,
      fun h => absurd h.1 Bool.false_ne_true⟩
  | writeFailed cmd delivered => exact ⟨id, List.prefix_refl _, fun _ => rfl, id⟩
  | recv cmd =>
    simp only [ConnOp.exec]
    split
    · exact .refl c
    · rename_i r rest heq
      refine ⟨id, List.prefix_append _ _, id, fun h => ?_⟩
      rw [h.2.2] at heq
      cases heq
  | sendResponse x =>
    have hReading := hSend x rfl
    simp only [ConnOp.exec]
    split
    · exact .refl c
    · refine ⟨id, List.prefix_refl _, id, fun h => ?_⟩
      rw [h.2.1] at hReading
      cases hReading
  | endReading => exact ⟨id, List.prefix_refl _, id, fun h => ⟨h.1, rfl, h.2.2⟩⟩
  | execute answer =>
    simp only [ConnOp.exec]
    split
    · exact .refl c
    · exact ⟨id, List.prefix_refl _, id, id⟩
  | _ => exact ⟨id, List.prefix_refl _, id, id⟩

/-- Where nobody waited, nobody waits. -/
theorem Quiet.settled (h : c.Quiet c') (hSettled : c.Settled) : c'.Settled := by
  intro hBroken hHears
  rw [h.given, h.answered]
  rw [h.broken] at hBroken
  exact hSettled hBroken (h.hears hHears)

/-- Who waited still waits for the same command. -/
theorem Quiet.awaits {cmd : QmpCommand} (h : c.Quiet c') (hAwaits : c.Awaits cmd) :
    c'.Awaits cmd := by
  refine ⟨h.broken ▸ hAwaits.1, fun hHears => ?_⟩
  rw [h.given, h.answered]
  exact hAwaits.2 (h.hears hHears)

/-- A result that was justified still is. -/
theorem Grows.justifies {cmd : QmpCommand} {r : Except QmpError Json} (h : c.Grows c')
    (hJust : c.Justifies cmd r) : c'.Justifies cmd r := by
  unfold Justifies at hJust ⊢
  split at hJust
  · exact ⟨h.answered.subset hJust.1, hJust.2⟩
  · obtain ⟨answer, hMem, hError⟩ := hJust
    exact ⟨answer, h.answered.subset hMem, hError⟩
  · exact h.dead hJust
  · exact h.broken hJust
  · exact hJust
  · exact hJust

end Connection

/-- A caller's knowledge survives what is quiet while it is inside and grows otherwise. -/
theorem Caller.Sees.stable {s s' : Shared} {c : Caller} (h : c.Sees s)
    (hQuiet : c.pc.inside = true → (s.conn c.vm).Quiet (s'.conn c.vm))
    (hGrows : (s.conn c.vm).Grows (s'.conn c.vm)) : c.Sees s' := by
  obtain ⟨v, pc⟩ := c
  cases pc with
  | lock => exact hGrows.connected h
  | done => trivial
  | ready => exact (hQuiet rfl).settled h
  | recv cmd => exact (hQuiet rfl).awaits h
  | result cmd r => exact ⟨(hQuiet rfl).settled h.1, hGrows.justifies h.2⟩

-- ---------------------------------------------------------------------------
-- The read thread
-- ---------------------------------------------------------------------------

/-- A value is a response or an event, not both. -/
theorem Json.not_isEvent {v : Json} (h : v.isResponse = true) : v.isEvent = false := by
  rw [isEvent, h]
  rfl

namespace Connection

variable {c : Connection} {kind : Json → Bool}

/-- A line QEMU writes is the last to be read. -/
theorem unread_append {l : List Line} {v : Json} (h : c.fromQemu = l ++ [.value v]) :
    c.unread kind = (l.filterMap fun
      | .value v => if kind v then some v else none
      | .malformed => none) ++ if kind v then [v] else [] := by
  rw [unread, h, List.filterMap_append]
  congr 1
  by_cases hk : kind v = true
  · simp [hk]
  · simp [hk]

/-- Reading a line takes the first of its kind. -/
theorem unread_value {v : Json} {rest : List Line} (h : c.fromQemu = .value v :: rest) :
    c.unread kind = (if kind v then [v] else []) ++ (ConnOp.readLine.exec c).unread kind := by
  simp only [unread, ConnOp.exec, h, List.tail_cons, List.filterMap_cons]
  by_cases hk : kind v = true
  · simp [hk]
  · simp [hk]

/-- A malformed line is of no kind. -/
theorem unread_malformed {rest : List Line} (h : c.fromQemu = .malformed :: rest) :
    c.unread kind = (ConnOp.readLine.exec c).unread kind := by
  simp only [unread, ConnOp.exec, h, List.tail_cons, List.filterMap_cons]

/-- The operations of others keep the answers' way through the connection. -/
theorem AnswersFlow.exec {hand : List Json} (h : c.AnswersFlow hand) {op : ConnOp}
    (hReading : op.onReading = false) (hRead : op ≠ .readLine)
    (hSend : ∀ v, op ≠ .sendResponse v) (hExecute : ∀ a, op = .execute a → a.isResponse = true)
    (hEmit : ∀ v, op = .emit v → v.isResponse = false) : (op.exec c).AnswersFlow hand := by
  cases op with
  | connect => cases hReading
  | endReading => cases hReading
  | readLine => exact absurd rfl hRead
  | sendResponse v => exact absurd rfl (hSend v)
  | recv cmd =>
    intro hDropped
    simp only [ConnOp.exec] at hDropped ⊢
    split at hDropped
    · exact h hDropped
    · rename_i r rest heq
      rw [show (c.executed.map Prod.snd) = _ from h hDropped, heq]
      simp only [List.map_append, List.map_cons, List.map_nil, List.append_assoc, List.cons_append,
        List.nil_append]
      rfl
  | drop => exact fun hDropped => absurd hDropped Bool.noConfusion
  | execute answer =>
    intro hDropped
    simp only [ConnOp.exec] at hDropped ⊢
    split at hDropped
    · exact h hDropped
    · rename_i cmd rest heq
      rw [unread_append rfl, if_pos (hExecute answer rfl), List.map_append,
        show (c.executed.map Prod.snd) = _ from h hDropped]
      simp only [List.map_cons, List.map_nil, List.append_assoc]
      rfl
  | emit v =>
    intro hDropped
    rw [unread_append rfl, if_neg (by rw [hEmit v rfl]; exact Bool.false_ne_true), List.append_nil]
    exact h hDropped
  | garble =>
    intro hDropped
    have hUnread : (ConnOp.garble.exec c).unread Json.isResponse = c.unread Json.isResponse := by
      simp [unread, ConnOp.exec]
    rw [hUnread]
    exact h hDropped
  | _ => exact fun hDropped => h hDropped

/-- What they add to the events QEMU wrote, they add to the unread ones. -/
theorem emitted_exec (c : Connection) {op : ConnOp} (hReading : op.onReading = false)
    (hRead : op ≠ .readLine) (hExecute : ∀ a, op = .execute a → a.isResponse = true) :
    ∃ l, (op.exec c).emitted = c.emitted ++ l ∧
      (op.exec c).unread Json.isEvent = c.unread Json.isEvent ++ l := by
  have hSame : ∀ d : Connection, d.emitted = c.emitted → d.fromQemu = c.fromQemu →
      ∃ l, d.emitted = c.emitted ++ l ∧ d.unread Json.isEvent = c.unread Json.isEvent ++ l := by
    intro d hEmitted hFrom
    exact ⟨[], by rw [hEmitted, List.append_nil], by rw [unread, hFrom, List.append_nil, unread]⟩
  cases op with
  | connect => cases hReading
  | endReading => cases hReading
  | readLine => exact absurd rfl hRead
  | recv cmd =>
    simp only [ConnOp.exec]
    split <;> exact hSame _ rfl rfl
  | sendResponse v =>
    simp only [ConnOp.exec]
    split <;> exact hSame _ rfl rfl
  | execute answer =>
    simp only [ConnOp.exec]
    split
    · exact hSame _ rfl rfl
    · refine ⟨[], (List.append_nil _).symm, ?_⟩
      rw [unread_append rfl, if_neg]
      · rfl
      · rw [Json.not_isEvent (hExecute answer rfl)]
        exact Bool.false_ne_true
  | emit v =>
    refine ⟨if v.isEvent then [v] else [], ?_, unread_append rfl⟩
    simp only [ConnOp.exec]
    split <;> simp
  | garble => exact ⟨[], (List.append_nil _).symm, by simp [unread, ConnOp.exec]⟩
  | _ => exact hSame _ rfl rfl

end Connection

theorem eventsOf_append (v : VmId) (l l' : List (VmId × Json)) :
    eventsOf v (l ++ l') = eventsOf v l ++ eventsOf v l' := by
  simp [eventsOf]

theorem eventsOf_self (v : VmId) (x : Json) : eventsOf v [(v, x)] = [x] := by
  simp [eventsOf]

theorem eventsOf_ne {v w : VmId} (h : w ≠ v) (x : Json) : eventsOf v [(w, x)] = [] := by
  simp [eventsOf, h]

/-- Taking an event from the channel only moves it. -/
theorem reported_takeEvent (s : Shared) (v : VmId) :
    (Op.takeEvent.exec s).reported v = s.reported v := by
  simp only [Op.exec]
  split
  · rfl
  · rename_i e rest heq
    simp only [Shared.reported, heq]
    rw [← eventsOf_append, ← eventsOf_append, List.append_assoc]
    rfl

/-- Sending one adds it behind the others, unless the handler has ended. -/
theorem reported_sendEvent (s : Shared) (w v : VmId) (x : Json) :
    ((Op.sendEvent w x).exec s).reported v =
      s.reported v ++ if s.handling = true ∧ w = v then [x] else [] := by
  simp only [Op.exec]
  split
  · rename_i hHandling
    simp only [Shared.reported, eventsOf_append, ← List.append_assoc]
    congr 1
    by_cases hw : w = v
    · rw [if_pos ⟨hHandling, hw⟩, hw, eventsOf_self]
    · rw [if_neg fun h => hw h.2, eventsOf_ne hw]
  · rename_i hNot
    rw [if_neg fun h => hNot h.1, List.append_nil]

/-- The handler does not come back. -/
theorem handling_exec (op : Op) (s : Shared) (h : (op.exec s).handling = true) :
    s.handling = true := by
  cases op with
  | handlerEnds => cases h
  | sendEvent w x =>
    simp only [Op.exec] at h
    split at h
    · exact h
    · exact h
  | takeEvent =>
    simp only [Op.exec] at h
    split at h <;> exact h
  | _ => exact h

/-- The read thread of another connection, callers, the event handler and the
environment keep what a read thread knows. -/
theorem Reader.Flows.other {s : Shared} {r : Reader} (h : r.Flows s) {op : Op}
    (hConn : ∀ o, op = .conn r.vm o → o.onReading = false ∧ o ≠ .readLine ∧
      (∀ v, o ≠ .sendResponse v) ∧ (∀ a, o = .execute a → a.isResponse = true) ∧
      ∀ v, o = .emit v → v.isResponse = false)
    (hEvent : ∀ x, op ≠ .sendEvent r.vm x) : r.Flows (op.exec s) := by
  obtain ⟨hAnswers, hEvents, hResponseTx, hEventTx⟩ := h
  cases op with
  | conn w o =>
    by_cases hw : w = r.vm
    · subst hw
      obtain ⟨hReading, hRead, hSend, hExecute, hEmit⟩ := hConn o rfl
      refine ⟨?_, fun hHandling => ?_, fun hDead => ?_, hEventTx⟩
      · rw [conn_exec_self]
        exact hAnswers.exec hReading hRead hSend hExecute hEmit
      · obtain ⟨l, hEmitted, hUnread⟩ := (s.conn r.vm).emitted_exec hReading hRead hExecute
        rw [conn_exec_self, hEmitted, hUnread, hEvents hHandling]
        simp only [List.append_assoc]
        rfl
      · have hDropped := hResponseTx hDead
        rw [conn_exec_self]
        cases o with
        | connect => cases hReading
        | recv cmd =>
          simp only [ConnOp.exec]
          split <;> exact hDropped
        | sendResponse v => exact absurd rfl (hSend v)
        | execute answer =>
          simp only [ConnOp.exec]
          split <;> exact hDropped
        | drop => rfl
        | _ => exact hDropped
    · have hEq := conn_exec_ne s o hw
      exact ⟨by rw [hEq]; exact hAnswers, fun hHandling => by rw [hEq]; exact hEvents hHandling,
        fun hDead => by rw [hEq]; exact hResponseTx hDead, hEventTx⟩
  | sendEvent w x =>
    have hw : w ≠ r.vm := fun hw => hEvent x (by rw [hw])
    have hEq := conn_exec_other s (.sendEvent w x) fun _ _ => by simp
    have hReported := reported_sendEvent s w r.vm x
    rw [if_neg fun h => hw h.2, List.append_nil] at hReported
    refine ⟨by rw [hEq]; exact hAnswers, fun hHandling => ?_,
      fun hDead => by rw [hEq]; exact hResponseTx hDead, fun hDead => ?_⟩
    · rw [hEq]
      refine (hEvents (handling_exec _ s hHandling)).trans ?_
      exact congrArg (· ++ _) hReported.symm
    · rw [Bool.eq_false_iff]
      exact fun hHandling => Bool.eq_false_iff.mp (hEventTx hDead) (handling_exec _ s hHandling)
  | takeEvent =>
    have hEq := conn_exec_other s .takeEvent fun _ _ => by simp
    refine ⟨by rw [hEq]; exact hAnswers, fun hHandling => ?_,
      fun hDead => by rw [hEq]; exact hResponseTx hDead, fun hDead => ?_⟩
    · rw [hEq]
      refine (hEvents (handling_exec _ s hHandling)).trans ?_
      exact congrArg (· ++ _) (reported_takeEvent s r.vm).symm
    · rw [Bool.eq_false_iff]
      exact fun hHandling => Bool.eq_false_iff.mp (hEventTx hDead) (handling_exec _ s hHandling)
  | handlerEnds => exact ⟨hAnswers, fun h => absurd h Bool.false_ne_true, hResponseTx, fun _ => rfl⟩
  | nop => exact ⟨hAnswers, hEvents, hResponseTx, hEventTx⟩
  | returned w cmd r' => exact ⟨hAnswers, hEvents, hResponseTx, hEventTx⟩

/-- What a step of the read thread itself does to it. -/
theorem Reader.Step.flows {s : Shared} {r r' : Reader} {op : Op} (h : Reader.Step s r op r')
    (hRunning : r'.pc.running = true) (hFlows : r.Flows s) : r'.Flows (op.exec s) := by
  obtain ⟨hAnswers, hEvents, hResponseTx, hEventTx⟩ := hFlows
  cases h with
  | ends => exact ⟨hAnswers, hEvents, hResponseTx, hEventTx⟩
  | listening => exact ⟨hAnswers, hEvents, hResponseTx, hEventTx⟩
  | nobody => exact ⟨hAnswers, hEvents, hResponseTx, hEventTx⟩
  | ended => cases hRunning
  | @read v rd ed x rest heq =>
    refine ⟨fun hDropped => ?_, fun hHandling => ?_, ?_, hEventTx⟩
    · rw [conn_exec_self] at hDropped ⊢
      exact (hAnswers hDropped).trans (congrArg (_ ++ ·) (Connection.unread_value heq))
    · rw [conn_exec_self]
      exact (hEvents hHandling).trans (congrArg (_ ++ ·) (Connection.unread_value heq))
    · rw [conn_exec_self]
      exact hResponseTx
  | @garbled v rd ed rest heq =>
    refine ⟨fun hDropped => ?_, fun hHandling => ?_, ?_, hEventTx⟩
    · rw [conn_exec_self] at hDropped ⊢
      exact (hAnswers hDropped).trans (congrArg (_ ++ ·) (Connection.unread_malformed heq))
    · rw [conn_exec_self]
      exact (hEvents hHandling).trans (congrArg (_ ++ ·) (Connection.unread_malformed heq))
    · rw [conn_exec_self]
      exact hResponseTx
  | @response v ed x hResponse =>
    have hHand : Reader.hand Json.isResponse ⟨v, false, ed, .dispatch x⟩ = [x] := if_pos hResponse
    have hNoEvent : Reader.hand Json.isEvent ⟨v, false, ed, .dispatch x⟩ = [] :=
      if_neg (by rw [Json.not_isEvent hResponse]; exact Bool.false_ne_true)
    have hDrop : ((ConnOp.sendResponse x).exec (s.conn v)).dropped = (s.conn v).dropped := by
      simp only [ConnOp.exec]
      split <;> rfl
    refine ⟨fun hDropped => ?_, fun hHandling => ?_, fun hDead => ?_, hEventTx⟩
    · rw [conn_exec_self] at hDropped ⊢
      rw [hDrop] at hDropped
      have hFlow := hAnswers hDropped
      rw [hHand] at hFlow
      simp only [ConnOp.exec, hDropped, Bool.false_eq_true, if_false]
      rw [hFlow]
      simp only [List.append_assoc]
      rfl
    · have hFlow := hEvents hHandling
      rw [hNoEvent] at hFlow
      rw [conn_exec_self]
      simp only [ConnOp.exec]
      split <;> exact hFlow
    · rw [conn_exec_self, hDrop]
      exact hDead
  | @responseDead v ed x hResponse =>
    have hNoEvent : Reader.hand Json.isEvent ⟨v, true, ed, .dispatch x⟩ = [] :=
      if_neg (by rw [Json.not_isEvent hResponse]; exact Bool.false_ne_true)
    refine ⟨fun hDropped => ?_, fun hHandling => ?_, hResponseTx, hEventTx⟩
    · have hKept : (s.conn v).dropped = false := hDropped
      rw [show (s.conn v).dropped = true from hResponseTx rfl] at hKept
      cases hKept
    · have hFlow := hEvents hHandling
      rw [hNoEvent] at hFlow
      exact hFlow
  | @event v rd x hEvent =>
    have hNot : x.isResponse = false := by
      rw [Json.isEvent, Bool.and_eq_true, Bool.not_eq_true'] at hEvent
      exact hEvent.1
    have hNoAnswer : Reader.hand Json.isResponse ⟨v, rd, false, .dispatch x⟩ = [] :=
      if_neg (by rw [hNot]; exact Bool.false_ne_true)
    have hHand : Reader.hand Json.isEvent ⟨v, rd, false, .dispatch x⟩ = [x] := if_pos hEvent
    have hConn : ((Op.sendEvent v x).exec s).conn = s.conn := conn_exec_other s _ fun _ _ => by simp
    refine ⟨?_, fun hHandling => ?_, fun hDead => ?_, fun hDead => ?_⟩
    · rw [hConn]
      rw [hNoAnswer] at hAnswers
      exact hAnswers
    · have hAlive := handling_exec _ s hHandling
      have hFlow := hEvents hAlive
      rw [hHand] at hFlow
      have hReported := reported_sendEvent s v v x
      rw [if_pos ⟨hAlive, rfl⟩] at hReported
      rw [hConn]
      refine hFlow.trans ?_
      refine Eq.trans ?_ (congrArg (· ++ _) hReported.symm)
      simp only [List.append_assoc, Shared.reported]
      rfl
    · rw [hConn]
      exact hResponseTx hDead
    · rw [Bool.eq_false_iff]
      intro hHandling
      have hAlive := handling_exec _ s hHandling
      rw [hAlive] at hDead
      cases hDead
  | @eventDead v rd x hEvent =>
    have hNot : x.isResponse = false := by
      rw [Json.isEvent, Bool.and_eq_true, Bool.not_eq_true'] at hEvent
      exact hEvent.1
    have hNoAnswer : Reader.hand Json.isResponse ⟨v, rd, true, .dispatch x⟩ = [] :=
      if_neg (by rw [hNot]; exact Bool.false_ne_true)
    refine ⟨?_, fun hHandling => ?_, hResponseTx, hEventTx⟩
    · rw [hNoAnswer] at hAnswers
      exact hAnswers
    · have hAlive : s.handling = true := hHandling
      rw [hEventTx rfl] at hAlive
      cases hAlive
  | @other v rd ed x hNot hNoEvent =>
    have hEmpty : ∀ kind : Json → Bool, kind x = false →
        Reader.hand kind ⟨v, rd, ed, .dispatch x⟩ = [] := fun kind hk =>
      if_neg (by rw [hk]; exact Bool.false_ne_true)
    rw [hEmpty _ hNot] at hAnswers
    rw [hEmpty _ hNoEvent] at hEvents
    exact ⟨hAnswers, hEvents, hResponseTx, hEventTx⟩

-- ---------------------------------------------------------------------------
-- Receiving
-- ---------------------------------------------------------------------------

/-- A response passes when it has a `return` and no `error`, unchanged. -/
theorem validate_ok {answer response : Json} (h : validateQmpResponse answer = .ok response) :
    response = answer ∧ (answer.get "return").isSome = true ∧ answer.get "error" = none := by
  unfold validateQmpResponse at h
  split at h
  · cases h
  · rename_i hError
    split at h <;> cases h
    exact ⟨rfl, ‹_›, hError⟩

namespace Connection

variable {c : Connection}

/-- The next answer is the one to the waiting caller's command: there is no
other command it could belong to. -/
theorem executed_of_recv {cmd : QmpCommand} {r : Json} {rest : List Json}
    (hAwaits : c.Awaits cmd) (hNext : c.responses = r :: rest)
    (hTranscript : c.answered <+: c.executed)
    (hAnswers : c.answered.map Prod.snd ++ c.responses <+: c.executed.map Prod.snd) :
    c.executed = c.answered ++ [(cmd, r)] ∧ c.toQemu = [] ∧ rest = [] := by
  have hHears : c.Hears := Or.inr (by rw [hNext]; exact List.cons_ne_nil _ _)
  have hGiven : c.executed.map Prod.fst ++ c.toQemu = c.answered.map Prod.fst ++ [cmd] :=
    hAwaits.2 hHears
  obtain ⟨last, hLast⟩ := hTranscript
  rw [← hLast, List.map_append, List.append_assoc, List.append_cancel_left_eq] at hGiven
  rw [← hLast, List.map_append, hNext, List.prefix_append_right_inj] at hAnswers
  cases last with
  | nil => exact absurd hAnswers.length_le (by simp)
  | cons p more =>
    rw [List.map_cons, List.cons_append, List.cons.injEq] at hGiven
    obtain ⟨hCmd, hMore⟩ := hGiven
    obtain ⟨hMap, hTo⟩ := List.append_eq_nil_iff.mp hMore
    cases List.map_eq_nil_iff.mp hMap
    rw [List.map_cons, List.map_nil, List.cons_prefix_cons] at hAnswers
    have hRest := List.prefix_nil.mp hAnswers.2
    refine ⟨?_, hTo, hRest⟩
    rw [← hLast, ← hCmd, hAnswers.1]

/-- **Receiving.** The response taken is the answer to the caller's command, and
then nobody waits. -/
theorem received {cmd : QmpCommand} {r : Json} {rest : List Json}
    (hAwaits : c.Awaits cmd) (hNext : c.responses = r :: rest)
    (hTranscript : c.answered <+: c.executed)
    (hAnswers : c.answered.map Prod.snd ++ c.responses <+: c.executed.map Prod.snd)
    (hResponse : ∀ p ∈ c.executed, p.2.isResponse = true) :
    ((ConnOp.recv cmd).exec c).Settled ∧
      ((ConnOp.recv cmd).exec c).Justifies cmd (validateQmpResponse r) := by
  obtain ⟨hExecuted, hTo, -⟩ := executed_of_recv hAwaits hNext hTranscript hAnswers
  have hExec : (ConnOp.recv cmd).exec c =
      { c with responses := rest, answered := c.answered ++ [(cmd, r)] } := by
    simp only [ConnOp.exec, hNext]
  have hMem : (cmd, r) ∈ ((ConnOp.recv cmd).exec c).answered := by
    rw [hExec]
    exact List.mem_append_right _ (List.mem_singleton.mpr rfl)
  refine ⟨fun _ _ => ?_, ?_⟩
  · rw [hExec, given, hTo, hExecuted, List.append_nil]
  · have hKey : r.isResponse = true := by
      refine hResponse (cmd, r) ?_
      rw [hExecuted]
      exact List.mem_append_right _ (List.mem_singleton.mpr rfl)
    cases hValid : validateQmpResponse r with
    | ok response =>
      obtain ⟨rfl, hReturn, hError⟩ := validate_ok hValid
      exact ⟨hMem, hReturn, hError⟩
    | error e =>
      unfold validateQmpResponse at hValid
      split at hValid
      · cases hValid
        exact ⟨r, hMem, ‹_›⟩
      · rename_i hNone
        split at hValid
        · cases hValid
        · rename_i hNoReturn
          -- the read thread sends values with one of the two keys only
          rw [Json.isResponse, hNone, Bool.or_eq_true] at hKey
          rcases hKey with hKey | hKey
          · exact absurd hKey hNoReturn
          · cases hKey

/-- Who writes while nobody waits is the one to wait. -/
theorem Settled.write (h : c.Settled) (hBroken : c.broken = false) (cmd : QmpCommand) :
    ((ConnOp.write cmd).exec c).Awaits cmd := by
  refine ⟨hBroken, fun hHears => ?_⟩
  have hGiven : c.given = c.answered.map Prod.fst := h hBroken hHears
  show c.executed.map Prod.fst ++ (c.toQemu ++ [cmd]) = _
  rw [← List.append_assoc]
  exact congrArg (· ++ [cmd]) hGiven

end Connection

end EphMemory.Qmp
