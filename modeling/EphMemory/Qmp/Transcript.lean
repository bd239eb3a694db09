import EphMemory.Qmp.Flow

/-!
# QMP — every call gets its own answer

That a caller receives the answer to its own command rests on the mutex, on
the read thread being the response channel's only sender, and on what a failed
write or a dead read thread leaves behind.

* `Op.Fits` — what holds when an operation is performed, `QmpInv.fits`;
* `QmpInv.move` — every move keeps the invariant;
* `calls_answered` — the calls' transcript is QEMU's, and what each returned;
* `disconnect_final` — after a lost connection nothing is answered;
* `events_in_order` — every event is handled once, in order.
-/

namespace EphMemory.Qmp

open EphMemory.Lib
open EphMemory.Lib.Machine
open EphMemory.Orchestrator (VmId)

-- ---------------------------------------------------------------------------
-- What a move relies on
-- ---------------------------------------------------------------------------

/-- What holds of a connection when an operation is performed on it. -/
def ConnOp.Fits (c : Connection) : ConnOp → Prop
  | .connect => c = .new
  | .write _ | .writeFailed _ _ => c.connected = true ∧ c.locked = true
  | .recv cmd => c.connected = true ∧ c.locked = true ∧ c.Awaits cmd
  | .unlock => c.connected = true ∧ c.Settled
  | .sendResponse x => c.connected = true ∧ c.reading = true ∧ (c.dropped = false →
      c.answered.map Prod.snd ++ c.responses ++ [x] <+: c.executed.map Prod.snd)
  | .execute a => c.connected = true ∧ a.isResponse = true
  | .emit x => c.connected = true ∧ x.isResponse = false
  | _ => c.connected = true

def Op.Fits (s : Shared) : Op → Prop
  | .conn v o => o.Fits (s.conn v)
  | .sendEvent v x => s.handling = true → s.reported v ++ [x] <+: (s.conn v).emitted
  | .returned v cmd r => (s.conn v).Justifies cmd r
  | _ => True

/-- Only a connection that was made has its mutex taken. -/
theorem ConnInv.connected_of_locked {s : Shared} {v : VmId} (h : ConnInv s v)
    (hLocked : (s.conn v).locked = true) : (s.conn v).connected = true := by
  by_contra hNot
  rw [h.fresh (Bool.eq_false_of_not_eq_true hNot)] at hLocked
  cases hLocked

/-- Only a connection that was made has its read thread running. -/
theorem ConnInv.connected_of_reading {s : Shared} {v : VmId} (h : ConnInv s v)
    (hReading : (s.conn v).reading = true) : (s.conn v).connected = true := by
  by_contra hNot
  rw [h.fresh (Bool.eq_false_of_not_eq_true hNot)] at hReading
  cases hReading

/-- A caller writes and receives inside the mutex, and receives what it waits for. -/
theorem Caller.Step.fits {s : Shared} {c c' : Caller} {op : Op} (h : Caller.Step s c op c')
    (hInv : ConnInv s c.vm) (hSees : c.Sees s)
    (hLocked : c.pc.inside = true → (s.conn c.vm).locked = true) : op.Fits s := by
  have hConnected : c.pc.inside = true → (s.conn c.vm).connected = true :=
    fun h => hInv.connected_of_locked (hLocked h)
  cases h with
  | lock _ => exact hSees
  | sent => exact ⟨hConnected rfl, hLocked rfl⟩
  | notSent => exact ⟨hConnected rfl, hLocked rfl⟩
  | leave => exact ⟨hConnected rfl, hSees⟩
  | received _ => exact ⟨hConnected rfl, hLocked rfl, hSees⟩
  | disconnected _ _ => trivial
  | returned => exact hSees.2

/-- A read thread reads while it runs, and passes on what it has in its hand. -/
theorem Reader.Step.fits {s : Shared} {r r' : Reader} {op : Op} (h : Reader.Step s r op r')
    (hInv : ConnInv s r.vm) (hSees : r.pc.running = true → r.Flows s)
    (hReading : r.pc.running = true → (s.conn r.vm).reading = true) : op.Fits s := by
  have hConnected : r.pc.running = true → (s.conn r.vm).connected = true :=
    fun h => hInv.connected_of_reading (hReading h)
  cases h with
  | read _ => exact hConnected rfl
  | garbled _ => exact hConnected rfl
  | ended => exact hConnected rfl
  | @response v ed x hResponse =>
    refine ⟨hConnected rfl, hReading rfl, fun hDropped => ?_⟩
    have hFlow := (hSees rfl).answers hDropped
    rw [show Reader.hand Json.isResponse ⟨v, false, ed, .dispatch x⟩ = [x] from if_pos hResponse]
      at hFlow
    exact ⟨_, by rw [hFlow, List.append_assoc]⟩
  | @event v rd x hEvent =>
    intro hHandling
    have hFlow := (hSees rfl).events hHandling
    rw [show Reader.hand Json.isEvent ⟨v, rd, false, .dispatch x⟩ = [x] from if_pos hEvent] at hFlow
    exact ⟨_, by rw [hFlow, List.append_assoc]; rfl⟩
  | _ => trivial

/-- The environment makes a connection once, and QEMU answers what it was given. -/
theorem OutsideStep.fits {s : Shared} {op : Op} {started : List Task}
    (h : OutsideStep s op started) (hInv : ∀ v, ConnInv s v) : op.Fits s := by
  cases h with
  | connect hNew => exact (hInv _).fresh hNew
  | enter h => exact h
  | drop h => exact h
  | execute hResponse h _ => exact ⟨h, hResponse⟩
  | emit hNot h => exact ⟨h, hNot⟩
  | garble h => exact h
  | hangUp h => exact h
  | handlerEnds => trivial

/-- Whoever performs an operation, it fits. -/
theorem QmpInv.fits {s s' : System} {op : Op} (h : QmpInv s) (hm : qmp.Move s op s') :
    op.Fits s.shared := by
  rcases move_cases hm with ⟨i, t, t', ht, hStep, -⟩ | ⟨started, hs, -⟩
  · have hSees := h.sees i t ht
    cases hStep with
    | @caller c _ _ hc =>
      exact hc.fits (h.conns c.vm) hSees fun hInside => (h.locks c.vm).up ht ⟨rfl, hInside⟩
    | @reader r _ _ hr =>
      exact hr.fits (h.conns r.vm) hSees fun hRunning => (h.readers r.vm).up ht ⟨rfl, hRunning⟩
    | handler _ _ => trivial
  · exact hs.fits h.conns

-- ---------------------------------------------------------------------------
-- The connections
-- ---------------------------------------------------------------------------

/-- An operation that fits justifies what was justified before. -/
theorem ConnOp.Fits.grows {c : Connection} {op : ConnOp} (h : op.Fits c) : c.Grows (op.exec c) := by
  refine Connection.grows_exec ?_ ?_
  · rintro rfl
    exact h
  · rintro x rfl
    exact h.2.1

/-- An operation that fits justifies on every connection what was justified before. -/
theorem Op.Fits.grows {s : Shared} {op : Op} (h : op.Fits s) (v : VmId) :
    (s.conn v).Grows ((op.exec s).conn v) := by
  cases op with
  | conn w o =>
    by_cases hw : w = v
    · subst hw
      rw [conn_exec_self]
      have hFits : o.Fits (s.conn w) := h
      exact hFits.grows
    · rw [conn_exec_ne s o hw]
      exact .refl _
  | _ =>
    rw [conn_exec_other s _ fun _ _ => by simp]
    exact .refl _

/-- No operation is performed on a connection that is not made. -/
theorem ConnOp.Fits.fresh {c : Connection} {op : ConnOp} (h : op.Fits c) :
    (op.exec c).connected = true := by
  cases op with
  | connect => rfl
  | write cmd => exact h.1
  | writeFailed cmd delivered => exact h.1
  | recv cmd =>
    simp only [ConnOp.exec]
    split
    · exact h.1
    · exact h.1
  | unlock => exact h.1
  | sendResponse x =>
    simp only [ConnOp.exec]
    split
    · exact h.1
    · exact h.1
  | execute a =>
    simp only [ConnOp.exec]
    split
    · exact h.1
    · exact h.1
  | emit x => exact h.1
  | lock => exact h
  | readLine => exact h
  | endReading => exact h
  | enter => exact h
  | drop => exact h
  | garble => exact h
  | hangUp => exact h

/-- The transcript of the calls stays a part of QEMU's. -/
theorem ConnOp.Fits.transcript {s : Shared} {v : VmId} {op : ConnOp} (h : op.Fits (s.conn v))
    (hInv : ConnInv s v) : (op.exec (s.conn v)).answered <+: (op.exec (s.conn v)).executed := by
  have hOld := hInv.transcript
  cases op with
  | connect => exact List.prefix_refl _
  | recv cmd =>
    cases hNext : (s.conn v).responses with
    | nil =>
      simp only [ConnOp.exec, hNext]
      exact hOld
    | cons r rest =>
      have hExecuted := (Connection.executed_of_recv h.2.2 hNext hOld hInv.answers).1
      simp only [ConnOp.exec, hNext]
      rw [hExecuted]
  | sendResponse x =>
    simp only [ConnOp.exec]
    split <;> exact hOld
  | execute a =>
    simp only [ConnOp.exec]
    split
    · exact hOld
    · exact hOld.trans (List.prefix_append _ _)
  | _ => exact hOld

/-- What is received or queued stays a part of QEMU's answers. -/
theorem ConnOp.Fits.answers {s : Shared} {v : VmId} {op : ConnOp} (h : op.Fits (s.conn v))
    (hInv : ConnInv s v) :
    (op.exec (s.conn v)).answered.map Prod.snd ++ (op.exec (s.conn v)).responses <+:
      (op.exec (s.conn v)).executed.map Prod.snd := by
  have hOld := hInv.answers
  cases op with
  | connect => exact List.prefix_refl _
  | recv cmd =>
    cases hNext : (s.conn v).responses with
    | nil =>
      simp only [ConnOp.exec, hNext]
      rw [hNext] at hOld
      exact hOld
    | cons r rest =>
      rw [hNext] at hOld
      simp only [ConnOp.exec, hNext, List.map_append, List.append_assoc]
      exact hOld
  | sendResponse x =>
    simp only [ConnOp.exec]
    split
    · exact hOld
    · rename_i hKept
      rw [← List.append_assoc]
      exact h.2.2 (Bool.eq_false_of_not_eq_true hKept)
  | execute a =>
    simp only [ConnOp.exec]
    split
    · exact hOld
    · rw [List.map_append]
      exact hOld.trans (List.prefix_append _ _)
  | _ => exact hOld

/-- QEMU executes a command with a response. -/
theorem ConnOp.Fits.responses {s : Shared} {v : VmId} {op : ConnOp} (h : op.Fits (s.conn v))
    (hInv : ConnInv s v) : ∀ p ∈ (op.exec (s.conn v)).executed, p.2.isResponse = true := by
  have hOld := hInv.responses
  cases op with
  | connect => exact fun p hp => absurd hp List.not_mem_nil
  | recv cmd =>
    simp only [ConnOp.exec]
    split <;> exact hOld
  | sendResponse x =>
    simp only [ConnOp.exec]
    split <;> exact hOld
  | execute a =>
    simp only [ConnOp.exec]
    split
    · exact hOld
    · intro p hp
      rcases List.mem_append.mp hp with hp | hp
      · exact hOld p hp
      · rw [List.mem_singleton.mp hp]
        exact h.2
  | _ => exact hOld

/-- When the mutex is given back, nobody waits. -/
theorem ConnOp.Fits.free {s : Shared} {v : VmId} {op : ConnOp} (h : op.Fits (s.conn v))
    (hInv : ConnInv s v) (hFree : (op.exec (s.conn v)).locked = false) :
    (op.exec (s.conn v)).Settled := by
  have hQuiet : op.calling = false → op.onLock = false → (op.exec (s.conn v)).Settled := by
    intro hCalling hLock
    rw [locked_exec hLock] at hFree
    refine (Connection.quiet_exec hCalling ?_).settled (hInv.free hFree)
    rintro x rfl
    exact h.2.1
  cases op with
  | connect => cases hFree
  | lock => cases hFree
  | unlock => exact h.2
  | write cmd => exact absurd (h.2.symm.trans hFree) Bool.noConfusion
  | writeFailed cmd delivered => exact absurd (h.2.symm.trans hFree) Bool.noConfusion
  | recv cmd =>
    rw [locked_exec rfl] at hFree
    exact absurd (h.2.1.symm.trans hFree) Bool.noConfusion
  | _ => exact hQuiet rfl rfl

/-- What QEMU wrote stays written. -/
theorem emitted_mono (c : Connection) {op : ConnOp} (h : op ≠ .connect) :
    c.emitted <+: (op.exec c).emitted := by
  cases op with
  | connect => exact absurd rfl h
  | recv cmd =>
    simp only [ConnOp.exec]
    split <;> exact List.prefix_refl _
  | sendResponse x =>
    simp only [ConnOp.exec]
    split <;> exact List.prefix_refl _
  | execute a =>
    simp only [ConnOp.exec]
    split <;> exact List.prefix_refl _
  | emit x =>
    simp only [ConnOp.exec]
    split
    · exact List.prefix_append _ _
    · exact List.prefix_refl _
  | _ => exact List.prefix_refl _

/-- What was taken and is queued stays a part of what QEMU wrote. -/
theorem Op.Fits.events {s : Shared} {op : Op} {v : VmId} (h : op.Fits s) (hInv : ConnInv s v) :
    (op.exec s).reported v <+: ((op.exec s).conn v).emitted := by
  have hOld := hInv.events
  cases op with
  | conn w o =>
    have hReported : ((Op.conn w o).exec s).reported v = s.reported v := rfl
    rw [hReported]
    by_cases hw : w = v
    · subst hw
      rw [conn_exec_self]
      by_cases hConnect : o = .connect
      · subst hConnect
        rw [show s.conn w = .new from h] at hOld
        exact hOld
      · exact hOld.trans (emitted_mono _ hConnect)
    · rw [conn_exec_ne s o hw]
      exact hOld
  | sendEvent w x =>
    rw [conn_exec_other s _ fun _ _ => by simp, reported_sendEvent]
    split
    · rename_i hBoth
      obtain ⟨hHandling, rfl⟩ := hBoth
      exact h hHandling
    · rw [List.append_nil]
      exact hOld
  | takeEvent =>
    rw [conn_exec_other s _ fun _ _ => by simp, reported_takeEvent]
    exact hOld
  | handlerEnds =>
    show eventsOf v s.handled ++ [] <+: _
    rw [List.append_nil]
    exact (List.prefix_append _ _).trans hOld
  | nop => exact hOld
  | returned w cmd r => exact hOld

/-- A result is justified when it is returned, and stays justified. -/
theorem Op.Fits.log {s : Shared} {op : Op} {v : VmId} (h : op.Fits s) (hInv : ConnInv s v)
    {cmd : QmpCommand} {r : Except QmpError Json}
    (hMem : Output.returned v cmd r ∈ (op.exec s).log) :
    ((op.exec s).conn v).Justifies cmd r := by
  have hOld : Output.returned v cmd r ∈ s.log → ((op.exec s).conn v).Justifies cmd r :=
    fun hMem => (Op.Fits.grows h v).justifies (hInv.log cmd r hMem)
  cases op with
  | returned w cmd' r' =>
    rcases List.mem_cons.mp hMem with heq | hMem
    · cases heq
      exact h
    · exact hOld hMem
  | sendEvent w x =>
    refine hOld ?_
    simp only [Op.exec] at hMem
    split at hMem <;> exact hMem
  | takeEvent =>
    refine hOld ?_
    simp only [Op.exec] at hMem
    split at hMem <;> exact hMem
  | _ => exact hOld hMem

/-- **One operation.** Part by part, a connection keeps what holds of it. -/
theorem ConnInv.exec {s : Shared} {op : Op} (h : op.Fits s) {v : VmId} (hInv : ConnInv s v) :
    ConnInv (op.exec s) v := by
  have hEvents := Op.Fits.events h hInv
  have hLog : ∀ cmd r, Output.returned v cmd r ∈ (op.exec s).log →
      ((op.exec s).conn v).Justifies cmd r := fun cmd r => Op.Fits.log h hInv
  cases op with
  | conn w o =>
    by_cases hw : w = v
    · subst hw
      have hFits : o.Fits (s.conn w) := h
      refine ⟨?_, ?_, ?_, ?_, ?_, hEvents, hLog⟩ <;> rw [conn_exec_self]
      · rw [hFits.fresh]
        exact fun h => absurd h Bool.noConfusion
      · exact hFits.transcript hInv
      · exact hFits.answers hInv
      · exact hFits.responses hInv
      · exact hFits.free hInv
    · have hEq := conn_exec_ne s o hw
      refine ⟨?_, ?_, ?_, ?_, ?_, hEvents, hLog⟩ <;> rw [hEq]
      · exact hInv.fresh
      · exact hInv.transcript
      · exact hInv.answers
      · exact hInv.responses
      · exact hInv.free
  | _ =>
    refine ⟨?_, ?_, ?_, ?_, ?_, hEvents, hLog⟩ <;>
      rw [conn_exec_other s _ fun _ _ => by simp]
    · exact hInv.fresh
    · exact hInv.transcript
    · exact hInv.answers
    · exact hInv.responses
    · exact hInv.free

-- ---------------------------------------------------------------------------
-- The threads
-- ---------------------------------------------------------------------------

/-- What a caller knows after its own step, from what it did inside the mutex. -/
theorem Caller.Step.sees {s : Shared} {c c' : Caller} {op : Op} (h : Caller.Step s c op c')
    (hInv : ConnInv s c.vm) (hSees : c.Sees s)
    (hLocked : c.pc.inside = true → (s.conn c.vm).locked = true)
    (hSocket : ∀ cmd, op = .conn c.vm (.write cmd) → (s.conn c.vm).broken = false) :
    c'.Sees (op.exec s) := by
  cases h with
  | @lock v hFree =>
    show (((Op.conn v .lock).exec s).conn v).Settled
    rw [conn_exec_self]
    exact (Connection.quiet_exec rfl fun _ h => by cases h).settled (hInv.free hFree)
  | @sent v cmd =>
    show (((Op.conn v (.write cmd)).exec s).conn v).Awaits cmd
    rw [conn_exec_self]
    exact Connection.Settled.write hSees (hSocket cmd rfl) cmd
  | @notSent v cmd delivered =>
    show (((Op.conn v (.writeFailed cmd delivered)).exec s).conn v).Settled ∧
      (((Op.conn v (.writeFailed cmd delivered)).exec s).conn v).Justifies cmd _
    rw [conn_exec_self]
    exact ⟨fun hBroken => absurd hBroken Bool.noConfusion, rfl⟩
  | leave => trivial
  | @received v cmd r rest hNext =>
    show (((Op.conn v (.recv cmd)).exec s).conn v).Settled ∧
      (((Op.conn v (.recv cmd)).exec s).conn v).Justifies cmd _
    rw [conn_exec_self]
    exact Connection.received hSees hNext hInv.transcript hInv.answers hInv.responses
  | disconnected hNone hReading =>
    refine ⟨fun _ hHears => ?_, ⟨hInv.connected_of_locked (hLocked rfl), hReading, hNone⟩⟩
    rcases hHears with hHears | hHears
    · exact absurd (hHears.symm.trans hReading) Bool.noConfusion
    · exact absurd hNone hHears
  | returned => exact hSees.1

/-- Somebody else than task `j` performs the operation. -/
def PerformedByOther (s : System) (j : Nat) (op : Op) : Prop :=
  (∃ (i : Nat) (t t' : Task), s.tasks[i]? = some t ∧ Task.Step s.shared t op t' ∧ j ≠ i) ∨
    ∃ started, OutsideStep s.shared op started

/-- What a caller inside relies on is left alone by all others. -/
theorem QmpInv.quiet {s : System} {op : Op} (h : QmpInv s) (hFits : op.Fits s.shared)
    {j : Nat} {u : Task} {v : VmId} (hu : s.tasks[j]? = some u) (hCalls : u.calls v)
    (hOther : PerformedByOther s j op) :
    (s.shared.conn v).Quiet ((op.exec s.shared).conn v) := by
  have hLocked := (h.locks v).up hu hCalls
  cases op with
  | conn w o =>
    by_cases hw : w = v
    · subst hw
      rw [conn_exec_self]
      refine Connection.quiet_exec ?_ fun x hx => ?_
      · -- the only caller inside is `u`
        rcases hOther with ⟨i, t, t', ht, hStep, hji⟩ | ⟨started, hs⟩
        · cases hStep with
          | caller hc =>
            cases hc with
            | lock hFree => rfl
            | leave => rfl
            | sent => exact absurd ((h.locks w).unique hu ht hCalls ⟨rfl, rfl⟩) hji
            | notSent => exact absurd ((h.locks w).unique hu ht hCalls ⟨rfl, rfl⟩) hji
            | received _ => exact absurd ((h.locks w).unique hu ht hCalls ⟨rfl, rfl⟩) hji
          | reader hr => cases hr <;> rfl
        · cases hs with
          | connect hNew =>
            rw [(h.conns w).fresh hNew] at hLocked
            cases hLocked
          | _ => rfl
      · subst hx
        exact hFits.2.1
    · rw [conn_exec_ne _ o hw]
      exact .refl _
  | _ =>
    rw [conn_exec_other _ _ fun _ _ => by simp]
    exact .refl _

/-- What a read thread knows is kept by all others. -/
theorem QmpInv.flows {s : System} {op : Op} (h : QmpInv s) {j : Nat} {r : Reader}
    (hu : s.tasks[j]? = some (.reader r)) (hRunning : r.pc.running = true)
    (hOther : PerformedByOther s j op) : r.Flows (op.exec s.shared) := by
  have hReading := (h.readers r.vm).up hu ⟨rfl, hRunning⟩
  have hFlows : r.Flows s.shared := h.sees j _ hu hRunning
  rcases hOther with ⟨i, t, t', ht, hStep, hji⟩ | ⟨started, hs⟩
  · cases hStep with
    | caller hc =>
      refine hFlows.other (fun o ho => ?_) fun x hx => ?_
      · subst ho
        cases hc <;> exact ⟨rfl, by simp, by simp, by simp, by simp⟩
      · subst hx
        cases hc
    | @reader r' _ _ hr =>
      -- there is one read thread a connection
      have hNe : r'.vm ≠ r.vm ∨ r'.pc.running = false := by
        by_contra hBoth
        push Not at hBoth
        exact hji ((h.readers r.vm).unique hu ht ⟨rfl, hRunning⟩
          ⟨hBoth.1, by simpa using hBoth.2⟩)
      refine hFlows.other (fun o ho => ?_) fun x hx => ?_
      · subst ho
        cases hr <;> rcases hNe with hNe | hNe <;>
          first | exact absurd rfl hNe | cases hNe
      · subst hx
        cases hr
        rcases hNe with hNe | hNe
        · exact absurd rfl hNe
        · cases hNe
    | handler _ _ => exact hFlows.other (fun _ ho => by cases ho) fun _ hx => by cases hx
  · refine hFlows.other (fun o ho => ?_) fun x hx => ?_
    · subst ho
      cases hs with
      | connect hNew =>
        rw [(h.conns r.vm).fresh hNew] at hReading
        cases hReading
      | execute hResponse _ _ =>
        exact ⟨rfl, by simp, by simp, fun _ ha => by cases ha; exact hResponse, by simp⟩
      | emit hNot _ =>
        exact ⟨rfl, by simp, by simp, by simp, fun _ hx => by cases hx; exact hNot⟩
      | _ => exact ⟨rfl, by simp, by simp, by simp, by simp⟩
    · subst hx
      cases hs

/-- What a task knows survives the steps of the others. -/
theorem QmpInv.sees_other {s : System} {op : Op} (h : QmpInv s) (hFits : op.Fits s.shared)
    {j : Nat} {u : Task} (hu : s.tasks[j]? = some u) (hOther : PerformedByOther s j op) :
    u.Sees (op.exec s.shared) := by
  cases u with
  | handler => trivial
  | caller c =>
    have hSees : c.Sees s.shared := h.sees j _ hu
    exact hSees.stable (fun hInside => h.quiet hFits hu ⟨rfl, hInside⟩ hOther)
      (Op.Fits.grows hFits c.vm)
  | reader r => exact fun hRunning => h.flows hu hRunning hOther

/-- A new connection is settled, and nothing has flowed through it. -/
theorem OutsideStep.sees {s : Shared} {op : Op} {started : List Task}
    (h : OutsideStep s op started) (hInv : ∀ v, ConnInv s v) :
    ∀ u ∈ started, u.Sees (op.exec s) := by
  cases h with
  | @connect v hNew =>
    have hFresh := (hInv v).fresh hNew
    have hNone : s.reported v = [] := by
      have hPrefix := (hInv v).events
      rw [hFresh] at hPrefix
      exact List.prefix_nil.mp hPrefix
    intro u hu
    simp only [List.mem_cons, List.not_mem_nil, or_false] at hu
    rcases hu with rfl | rfl
    · refine fun _ => ⟨fun _ => ?_, fun _ => ?_, (fun h => by cases h), fun h => by cases h⟩
      · show (((Op.conn v .connect).exec s).conn v).executed.map Prod.snd = _
        rw [conn_exec_self]
        rfl
      · show (((Op.conn v .connect).exec s).conn v).emitted = s.reported v ++ _
        rw [conn_exec_self, hNone]
        rfl
    · show (((Op.conn v .connect).exec s).conn v).Settled
      rw [conn_exec_self]
      exact fun _ _ => rfl
  | @enter v hConnected =>
    intro u hu
    rw [List.mem_singleton.mp hu]
    show (((Op.conn v .enter).exec s).conn v).connected = true
    rw [conn_exec_self]
    exact hConnected
  | _ => exact fun u hu => by cases hu

/-- The connections, the locks and what the tasks know hold on together. -/
theorem QmpInv.move {s s' : System} {op : Op} (h : QmpInv s) (hm : qmp.Move s op s')
    (hSocket : StaysBroken s op) : QmpInv s' := by
  have hFits := h.fits hm
  refine ⟨h.locks.move h.conns hm, h.readers.move h.conns hm, ?_, fun v => ?_⟩
  · refine hm.forall_tasks_ne (J := fun _ s t => t.Sees s) (fun i t ch t' started ht hn => ?_)
      fun started hs => ?_
    · obtain ⟨hStep, rfl⟩ := Task.step_of_next hn
      refine ⟨?_, fun _ u hu => (by cases hu), fun j u hji hu =>
        h.sees_other hFits hu (Or.inl ⟨i, t, t', ht, hStep, hji⟩)⟩
      have hSees := h.sees i t ht
      cases hStep with
      | @caller c _ _ hc =>
        refine hc.sees (h.conns c.vm) hSees (fun hInside => (h.locks c.vm).up ht ⟨rfl, hInside⟩) ?_
        rintro cmd rfl
        exact hSocket
      | reader hr =>
        intro hRunning
        refine hr.flows hRunning (hSees ?_)
        cases hr <;> rfl
      | handler _ _ => trivial
    · have hs := outsideStep_of_outside hs
      exact ⟨fun _ => hs.sees h.conns,
        fun j u hu => h.sees_other hFits hu (Or.inr ⟨started, hs⟩)⟩
  · rw [hm.shared_eq]
    exact (h.conns v).exec hFits

theorem qmpInv_init : QmpInv initSystem := by
  have hTask : ∀ (i : Nat) t, initSystem.tasks[i]? = some t → t = .handler := fun i t ht =>
    List.mem_singleton.mp (List.mem_of_getElem? ht)
  have hHeld : ∀ (f : Shared → Prop) (on : Task → Prop), ¬ f initSystem.shared →
      ¬ on .handler → Held f on initSystem := by
    intro f on hf hOn
    show -ind (f initSystem.shared) + (ind (on .handler) + 0) = 0
    rw [ind_false hf, ind_false hOn]
    rfl
  refine ⟨fun v => hHeld _ _ Bool.false_ne_true id, fun v => hHeld _ _ Bool.false_ne_true id,
    fun i t ht => ?_, fun v => ⟨fun _ => rfl, List.prefix_refl _, List.prefix_refl _,
      fun p hp => absurd hp List.not_mem_nil, fun _ _ _ => rfl, List.prefix_refl _,
      fun cmd r hr => absurd hr List.not_mem_nil⟩⟩
  rw [hTask i t ht]
  trivial

theorem Reachable.qmpInv {s : System} (h : Reachable s) : QmpInv s :=
  Steps.invariant (I := QmpInv) (fun _ _ _ hI hm ha => hI.move hm ha) h qmpInv_init

-- ---------------------------------------------------------------------------
-- A lost connection
-- ---------------------------------------------------------------------------

/-- A result without an answer behind it. -/
def Unanswered (r : Except QmpError Json) : Prop := r = .error .io ∨ r = .error .disconnected

/-- No caller is about to return an answer. -/
def NoAnswer (v : VmId) (s : System) : Prop :=
  ∀ (i : Nat) cmd r, s.tasks[i]? = some (.caller ⟨v, .result cmd r⟩) → Unanswered r

/-- On a dead connection no caller comes to have an answer. -/
theorem NoAnswer.move {s s' : System} {op : Op} {v : VmId} (h : NoAnswer v s)
    (hDead : (s.shared.conn v).Dead) (hm : qmp.Move s op s') : NoAnswer v s' := by
  intro j cmd r hj
  rcases move_cases hm with ⟨i, t, t', ht, hStep, hTasks⟩ | ⟨started, hs, hTasks⟩
  · rw [hTasks] at hj
    rw [← List.append_nil (s.tasks.set i t')] at hj
    rcases getElem?_set_append hj with ⟨-, heq⟩ | hOld | hNil
    · subst heq
      cases hStep with
      | caller hc =>
        cases hc with
        | notSent => exact Or.inl rfl
        | received hNext =>
          rw [hDead.2.2] at hNext
          cases hNext
        | disconnected _ _ => exact Or.inr rfl
    · exact h j cmd r hOld
    · cases hNil
  · rw [hTasks] at hj
    rcases Nat.lt_or_ge j s.tasks.length with hLt | hGe
    · rw [List.getElem?_append_left hLt] at hj
      exact h j cmd r hj
    · rw [List.getElem?_append_right hGe] at hj
      have hMem := List.mem_of_getElem? hj
      cases hs with
      | connect _ => simp at hMem
      | enter _ => simp at hMem
      | _ => cases hMem

/-- `send` failed for want of a sender. -/
def Lost (v : VmId) (s : System) : Prop :=
  ∃ cmd, Output.returned v cmd (.error .disconnected) ∈ s.shared.log

/-- When `send` finds no sender, the read thread is gone and the channel empty. -/
theorem QmpInv.dead_of_lost {s : System} (h : QmpInv s) {v : VmId} (hLost : Lost v s) :
    (s.shared.conn v).Dead := by
  obtain ⟨cmd, hMem⟩ := hLost
  exact (h.conns v).log cmd _ hMem

/-- The log grows by the results that are returned. -/
theorem log_exec (op : Op) (s : Shared) :
    (op.exec s).log = s.log ∨
      ∃ v cmd r, op = .returned v cmd r ∧ (op.exec s).log = .returned v cmd r :: s.log := by
  cases op with
  | returned v cmd r => exact Or.inr ⟨v, cmd, r, rfl, rfl⟩
  | sendEvent v x =>
    left
    simp only [Op.exec]
    split <;> rfl
  | takeEvent =>
    left
    simp only [Op.exec]
    split <;> rfl
  | _ => exact Or.inl rfl

/-- The caller that returns a result. -/
theorem Task.Step.returned {s : Shared} {t t' : Task} {v : VmId} {cmd : QmpCommand}
    {r : Except QmpError Json} (h : Task.Step s t (.returned v cmd r) t') :
    t = .caller ⟨v, .result cmd r⟩ ∧ t' = .caller ⟨v, .ready⟩ := by
  cases h with
  | caller hc =>
    cases hc
    exact ⟨rfl, rfl⟩
  | reader hr => cases hr

/-- The failing `send` is the first moment of the rest: from then on nobody has
an answer. -/
theorem noAnswer_of_lost {s s' : System} {op : Op} {v : VmId} (h : QmpInv s)
    (hOld : Lost v s → NoAnswer v s) (hm : qmp.Move s op s') (hLost : Lost v s') :
    NoAnswer v s' := by
  by_cases hBefore : Lost v s
  · exact (hOld hBefore).move (h.dead_of_lost hBefore) hm
  · obtain ⟨cmd, hMem⟩ := hLost
    rw [hm.shared_eq] at hMem
    rcases log_exec op s.shared with hLog | ⟨w, cmd', r, rfl, hLog⟩
    · rw [show (qmp.exec op s.shared).log = _ from hLog] at hMem
      exact absurd ⟨cmd, hMem⟩ hBefore
    · rw [show (qmp.exec _ s.shared).log = _ from hLog] at hMem
      rcases List.mem_cons.mp hMem with heq | hMem
      · cases heq
        rcases move_cases hm with ⟨i, t, t', ht, hStep, hTasks⟩ | ⟨started, hs, -⟩
        · obtain ⟨rfl, rfl⟩ := hStep.returned
          intro j cmd' r' hj
          rw [hTasks] at hj
          rw [← List.append_nil (s.tasks.set i _)] at hj
          rcases getElem?_set_append hj with ⟨-, heq⟩ | hj' | hNil
          · cases heq
          · -- the caller that lost the connection is the only one inside
            cases (h.locks v).unique ht hj' ⟨rfl, rfl⟩ ⟨rfl, rfl⟩
            cases ht.symm.trans hj'
            exact Or.inr rfl
          · cases hNil
        · cases hs
      · exact absurd ⟨cmd, hMem⟩ hBefore

/-- Once a `send` has found no sender, nobody has an answer. -/
theorem Reachable.noAnswer {s : System} (h : Reachable s) {v : VmId} (hLost : Lost v s) :
    NoAnswer v s := by
  have hBoth := Steps.invariant (I := fun s => QmpInv s ∧ (Lost v s → NoAnswer v s))
    (fun _ _ _ hI hm ha => ⟨hI.1.move hm ha, noAnswer_of_lost hI.1 hI.2 hm⟩) h
    ⟨qmpInv_init, fun hNone => by
      obtain ⟨cmd, hMem⟩ := hNone
      cases hMem⟩
  exact hBoth.2 hLost

/-- A dead connection answers nothing more. -/
theorem answered_exec {c : Connection} (hDead : c.Dead) {op : ConnOp} (h : op.Fits c) :
    (op.exec c).answered = c.answered := by
  cases op with
  | connect =>
    rw [show c = .new from h] at hDead
    exact absurd hDead.1 Bool.false_ne_true
  | recv cmd => simp only [ConnOp.exec, hDead.2.2]
  | sendResponse x =>
    simp only [ConnOp.exec]
    split <;> rfl
  | execute a =>
    simp only [ConnOp.exec]
    split <;> rfl
  | _ => rfl

/-- A dead connection answers nothing more, whatever operation is performed. -/
theorem answered_exec_dead {s : Shared} {op : Op} {v : VmId} (hDead : (s.conn v).Dead)
    (h : op.Fits s) : ((op.exec s).conn v).answered = (s.conn v).answered := by
  cases op with
  | conn w o =>
    by_cases hw : w = v
    · subst hw
      rw [conn_exec_self]
      have hFits : o.Fits (s.conn w) := h
      exact answered_exec hDead hFits
    · rw [conn_exec_ne s o hw]
  | _ => rw [conn_exec_other s _ fun _ _ => by simp]

-- ---------------------------------------------------------------------------
-- The results
-- ---------------------------------------------------------------------------

/-- While the read thread runs and nobody waits, QEMU has executed what it was
given, and all of it is answered. -/
theorem Connection.Settled.executed_eq {c : Connection} (h : c.Settled) (hReading : c.reading = true)
    (hBroken : c.broken = false) (hTranscript : c.answered <+: c.executed) :
    c.answered = c.executed ∧ c.toQemu = [] := by
  have hGiven : c.executed.map Prod.fst ++ c.toQemu = c.answered.map Prod.fst :=
    h hBroken (Or.inl hReading)
  have hLen := congrArg List.length hGiven
  rw [List.length_append, List.length_map, List.length_map] at hLen
  have hLe := hTranscript.length_le
  exact ⟨hTranscript.eq_of_length (by omega), List.eq_nil_of_length_eq_zero (by omega)⟩

/-- A caller inside leaves at most its own command unanswered. -/
theorem QmpInv.outstanding {s : System} (h : QmpInv s) {v : VmId}
    (hReading : (s.shared.conn v).reading = true) (hBroken : (s.shared.conn v).broken = false) :
    (s.shared.conn v).given.length ≤ (s.shared.conn v).answered.length + 1 := by
  have hSettled : (s.shared.conn v).Settled →
      (s.shared.conn v).given.length ≤ (s.shared.conn v).answered.length + 1 := by
    intro hSettled
    rw [hSettled hBroken (Or.inl hReading), List.length_map]
    exact Nat.le_succ _
  by_cases hLocked : (s.shared.conn v).locked = true
  · obtain ⟨t, ht, hCalls⟩ := (h.locks v).holder hLocked
    obtain ⟨i, hi⟩ := List.getElem?_of_mem ht
    have hSees := h.sees i t hi
    cases t with
    | caller c =>
      obtain ⟨w, pc⟩ := c
      obtain ⟨rfl, hInside⟩ := hCalls
      cases pc with
      | lock => cases hInside
      | done => cases hInside
      | ready => exact hSettled hSees
      | result cmd r => exact hSettled hSees.1
      | recv cmd =>
        have hGiven := hSees.2 (Or.inl hReading)
        rw [hGiven, List.length_append, List.length_map]
        exact Nat.le_refl _
    | reader r => exact absurd hCalls id
    | handler => exact absurd hCalls id
  · exact hSettled ((h.conns v).free (Bool.eq_false_of_not_eq_true hLocked))

/-- `qmp_call` expects a `return` in what `send` gives it, and a justified
response has one. -/
theorem qmpCall_of_justifies {c : Connection} {cmd : QmpCommand} {r : Except QmpError Json}
    (h : c.Justifies cmd r) {α : Type} (fromValue : Json → Option α) :
    qmpCall fromValue r ≠ none := by
  intro hNone
  unfold qmpCall at hNone
  split at hNone
  · cases hNone
  · split at hNone
    · rename_i hReturn
      have hSome := h.2.1
      rw [hReturn] at hSome
      cases hSome
    · split at hNone <;> cases hNone

/-- **Every call gets its own answer.** In every state reached, the commands
that were answered, with their answers, are the first of those QEMU executed;
every result `send` returned stands for such an answer or for a lost
connection, and `qmp_call` does not panic on it. While the read thread runs and
no write has failed, at most one command is unanswered, and none when the
mutex is free. -/
theorem calls_answered {s : System} (h : Reachable s) (v : VmId) :
    (s.shared.conn v).answered <+: (s.shared.conn v).executed ∧
    (∀ cmd r, Output.returned v cmd r ∈ s.shared.log → (s.shared.conn v).Justifies cmd r ∧
      ∀ {α : Type} (fromValue : Json → Option α), qmpCall fromValue r ≠ none) ∧
    ((s.shared.conn v).reading = true → (s.shared.conn v).broken = false →
      (s.shared.conn v).given.length ≤ (s.shared.conn v).answered.length + 1 ∧
      ((s.shared.conn v).locked = false → (s.shared.conn v).toQemu = [] ∧
        (s.shared.conn v).answered = (s.shared.conn v).executed)) := by
  have hInv := h.qmpInv
  refine ⟨(hInv.conns v).transcript, fun cmd r hMem => ?_, fun hReading hBroken => ?_⟩
  · have hJust := (hInv.conns v).log cmd r hMem
    exact ⟨hJust, qmpCall_of_justifies hJust⟩
  · refine ⟨hInv.outstanding hReading hBroken, fun hFree => ?_⟩
    have hEq := ((hInv.conns v).free hFree).executed_eq hReading hBroken (hInv.conns v).transcript
    exact ⟨hEq.2, hEq.1⟩

/-- VM 3 connects and greets; `qmp_capabilities` is answered with an event before
the answer. -/
def capabilitiesRun : List (Label Op Choice) :=
  [.outside (.conn 3 .connect), .outside (.conn 3 (.emit (.obj [("QMP", .null)]))),
    .task 2 (.send ⟨"qmp_capabilities", none⟩), .task 1 .go, .task 1 .go, .task 1 .go,
    .outside (.conn 3 (.emit (.obj [("event", .str "EPH_MEM_REVOKE")]))),
    .outside (.conn 3 (.execute (.obj [("return", .obj [])]))),
    .task 1 .go, .task 1 .go, .task 1 .go, .task 1 .go, .task 1 .go, .task 1 .go,
    .task 2 .go, .task 2 .go, .task 2 .leave, .task 0 .go]

/-- The caller `i` sends a command, QEMU answers it with the given field, and the
caller leaves. -/
def callRun (i : Nat) (command field : String) : List (Label Op Choice) :=
  [.task i .go, .task i (.send ⟨command, none⟩),
    .outside (.conn 3 (.execute (.obj [(field, .null)]))), .task 1 .go, .task 1 .go, .task 1 .go,
    .task i .go, .task i .go, .task i .leave]

/-- Two more callers; the one that comes first calls last. -/
def twoCallersRun : List (Label Op Choice) :=
  capabilitiesRun ++ [.outside (.conn 3 .enter), .outside (.conn 3 .enter)] ++
    callRun 4 "eph-mem-donate" "error" ++ callRun 3 "query-memdev" "return"

theorem twoCallersRun_runs :
    (qmp.runIf (fun s op => decide (StaysBroken s op)) initSystem twoCallersRun).isSome = true := by
  decide +kernel

theorem calls_answered_two :
    ((qmp.after initSystem twoCallersRun).shared.conn 3).executed.map (fun p => p.1.execute) =
      ["qmp_capabilities", "eph-mem-donate", "query-memdev"] ∧
    ((qmp.after initSystem twoCallersRun).shared.conn 3).answered =
      ((qmp.after initSystem twoCallersRun).shared.conn 3).executed ∧
    ∀ cmd r, Output.returned 3 cmd r ∈ (qmp.after initSystem twoCallersRun).shared.log →
      ((qmp.after initSystem twoCallersRun).shared.conn 3).Justifies cmd r := by
  obtain ⟨-, hResults, hSettled⟩ := calls_answered (steps_afterIf twoCallersRun_runs) 3
  exact ⟨by decide +kernel, ((hSettled (by decide +kernel) (by decide +kernel)).2
    (by decide +kernel)).2, fun cmd r hMem => (hResults cmd r hMem).1⟩

/-- **A lost connection stays lost.** Once `send` has failed for want of a
sender, no later command on the connection is answered: every later `send`
fails with an I/O error or the same way. -/
theorem disconnect_final {s s' : System} {v : VmId} {cmd : QmpCommand} (h : Reachable s)
    (hLost : Output.returned v cmd (.error .disconnected) ∈ s.shared.log)
    (hRun : qmp.Steps StaysBroken s s') :
    (s'.shared.conn v).answered = (s.shared.conn v).answered ∧
    ∃ later, s'.shared.log = later ++ s.shared.log ∧
      ∀ cmd r, Output.returned v cmd r ∈ later → Unanswered r := by
  have hAll := hRun.invariant (I := fun e => QmpInv e ∧ NoAnswer v e ∧ (e.shared.conn v).Dead ∧
      (e.shared.conn v).answered = (s.shared.conn v).answered ∧
      ∃ later, e.shared.log = later ++ s.shared.log ∧
        ∀ cmd r, Output.returned v cmd r ∈ later → Unanswered r)
    (fun c op d hI hm ha => ?_)
    ⟨h.qmpInv, h.noAnswer ⟨cmd, hLost⟩, h.qmpInv.dead_of_lost ⟨cmd, hLost⟩, rfl, [], rfl,
      fun _ _ hMem => by cases hMem⟩
  · exact hAll.2.2.2
  · obtain ⟨hInv, hNone, hDead, hSame, later, hLog, hLater⟩ := hI
    have hFits := hInv.fits hm
    refine ⟨hInv.move hm ha, hNone.move hDead hm, ?_, ?_, ?_⟩
    · rw [hm.shared_eq]
      exact (Op.Fits.grows hFits v).dead hDead
    · rw [hm.shared_eq]
      exact (answered_exec_dead hDead hFits).trans hSame
    · rw [hm.shared_eq]
      rcases log_exec op c.shared with hKept | ⟨w, cmd', r, rfl, hNew⟩
      · exact ⟨later, hKept.trans hLog, hLater⟩
      · refine ⟨.returned w cmd' r :: later, hNew.trans (congrArg _ hLog), fun cmd'' r' hMem => ?_⟩
        rcases List.mem_cons.mp hMem with heq | hMem
        · cases heq
          rcases move_cases hm with ⟨i, t, t', ht, hStep, -⟩ | ⟨started, hs, -⟩
          · obtain ⟨rfl, -⟩ := hStep.returned
            exact hNone i _ _ ht
          · cases hs
        · exact hLater cmd'' r' hMem

/-- QEMU hangs up while a second command waits. -/
def hangUpRun : List (Label Op Choice) :=
  [.outside (.conn 3 .enter), .task 3 .go, .task 3 (.send ⟨"query-memdev", none⟩),
    .outside (.conn 3 .hangUp), .task 1 .go, .task 1 .go, .task 3 .go, .task 3 .go]

def afterHangUp : System := qmp.after initSystem (capabilitiesRun ++ hangUpRun)

theorem hangUpRun_runs : (qmp.runIf (fun s op => decide (StaysBroken s op)) initSystem
    (capabilitiesRun ++ hangUpRun)).isSome = true := by decide +kernel

/-- A third one is written after it. -/
def thirdRun : List (Label Op Choice) :=
  [.task 3 (.send ⟨"query-memdev", none⟩), .task 3 .go, .task 3 .go]

theorem thirdRun_runs : (qmp.runIf (fun s op => decide (StaysBroken s op)) afterHangUp
    thirdRun).isSome = true := by decide +kernel

theorem disconnect_final_hangUp :
    ((qmp.after afterHangUp thirdRun).shared.conn 3).answered.length = 1 ∧
      ∃ later, (qmp.after afterHangUp thirdRun).shared.log = later ++ afterHangUp.shared.log ∧
        later.length = 1 ∧ ∀ cmd r, Output.returned 3 cmd r ∈ later → Unanswered r := by
  have hReach : Reachable afterHangUp := steps_afterIf hangUpRun_runs
  have hHead : (afterHangUp.shared.log.head?.any fun
      | .returned 3 _ (.error .disconnected) => true
      | _ => false) = true := by decide +kernel
  obtain ⟨o, hO, hLost⟩ := (Option.any_eq_true _ _).mp hHead
  have hMem := List.mem_of_mem_head? hO
  split at hLost
  · obtain ⟨-, later, hLog, hLater⟩ := disconnect_final hReach hMem
      (steps_afterIf thirdRun_runs)
    have hLength : (qmp.after afterHangUp thirdRun).shared.log.length =
        1 + afterHangUp.shared.log.length := by decide +kernel
    rw [hLog, List.length_append] at hLength
    exact ⟨by decide +kernel, later, hLog, by omega, hLater⟩
  · cases hLost

/-- **Events in order.** In every state reached, the events of a VM that the
handler took are the first of those its QEMU wrote, in that order and once
each. While the read thread and the handler run, the others are in the
channel, in the read thread's hand or not read. -/
theorem events_in_order {s : System} (h : Reachable s) (v : VmId) :
    eventsOf v s.shared.handled <+: (s.shared.conn v).emitted ∧
    ((s.shared.conn v).reading = true → s.shared.handling = true →
      ∃ r, .reader r ∈ s.tasks ∧ r.vm = v ∧ r.pc.running = true ∧
        (r.hand Json.isEvent).length ≤ 1 ∧ (s.shared.conn v).emitted =
          eventsOf v s.shared.handled ++ eventsOf v s.shared.events ++
            (r.hand Json.isEvent ++ (s.shared.conn v).unread Json.isEvent)) := by
  have hInv := h.qmpInv
  refine ⟨(List.prefix_append _ _).trans (hInv.conns v).events, fun hReading hHandling => ?_⟩
  obtain ⟨t, ht, hReads⟩ := (hInv.readers v).holder hReading
  obtain ⟨i, hi⟩ := List.getElem?_of_mem ht
  cases t with
  | reader r =>
    obtain ⟨rfl, hRunning⟩ := hReads
    refine ⟨r, ht, rfl, hRunning, ?_, (hInv.sees i _ hi hRunning).events hHandling⟩
    unfold Reader.hand
    split
    · split <;> simp
    · simp
  | caller c => exact absurd hReads id
  | handler => exact absurd hReads id

/-- After the first event was handled, QEMU writes two more; the read thread
has one of them in its hand. -/
def eventsRun : List (Label Op Choice) :=
  capabilitiesRun ++ [.outside (.conn 3 (.emit (.obj [("event", .num 1)]))),
    .outside (.conn 3 (.emit (.obj [("event", .num 2)]))), .task 1 .go]

theorem eventsRun_runs :
    (qmp.runIf (fun s op => decide (StaysBroken s op)) initSystem eventsRun).isSome = true := by
  decide +kernel

theorem events_in_order_hand :
    (qmp.after initSystem eventsRun).shared.handled.length = 1 ∧
    ((qmp.after initSystem eventsRun).shared.conn 3).emitted.length = 3 ∧
    eventsOf 3 (qmp.after initSystem eventsRun).shared.handled <+:
      ((qmp.after initSystem eventsRun).shared.conn 3).emitted ∧
    ∃ r, .reader r ∈ (qmp.after initSystem eventsRun).tasks ∧
      ((qmp.after initSystem eventsRun).shared.conn 3).emitted =
        eventsOf 3 (qmp.after initSystem eventsRun).shared.handled ++
          eventsOf 3 (qmp.after initSystem eventsRun).shared.events ++
          (r.hand Json.isEvent ++
            ((qmp.after initSystem eventsRun).shared.conn 3).unread Json.isEvent) := by
  obtain ⟨hPrefix, hFlow⟩ := events_in_order (steps_afterIf eventsRun_runs) 3
  obtain ⟨r, hr, -, -, -, hEq⟩ := hFlow (by decide +kernel) (by decide +kernel)
  exact ⟨by decide +kernel, by decide +kernel, hPrefix, r, hr, hEq⟩

end EphMemory.Qmp
