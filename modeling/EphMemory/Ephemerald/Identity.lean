import EphMemory.Ephemerald.Requests

/-!
# Ephemerald — connection identity

Two connections of one process share a PID, and a connection's reader thread
outlives its client's place in the client list. The close handler compares
connection ids. `msg_handler` does not: it looks the client up by PID, so a
line that was buffered when the connection was replaced is charged to the
newer one.

* `AtHome` — a request's lookup finds the connection it was read on, or none;
* `HomeInv` — with that, a reader works for its own connection only;
* `connection_identity` — the close handler removes its own client in every
  run, requests stay on their connection in the runs at home.
-/

namespace EphMemory.Ephemerald

open EphMemory.Lib

-- ---------------------------------------------------------------------------
-- Requests at home
-- ---------------------------------------------------------------------------

/-- The client list has, for the PID of a request, the connection the request
was read on, or no client. -/
def AtHome (s : System) : Op → Prop
  | .lookup readOn pid =>
    s.shared.clients.get? pid = some readOn ∨ s.shared.clients.get? pid = none
  | _ => True

instance (s : System) (op : Op) : Decidable (AtHome s op) := by
  induction op using Op.casesOn <;> dsimp only [AtHome] <;> infer_instance

/-- A reader between its lookup and the record works for its own connection. -/
def Task.Home : Task → Prop
  | .reader ⟨k, _, _, .takeId k' _⟩ => k' = k
  | .reader ⟨k, _, _, .handle k' _ _⟩ => k' = k
  | _ => True

structure HomeInv (s : System) : Prop where
  tasks : ∀ t ∈ s.tasks, t.Home
  recorded : ∀ readOn line k id n,
    Output.recorded readOn line k id n ∈ s.shared.log → k = readOn

/-- A thread that finds its own connection, or none, goes on with its own. -/
theorem Task.Step.home {s : System} {t t' : Task} {op : Op} {started : List Task}
    (h : Task.Step s.shared t op t' started) (ht : t.Home) (ha : AtHome s op) :
    t'.Home ∧ ∀ u ∈ started, u.Home := by
  cases h with
  | listener hl =>
    refine ⟨trivial, fun u hu => ?_⟩
    obtain ⟨r, hr, rfl⟩ := List.mem_map.mp hu
    cases hl with
    | register =>
      rw [List.mem_singleton.mp hr]
      trivial
    | _ => cases hr
  | upstream _ => exact ⟨trivial, nofun⟩
  | reader hr =>
    refine ⟨?_, nofun⟩
    cases hr with
    | found hk =>
      rcases ha with hSelf | hNone
      · exact Option.some.inj (hk.symm.trans hSelf)
      · rw [hNone] at hk
        cases hk
    | takeId => exact ht
    | _ => trivial

/-- Requests are recorded and answered at home, whoever moves. -/
theorem HomeInv.move {s s' : System} {op : Op} (h : HomeInv s) (hm : daemon.Move s op s')
    (ha : AtHome s op) : HomeInv s' := by
  refine ⟨?_, fun readOn line k id n hr => ?_⟩
  · exact forall_tasks (J := fun _ t => t.Home) hm h.tasks
      (fun t t' started ht hs => hs.home (h.tasks t ht) ha) (fun u _ hu => hu)
  · obtain ⟨i, t, t', started, ht, hs, hShared, -⟩ := move_cases hm
    rw [hShared] at hr
    rcases mem_log_exec hr with hEmit | hOld
    · cases hEmit
      cases hs with
      | listener hl => cases hl
      | upstream hu => cases hu
      | reader hr =>
        have hHome := h.tasks _ (List.mem_of_getElem? ht)
        cases hr <;> exact hHome
    · exact h.recorded readOn line k id n hOld

theorem homeInv_init : HomeInv initSystem := by
  refine ⟨fun t ht => ?_, nofun⟩
  rcases List.mem_cons.mp ht with rfl | ht
  · trivial
  · rw [List.mem_singleton.mp ht]
    trivial

/-- In every state of such a run requests are at home. -/
theorem homeInv_of_reachable {s : System} (h : ReachableBy AtHome s) : HomeInv s :=
  h.invariant (I := HomeInv) (fun _ _ _ hI hm ha => hI.move hm ha) homeInv_init

-- ---------------------------------------------------------------------------
-- Closing and answering
-- ---------------------------------------------------------------------------

/-- The close handler of a connection takes out of the list no client but the
connection's own. -/
theorem close_removes_own {s s' : System} {conn : ConnId} {pid : Pid}
    (hm : daemon.Move s (.close conn pid) s') {pid' : Pid} {k : ConnId}
    (hk : s.shared.clients.get? pid' = some k) (hGone : s'.shared.clients.get? pid' ≠ some k) :
    k = conn := by
  have hShared : s'.shared = (Op.close conn pid).exec s.shared := hm.shared_eq
  rw [hShared] at hGone
  rcases clients_exec (.close conn pid) s.shared with
    ⟨_, heq, -⟩ | ⟨k', p, heq, hp, hEq⟩ | ⟨-, hEq⟩
  · cases heq
  · cases heq
    rw [hEq, OrdMap.get?_erase] at hGone
    by_cases hpid : pid' = pid
    · subst hpid
      exact Option.some.inj (hk.symm.trans hp)
    · rw [if_neg hpid] at hGone
      exact absurd hk hGone
  · rw [hEq] at hGone
    exact absurd hk hGone

/-- A request is answered on the connection it was recorded for. -/
theorem replied_on_recorded {s : System} (h : RequestInv s) {readOn k k' : ConnId}
    {line id n size : Nat} {ok : Bool}
    (hRec : Output.recorded readOn line k id n ∈ s.shared.log)
    (hRep : Output.replied k' id size ok ∈ s.shared.log) : k' = k := by
  obtain ⟨l, hFin⟩ := h.record.replied k' id size ok hRep
  obtain ⟨_, _, _, hRec', -⟩ := (h.record.finished k' id size l hFin).recorded
  exact (recorded_unique h.ids hRec' hRec).2.2.1

/-- **Connection identity.** In every state reached, the close handler of a
connection removes only that connection's client from the list; and if every
request's lookup so far found the connection it was read on or no client, then
every request on record is its own connection's and was answered there. -/
theorem connection_identity {s : System} (h : Reachable s) :
    (∀ s' conn pid, daemon.Move s (.close conn pid) s' → ∀ pid' k,
      s.shared.clients.get? pid' = some k → s'.shared.clients.get? pid' ≠ some k → k = conn) ∧
    (ReachableBy AtHome s → ∀ readOn line k id n,
      Output.recorded readOn line k id n ∈ s.shared.log →
        k = readOn ∧ ∀ k' size ok, Output.replied k' id size ok ∈ s.shared.log → k' = readOn) := by
  refine ⟨fun s' conn pid hm pid' k hk hGone => close_removes_own hm hk hGone,
    fun hHome readOn line k id n hRec => ?_⟩
  have hk := (homeInv_of_reachable hHome).recorded readOn line k id n hRec
  refine ⟨hk, fun k' size ok hRep => ?_⟩
  rw [replied_on_recorded (requestInv_of_reachable h) hRec hRep, hk]

/-- Connection 2 makes a request and is then replaced by connection 3, which
makes one while connection 2 is closing. -/
def homeRun : List (Label Op Choice) :=
  connect ++ askAndAnswer 2 0 0 ++ connect ++ [.task 2 .hangUp] ++ askAndAnswer 3 1 granularity

theorem homeRun_atHome : (daemon.runIf (fun s op => decide (AtHome s op)) initSystem
    homeRun).isSome = true := by decide +kernel

theorem connection_identity_replaced :
    (daemonAfter homeRun).shared.clients.get? 5 = some 3 ∧
    Task.reader ⟨2, 5, 1, .closing⟩ ∈ (daemonAfter homeRun).tasks ∧
    (∀ s', daemon.Move (daemonAfter homeRun) (.close 2 5) s' →
      s'.shared.clients.get? 5 = some 3) ∧
    Output.replied 2 0 granularity true ∈ (daemonAfter homeRun).shared.log ∧
    Output.replied 3 1 granularity true ∈ (daemonAfter homeRun).shared.log ∧
    (∀ k' size ok, Output.replied k' 0 size ok ∈ (daemonAfter homeRun).shared.log → k' = 2) ∧
    ∀ k' size ok, Output.replied k' 1 size ok ∈ (daemonAfter homeRun).shared.log → k' = 3 := by
  have hListed : (daemonAfter homeRun).shared.clients.get? 5 = some 3 := by decide +kernel
  have hRec : Output.recorded 2 1 2 0 granularity ∈ (daemonAfter homeRun).shared.log := by
    decide +kernel
  have hRec' : Output.recorded 3 1 3 1 granularity ∈ (daemonAfter homeRun).shared.log := by
    decide +kernel
  have hHome := reachableBy_daemonAfter homeRun_atHome
  have hAll := connection_identity (s := daemonAfter homeRun) (hHome.mono fun _ _ _ => trivial)
  refine ⟨hListed, by decide +kernel, fun s' hm => ?_, by decide +kernel, by decide +kernel,
    (hAll.2 hHome 2 1 2 0 granularity hRec).2, (hAll.2 hHome 3 1 3 1 granularity hRec').2⟩
  by_contra hGone
  cases hAll.1 s' 2 5 hm 5 3 hListed hGone

/-- Connection 2 of PID 5 reads a request; before it looks its client up,
connection 3 of the same PID is registered. -/
def replacedRun : List (Label Op Choice) :=
  [.task 0 (.accept 5), .task 0 (.outcome true),
    .task 2 (.line (some (.new .ephMemRequest (some granularity) none))),
    .task 0 (.accept 5), .task 0 (.outcome true),
    .task 2 .go, .task 2 .go, .task 2 .go]

/-- The request read on connection 2 is recorded as the pending request of
connection 3. -/
theorem request_moves_to_newer_connection :
    Reachable (daemonAfter replacedRun) ∧
      Output.recorded 2 1 3 0 granularity ∈ (daemonAfter replacedRun).shared.log ∧
      ((daemonAfter replacedRun).shared.client 3).pendingRequest = some ⟨0, granularity, 0, []⟩ := by
  refine ⟨reachable_daemonAfter (by decide +kernel), by decide +kernel, by decide +kernel⟩

end EphMemory.Ephemerald
