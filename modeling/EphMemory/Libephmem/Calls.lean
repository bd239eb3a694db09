import EphMemory.Ephemerald.Identity
import EphMemory.Libephmem.Reserve

/-!
# Libephmem — calls and replies

A process calls `libephmem_reserve` again and again over its one connection to
the daemon. Replies carry no id: a call takes the first reply it finds after it
sent its line, and relies on having drained the earlier ones before.

* `Lib` — the process: the lines it sent, how far it has read the replies, where
  in a call it is, what its calls returned;
* `Joint` — the process and the daemon, with the socket between them: the
  daemon's reader of the connection reads the lines that were sent, in order,
  and the process reads the replies written to the connection, in order;
* `Action` — what happens next, in either.

The calls hold a mutex from the drain to the reply, so there is one at a time.
A `recv` may get more than one reply; all but the first are lost.
-/

namespace EphMemory.Libephmem

open EphMemory.Lib EphMemory.Ephemerald

/-- Where in `libephmem_reserve` the process is. -/
inductive LibPc where
  | idle
  | draining (aligned : Nat)
  | sending (aligned : Nat)
  | waiting (aligned : Nat)
  deriving DecidableEq, Repr

/-- What a call returned, for which aligned amount, and the number of the line
it sent, if it did. -/
structure Returned where
  line : Option Nat
  aligned : Nat
  value : Nat
  deriving DecidableEq, Repr

structure Lib where
  /-- The amounts of the lines sent, oldest first. -/
  sent : List Nat
  /-- How many replies were taken off the socket. -/
  taken : Nat
  pc : LibPc
  results : List Returned
  deriving DecidableEq, Repr

structure Joint where
  daemon : System
  lib : Lib

inductive Action where
  | daemon (l : Label Op Choice)
  | call (amount : BitVec 64)
  | drain (ok : Bool)
  | send (ok : Bool)
  /-- The reply is there; `extra` more come with it. -/
  | recv (extra : Nat)
  | giveUp

-- ---------------------------------------------------------------------------
-- The socket
-- ---------------------------------------------------------------------------

/-- The line a call sends. -/
def request (aligned : Nat) : ConsumerCommand := .new .ephMemRequest (some aligned) none

/-- The replies written to a connection, oldest first: the id of the request and
the size, of which the line has only the size. -/
def repliesTo (k : ConnId) : List Output → List (Nat × Nat)
  | [] => []
  | .replied k' id size true :: log =>
    if k' = k then repliesTo k log ++ [(id, size)] else repliesTo k log
  | _ :: log => repliesTo k log

/-- The replies the process has not taken yet. -/
def Joint.unread (k : ConnId) (j : Joint) : List (Nat × Nat) :=
  (repliesTo k j.daemon.shared.log).drop j.lib.taken

/-- What the process can read was written to it. -/
theorem replied_of_mem {k : ConnId} {log : List Output} {id size : Nat}
    (h : (id, size) ∈ repliesTo k log) : Output.replied k id size true ∈ log := by
  induction log with
  | nil => cases h
  | cons o rest ih =>
    have hTail : (id, size) ∈ repliesTo k rest → Output.replied k id size true ∈ o :: rest :=
      fun hr => List.mem_cons_of_mem _ (ih hr)
    match o, h with
    | .replied k' id' size' true, h =>
      simp only [repliesTo] at h
      split at h
      · rename_i hk
        rcases List.mem_append.mp h with h | h
        · exact hTail h
        · cases List.mem_singleton.mp h
          rw [hk]
          exact List.mem_cons_self ..
      · exact hTail h
    | .replied _ _ _ false, h => exact hTail h
    | .recorded _ _ _ _ _, h => exact hTail h
    | .received _, h => exact hTail h
    | .counted _ _ _, h => exact hTail h
    | .finished _ _ _ _, h => exact hTail h
    | .removed _ _, h => exact hTail h

/-- The daemon's reader of the connection reads what was sent. -/
def feeds (k : ConnId) (j : Joint) : Label Op Choice → Bool
  | .task i (.line cmd) =>
    match j.daemon.tasks[i]? with
    | some (.reader r) =>
      decide (r.conn ≠ k ∨ (j.lib.sent[r.lines]?.isSome ∧
        cmd = j.lib.sent[r.lines]?.map request))
    | _ => true
  | _ => true

-- ---------------------------------------------------------------------------
-- The process
-- ---------------------------------------------------------------------------

/-- Replies are taken off the socket. -/
def Lib.take (lib : Lib) (n : Nat) : Lib := { lib with taken := lib.taken + n }

/-- A call ends. -/
def Lib.finish (lib : Lib) (r : Returned) : Lib :=
  { lib with pc := .idle, results := r :: lib.results }

/-- The call takes the reply, and what came with it. -/
def Lib.receive (lib : Lib) (aligned size count : Nat) : Lib :=
  (lib.take count).finish ⟨some lib.sent.length, aligned, reservedSize aligned size⟩

/-- `libephmem_reserve` up to the mutex. -/
def Lib.call (lib : Lib) (amount : BitVec 64) : Lib :=
  if amount = 0 then lib.finish ⟨none, 0, 0⟩
  else
    match alignAmount amount with
    | none => lib.finish ⟨none, 0, 0⟩
    | some aligned => { lib with pc := .draining aligned.toNat }

def Joint.fire (k : ConnId) (j : Joint) : Action → Option Joint
  | .daemon l =>
    if feeds k j l then (Ephemerald.daemon.fire j.daemon l).map fun d => { j with daemon := d } else none
  | .call amount =>
    match j.lib.pc with
    | .idle => some { j with lib := j.lib.call amount }
    | _ => none
  | .drain ok =>
    match j.lib.pc with
    | .draining aligned =>
      if ok then
        some { j with lib := { j.lib.take (j.unread k).length with pc := .sending aligned } }
      else some { j with lib := j.lib.finish ⟨none, aligned, 0⟩ }
    | _ => none
  | .send ok =>
    match j.lib.pc with
    | .sending aligned =>
      if ok then
        some { j with lib := { j.lib with
          sent := j.lib.sent ++ [aligned], pc := .waiting aligned } }
      else some { j with lib := j.lib.finish ⟨none, aligned, 0⟩ }
    | _ => none
  | .recv extra =>
    match j.lib.pc with
    | .waiting aligned =>
      match j.unread k with
      | [] => none
      | (_, size) :: rest =>
        some { j with lib := j.lib.receive aligned size (1 + min extra rest.length) }
    | _ => none
  | .giveUp =>
    match j.lib.pc with
    | .waiting aligned => some { j with lib := j.lib.finish ⟨some j.lib.sent.length, aligned, 0⟩ }
    | _ => none

/-- The process and the daemon as a machine without tasks of its own. -/
def joint (k : ConnId) : Machine Joint Empty Action Empty where
  next := fun _ _ _ _ => none
  exec := fun a j => (j.fire k a).getD j
  outside := fun j a => if (j.fire k a).isSome then some [] else none

/-- Before the first call. -/
def initJoint : Config Joint Empty := ⟨⟨Ephemerald.initSystem, ⟨[], 0, .idle, []⟩⟩, []⟩

def CallsBy (k : ConnId) (allow : Joint → Action → Prop) (j : Joint) : Prop :=
  ∃ c, (joint k).Steps (fun c a => allow c.shared a) initJoint c ∧ c.shared = j

/-- A move of the joint machine is an action. -/
theorem fire_of_move {k : ConnId} {c d : Config Joint Empty} {a : Action}
    (h : (joint k).Move c a d) : c.shared.fire k a = some d.shared := by
  cases h with
  | task ht hn => cases hn
  | outside hs =>
    have hSome : (c.shared.fire k a).isSome = true := by
      by_contra hNot
      simp only [joint, if_neg hNot] at hs
      cases hs
    obtain ⟨j, hj⟩ := Option.isSome_iff_exists.mp hSome
    show _ = some ((c.shared.fire k a).getD c.shared)
    rw [hj]
    rfl

/-- What every allowed action keeps holds of every state reached. -/
theorem CallsBy.invariant {k : ConnId} {allow : Joint → Action → Prop} {I : Joint → Prop}
    (hFire : ∀ j a j', I j → j.fire k a = some j' → allow j a → I j')
    (hInit : I initJoint.shared) {j : Joint} (h : CallsBy k allow j) : I j := by
  obtain ⟨c, hSteps, rfl⟩ := h
  exact hSteps.invariant (I := fun c => I c.shared)
    (fun c a d hI hm ha => hFire _ a _ hI (fire_of_move hm) ha) hInit

-- ---------------------------------------------------------------------------
-- Actions
-- ---------------------------------------------------------------------------

/-- What the process can do. -/
inductive Lib.Step (unread : List (Nat × Nat)) (lib : Lib) : Action → Lib → Prop
  | refuse {amount : BitVec 64} : lib.pc = .idle →
      Step unread lib (.call amount) (lib.finish ⟨none, 0, 0⟩)
  | call {amount aligned : BitVec 64} : lib.pc = .idle → alignAmount amount = some aligned →
      Step unread lib (.call amount) { lib with pc := .draining aligned.toNat }
  | drain {aligned : Nat} : lib.pc = .draining aligned →
      Step unread lib (.drain true) { lib.take unread.length with pc := .sending aligned }
  | drainFailed {aligned : Nat} : lib.pc = .draining aligned →
      Step unread lib (.drain false) (lib.finish ⟨none, aligned, 0⟩)
  | send {aligned : Nat} : lib.pc = .sending aligned →
      Step unread lib (.send true)
        { lib with sent := lib.sent ++ [aligned], pc := .waiting aligned }
  | sendFailed {aligned : Nat} : lib.pc = .sending aligned →
      Step unread lib (.send false) (lib.finish ⟨none, aligned, 0⟩)
  | recv {aligned id size extra : Nat} {rest : List (Nat × Nat)} :
      lib.pc = .waiting aligned → unread = (id, size) :: rest →
      Step unread lib (.recv extra) (lib.receive aligned size (1 + min extra rest.length))
  | giveUp {aligned : Nat} : lib.pc = .waiting aligned →
      Step unread lib .giveUp (lib.finish ⟨some lib.sent.length, aligned, 0⟩)

/-- An action is the daemon's or the process's. -/
theorem fire_cases {k : ConnId} {j j' : Joint} {a : Action} (h : j.fire k a = some j') :
    (∃ l, a = .daemon l ∧ feeds k j l = true ∧ daemon.fire j.daemon l = some j'.daemon ∧
      j'.lib = j.lib) ∨
    (j'.daemon = j.daemon ∧ Lib.Step (j.unread k) j.lib a j'.lib) := by
  cases a with
  | daemon l =>
    simp only [Joint.fire] at h
    split at h
    · rename_i hFeeds
      obtain ⟨d, hd, rfl⟩ := Option.map_eq_some_iff.mp h
      exact Or.inl ⟨l, rfl, hFeeds, hd, rfl⟩
    · cases h
  | call amount =>
    simp only [Joint.fire] at h
    split at h
    · rename_i hpc
      cases h
      refine Or.inr ⟨rfl, ?_⟩
      show Lib.Step _ _ _ (j.lib.call amount)
      unfold Lib.call
      split
      · exact .refuse hpc
      · split
        · exact .refuse hpc
        · exact .call hpc ‹_›
    · cases h
  | drain ok =>
    simp only [Joint.fire] at h
    split at h
    · rename_i hpc
      split at h
      · rename_i hok
        cases h
        subst hok
        exact Or.inr ⟨rfl, .drain hpc⟩
      · rename_i hok
        rw [Bool.not_eq_true] at hok
        cases h
        subst hok
        exact Or.inr ⟨rfl, .drainFailed hpc⟩
    · cases h
  | send ok =>
    simp only [Joint.fire] at h
    split at h
    · rename_i hpc
      split at h
      · rename_i hok
        cases h
        subst hok
        exact Or.inr ⟨rfl, .send hpc⟩
      · rename_i hok
        rw [Bool.not_eq_true] at hok
        cases h
        subst hok
        exact Or.inr ⟨rfl, .sendFailed hpc⟩
    · cases h
  | recv extra =>
    simp only [Joint.fire] at h
    split at h
    · rename_i hpc
      split at h
      · cases h
      · rename_i hUnread
        cases h
        exact Or.inr ⟨rfl, .recv hpc hUnread⟩
    · cases h
  | giveUp =>
    simp only [Joint.fire] at h
    split at h
    · rename_i hpc
      cases h
      exact Or.inr ⟨rfl, .giveUp hpc⟩
    · cases h

/-- A labelled move of the daemon. -/
theorem daemon_fire {s s' : System} {l : Label Op Choice} (h : daemon.fire s l = some s') :
    ∃ i ch t op t' started, l = .task i ch ∧ s.tasks[i]? = some t ∧
      t.next s.shared ch = some (op, t', started) ∧ daemon.opOf s l = some op ∧
      s' = ⟨op.exec s.shared, s.tasks.set i t' ++ started⟩ := by
  cases l with
  | outside op => cases h
  | task i ch =>
    simp only [Machine.fire] at h
    split at h
    · cases h
    · rename_i t ht
      split at h
      · cases h
      · rename_i op t' started hn
        cases h
        refine ⟨i, ch, t, op, t', started, rfl, ht, hn, ?_, rfl⟩
        simp only [Machine.opOf, ht, hn, Option.map_some]

/-- The daemon's part of a run is a run of the daemon. -/
theorem CallsBy.daemon_reachable {k : ConnId} {allow : Joint → Action → Prop}
    {allow' : System → Op → Prop} {j : Joint} (h : CallsBy k allow j)
    (hAllow : ∀ j l op, allow j (.daemon l) → Ephemerald.daemon.opOf j.daemon l = some op →
      allow' j.daemon op) : ReachableBy allow' j.daemon := by
  refine h.invariant (I := fun j => ReachableBy allow' j.daemon) (fun j a j' hI hFire ha => ?_)
    .refl
  rcases fire_cases hFire with ⟨l, rfl, -, hd, -⟩ | ⟨hDaemon, -⟩
  · obtain ⟨_, _, _, op, _, _, -, -, -, hop, -⟩ := daemon_fire hd
    exact .tail hI (Machine.move_of_opOf hop hd) (hAllow j l op ha hop)
  · rw [hDaemon]
    exact hI

-- ---------------------------------------------------------------------------
-- Concrete calls
-- ---------------------------------------------------------------------------

/-- Where a sequence of actions leads. -/
def callsAfter (k : ConnId) (as : List Action) : Joint :=
  ((joint k).after initJoint (as.map .outside)).shared

/-- A list of actions that can be taken, each allowed, is a run. -/
theorem callsBy_callsAfter {k : ConnId} {allow : Joint → Action → Prop}
    [∀ j a, Decidable (allow j a)] {as : List Action}
    (h : ((joint k).runIf (fun c a => decide (allow c.shared a)) initJoint
      (as.map .outside)).isSome = true) : CallsBy k allow (callsAfter k as) := by
  have hSteps : (joint k).Steps (fun c a => allow c.shared a) initJoint
      ((joint k).after initJoint (as.map .outside)) := Machine.steps_afterIf h
  exact ⟨_, hSteps, rfl⟩

end EphMemory.Libephmem
