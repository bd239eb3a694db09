import EphMemory.Libephmem.Calls

/-!
# Libephmem — a call reports its own grant

While nothing of an earlier call is outstanding when a line is sent, all that
happens on the connection until the next line is about this one. A call that
times out breaks this: its request is still pending in the daemon when the
next call has drained the socket, that call's request is refused without a
word, and the late reply to the first is taken for its answer.

* `Quiet` — nothing of an earlier call is outstanding;
* `Unhurried` — lines are sent when it is quiet, and requests stay at home;
* `CallInv` — then everything on the connection is about the last line;
* `own_grant` — and every call returns 0 or what its own request was granted.
-/

namespace EphMemory.Libephmem

open EphMemory.Lib EphMemory.Ephemerald

-- ---------------------------------------------------------------------------
-- Quiet moments
-- ---------------------------------------------------------------------------

/-- The reader has read `n` lines and is done with them, or reads no more. -/
def AtRest (n : Nat) (r : Reader) : Prop :=
  (r.pc = .reading ∧ r.lines = n) ∨ r.pc = .closing ∨ r.pc = .closed

/-- The thread is no reader of the connection that has something to do, and is
not about to write a reply to it. -/
def Rests (k : ConnId) (n : Nat) : Task → Prop
  | .reader ⟨conn, pid, lines, .reply k' id size⟩ =>
    k' ≠ k ∧ (conn = k → AtRest n ⟨conn, pid, lines, .reply k' id size⟩)
  | .reader r => r.conn = k → AtRest n r
  | .upstream (.reply k' _ _) => k' ≠ k
  | _ => True

/-- Nothing of an earlier call is outstanding: its lines were read and handled,
no request is pending, no reply is about to be written or waits to be read. -/
structure Quiet (k : ConnId) (j : Joint) : Prop where
  connected : j.lib.sent = [] ∨ k < j.daemon.shared.nextConn
  rests : ∀ t ∈ j.daemon.tasks, Rests k j.lib.sent.length t
  idle : (j.daemon.shared.client k).pendingRequest = none
  read : j.unread k = []

/-- A line is sent at a quiet moment, and every lookup of the daemon finds the
connection a request was read on, or none. -/
def Unhurried (k : ConnId) (j : Joint) : Action → Prop
  | .daemon l => ∀ op ∈ daemon.opOf j.daemon l, AtHome j.daemon op
  | .send true => Quiet k j
  | _ => True

instance (n : Nat) (r : Reader) : Decidable (AtRest n r) := by
  unfold AtRest
  infer_instance

instance (k : ConnId) (n : Nat) (t : Task) : Decidable (Rests k n t) := by
  unfold Rests
  split <;> infer_instance

instance (k : ConnId) (j : Joint) : Decidable (Quiet k j) :=
  decidable_of_iff ((j.lib.sent = [] ∨ k < j.daemon.shared.nextConn) ∧
    (∀ t ∈ j.daemon.tasks, Rests k j.lib.sent.length t) ∧
    (j.daemon.shared.client k).pendingRequest = none ∧ j.unread k = [])
    ⟨fun h => ⟨h.1, h.2.1, h.2.2.1, h.2.2.2⟩, fun h => ⟨h.1, h.2, h.3, h.4⟩⟩

instance (k : ConnId) (j : Joint) (a : Action) : Decidable (Unhurried k j a) := by
  unfold Unhurried
  split <;> infer_instance

/-- A reader of the process's connection is at rest. -/
theorem Rests.reader {k : ConnId} {n : Nat} {r : Reader} (h : Rests k n (.reader r))
    (hk : r.conn = k) : AtRest n r := by
  obtain ⟨conn, pid, lines, pc⟩ := r
  cases pc with
  | reply k' id size => exact h.2 hk
  | _ => exact h hk

/-- A thread at rest is about to answer nobody. -/
theorem Rests.not_answers {k : ConnId} {n : Nat} {t : Task} (h : Rests k n t) (id size : Nat) :
    ¬ t.answers k id size := by
  intro ha
  match t, h, ha with
  | .reader ⟨_, _, _, .reply _ _ _⟩, h, ha => exact h.1 ha.1
  | .upstream (.reply _ _ _), h, ha => exact h ha.1

-- ---------------------------------------------------------------------------
-- The connection is about the last line
-- ---------------------------------------------------------------------------

/-- The request is the one of the last line sent. -/
def Joint.Current (k : ConnId) (j : Joint) (id : Nat) : Prop :=
  ∃ n, Output.recorded k j.lib.sent.length k id n ∈ j.daemon.shared.log

/-- The reader handles a line. -/
def Busy (r : Reader) : Prop := r.pc ≠ .reading ∧ r.pc ≠ .closing ∧ r.pc ≠ .closed

/-- With `n` lines sent, the reader has read all of them or all but the last,
and handles none but the last; or it reads no more. -/
def Tracks (n : Nat) (r : Reader) : Prop :=
  r.pc = .closing ∨ r.pc = .closed ∨
    (r.lines ≤ n ∧ n ≤ r.lines + 1 ∧ (Busy r → r.lines = n))

/-- A reader that is busy has read all lines. -/
theorem Tracks.lines_eq {n : Nat} {r : Reader} (h : Tracks n r) (hBusy : Busy r) :
    r.lines = n := by
  rcases h with hpc | hpc | ⟨-, -, hLines⟩
  · exact absurd hpc hBusy.2.1
  · exact absurd hpc hBusy.2.2
  · exact hLines hBusy

/-- The value is 0 or what the call's own request was granted. -/
def Returned.Own (k : ConnId) (j : Joint) (r : Returned) : Prop :=
  r.value = 0 ∨ ∃ line id n size, r.line = some line ∧
    Output.recorded k line k id n ∈ j.daemon.shared.log ∧
    Output.replied k id size true ∈ j.daemon.shared.log ∧ r.value = min r.aligned size

structure CallInv (k : ConnId) (j : Joint) : Prop where
  request : RequestInv j.daemon
  home : HomeInv j.daemon
  readers : ∀ r, .reader r ∈ j.daemon.tasks → r.conn = k → Tracks j.lib.sent.length r
  connected : j.daemon.shared.nextConn ≤ k → j.lib.sent.length ≤ 1
  pending : ∀ id, j.daemon.shared.Pending k id → j.Current k id
  answers : ∀ t ∈ j.daemon.tasks, ∀ id size, t.answers k id size → j.Current k id
  unread : ∀ a ∈ j.unread k, j.Current k a.1
  results : ∀ r ∈ j.lib.results, r.Own k j

-- ---------------------------------------------------------------------------
-- The daemon's moves
-- ---------------------------------------------------------------------------

theorem repliesTo_append {k : ConnId} {outs log : List Output}
    (h : ∀ o ∈ outs, ∀ id size, o ≠ .replied k id size true) :
    repliesTo k (outs ++ log) = repliesTo k log := by
  induction outs with
  | nil => rfl
  | cons o rest ih =>
    have hRest := ih fun o' ho' => h o' (List.mem_cons_of_mem _ ho')
    have ho := h o (List.mem_cons_self ..)
    match o, ho with
    | .replied k' id size true, ho =>
      show (if k' = k then _ else _) = _
      rw [if_neg (fun heq => ho id size (by rw [heq]))]
      exact hRest
    | .replied _ _ _ false, _ => exact hRest
    | .recorded _ _ _ _ _, _ => exact hRest
    | .received _, _ => exact hRest
    | .counted _ _ _, _ => exact hRest
    | .finished _ _ _ _, _ => exact hRest
    | .removed _ _, _ => exact hRest

/-- Only a reply that could be written reaches the socket. -/
theorem repliesTo_exec (k : ConnId) (op : Op) (s : Shared) :
    (∃ id size, op = .reply k id size true ∧
      repliesTo k (op.exec s).log = repliesTo k s.log ++ [(id, size)]) ∨
    repliesTo k (op.exec s).log = repliesTo k s.log := by
  by_cases hOp : ∃ id size, op = .reply k id size true
  · obtain ⟨id, size, rfl⟩ := hOp
    refine Or.inl ⟨id, size, rfl, ?_⟩
    show (if k = k then _ else _) = _
    rw [if_pos rfl]
    rfl
  · rw [log_exec]
    refine Or.inr (repliesTo_append fun o ho id size heq => ?_)
    subst heq
    cases emits_of_mem ho
    exact hOp ⟨id, size, rfl⟩

/-- A reader reads a line, goes on with the one it has, or stops. -/
theorem reader_next {s : Shared} {r r' : Reader} {ch : Choice} {op : Op}
    (h : r.next s ch = some (op, r')) :
    r'.conn = r.conn ∧
      ((r.pc = .reading ∧ r'.lines = r.lines + 1 ∧ ∃ cmd, ch = .line cmd) ∨
        (r'.lines = r.lines ∧ Busy r) ∨ r'.pc = .closing ∨ r'.pc = .closed) := by
  obtain ⟨k, pid, n, pc⟩ := r
  have hs := Reader.step_of_next h
  cases hs with
  | ignored =>
    refine ⟨rfl, Or.inl ⟨rfl, rfl, ?_⟩⟩
    cases ch with
    | line cmd => exact ⟨cmd, rfl⟩
    | _ => cases h
  | request _ =>
    refine ⟨rfl, Or.inl ⟨rfl, rfl, ?_⟩⟩
    cases ch with
    | line cmd => exact ⟨cmd, rfl⟩
    | _ => cases h
  | hungUp => exact ⟨rfl, Or.inr (Or.inr (Or.inl rfl))⟩
  | close => exact ⟨rfl, Or.inr (Or.inr (Or.inr rfl))⟩
  | _ => exact ⟨rfl, Or.inr (Or.inl ⟨rfl, nofun, nofun, nofun⟩)⟩

/-- What the daemon records at the client of the connection, the connection's
reader read. -/
theorem CallInv.record_current {k : ConnId} {j : Joint} (h : CallInv k j) {t t' : Task}
    {started : List Task} {readOn : ConnId} {line id n : Nat} (ht : t ∈ j.daemon.tasks)
    (hs : Task.Step j.daemon.shared t (.record readOn line k id n) t' started) :
    readOn = k ∧ line = j.lib.sent.length := by
  have hHome := h.home.tasks t ht
  cases hs with
  | listener hl => cases hl
  | upstream hu => cases hu
  | reader hr =>
    cases hr with
    | record _ _ _ =>
      cases (show k = readOn from hHome)
      exact ⟨rfl, (h.readers _ ht rfl).lines_eq ⟨nofun, nofun, nofun⟩⟩
    | refuse _ =>
      cases (show k = readOn from hHome)
      exact ⟨rfl, (h.readers _ ht rfl).lines_eq ⟨nofun, nofun, nofun⟩⟩

/-- The readers of the connection after a move of the daemon. -/
theorem CallInv.readers_move {k : ConnId} {j : Joint} (h : CallInv k j) {i : Nat} {ch : Choice}
    {t t' : Task} {op : Op} {started : List Task} (ht : j.daemon.tasks[i]? = some t)
    (hn : t.next j.daemon.shared ch = some (op, t', started))
    (hFeeds : feeds k j (.task i ch) = true) (r : Reader)
    (hr : .reader r ∈ j.daemon.tasks.set i t' ++ started) (hk : r.conn = k) :
    Tracks j.lib.sent.length r := by
  rcases List.mem_append.mp hr with hOld | hNew
  · rcases List.mem_or_eq_of_mem_set hOld with hOld | rfl
    · exact h.readers r hOld hk
    · -- the reader that moved
      cases t with
      | listener l =>
        obtain ⟨_, -, heq⟩ := Option.map_eq_some_iff.mp hn
        cases heq
      | upstream u =>
        obtain ⟨_, -, heq⟩ := Option.map_eq_some_iff.mp hn
        cases heq
      | reader q =>
        obtain ⟨_, hNext, heq⟩ := Option.map_eq_some_iff.mp hn
        cases heq
        obtain ⟨hConn, hLines⟩ := reader_next hNext
        have hTracks := h.readers q (List.mem_of_getElem? ht) (hConn.symm.trans hk)
        rcases hLines with ⟨hpc, hLine, cmd, rfl⟩ | ⟨hSame, hBusy⟩ | hpc | hpc
        · simp only [feeds, ht, decide_eq_true_eq] at hFeeds
          rcases hFeeds with hne | ⟨hSome, -⟩
          · exact absurd (hConn.symm.trans hk) hne
          · have hLt : q.lines < j.lib.sent.length := by
              obtain ⟨_, hGet⟩ := Option.isSome_iff_exists.mp hSome
              exact (List.getElem?_eq_some_iff.mp hGet).1
            rcases hTracks with hpc' | hpc' | ⟨-, hGe, -⟩
            · rw [hpc] at hpc'
              cases hpc'
            · rw [hpc] at hpc'
              cases hpc'
            · exact Or.inr (Or.inr (by rw [hLine]; exact ⟨hLt, by omega, fun _ => by omega⟩))
        · have hLines := hTracks.lines_eq hBusy
          exact Or.inr (Or.inr ⟨by omega, by omega, fun _ => by omega⟩)
        · exact Or.inl hpc
        · exact Or.inr (Or.inl hpc)
  · -- a new connection
    have hStep := Task.step_of_next hn
    cases hStep with
    | reader _ => cases hNew
    | upstream _ => cases hNew
    | listener hl =>
      obtain ⟨q, hq, heq⟩ := List.mem_map.mp hNew
      cases heq
      cases hl with
      | register =>
        rw [List.mem_singleton.mp hq] at hk ⊢
        have hOne := h.connected (Nat.le_of_eq hk)
        exact Or.inr (Or.inr ⟨Nat.zero_le _, hOne, fun hb => absurd rfl hb.1⟩)
      | _ => cases hq

theorem Joint.Current.mono {k : ConnId} {j : Joint} {id : Nat} {op : Op} {s' : System}
    (h : j.Current k id) (hShared : s'.shared = op.exec j.daemon.shared) :
    (Joint.mk s' j.lib).Current k id := by
  obtain ⟨n, hRec⟩ := h
  refine ⟨n, ?_⟩
  show _ ∈ s'.shared.log
  rw [hShared]
  exact mem_log_exec_of_mem hRec

theorem Returned.Own.mono {k : ConnId} {j : Joint} {r : Returned} {op : Op} {s' : System}
    (h : r.Own k j) (hShared : s'.shared = op.exec j.daemon.shared) :
    r.Own k ⟨s', j.lib⟩ := by
  rcases h with hZero | ⟨line, id, n, size, hLine, hRec, hRep, hValue⟩
  · exact Or.inl hZero
  · refine Or.inr ⟨line, id, n, size, hLine, ?_, ?_, hValue⟩
    · show _ ∈ s'.shared.log
      rw [hShared]
      exact mem_log_exec_of_mem hRec
    · show _ ∈ s'.shared.log
      rw [hShared]
      exact mem_log_exec_of_mem hRep

/-- What the daemon's move leaves pending, about to be answered and unread on
the connection is about the last line. -/
theorem CallInv.current_move {k : ConnId} {j : Joint} (h : CallInv k j) {op : Op} {s' : System}
    (hm : daemon.Move j.daemon op s') :
    (∀ id, s'.shared.Pending k id → (Joint.mk s' j.lib).Current k id) ∧
    (∀ t ∈ s'.tasks, ∀ id size, t.answers k id size → (Joint.mk s' j.lib).Current k id) ∧
    (∀ a ∈ (Joint.mk s' j.lib).unread k, (Joint.mk s' j.lib).Current k a.1) := by
  obtain ⟨i, t, t', started, ht, hs, hShared, hTasks⟩ := move_cases hm
  have hMem := List.mem_of_getElem? ht
  refine ⟨fun id hp => ?_, fun u hu id size ha => ?_, fun a ha => ?_⟩
  · rw [hShared] at hp
    rcases (pending_exec op j.daemon.shared (h.request.list.unborn _ (Nat.le_refl _)) k id).mp hp
      with ⟨readOn, line, n, rfl, hNone⟩ | ⟨hOld, -⟩
    · obtain ⟨rfl, rfl⟩ := h.record_current hMem hs
      refine ⟨n, ?_⟩
      show _ ∈ s'.shared.log
      rw [hShared, log_exec]
      simp [Op.outputs, hNone]
    · exact (h.pending id hOld).mono hShared
  · rw [hTasks] at hu
    rcases List.mem_append.mp hu with hu | hu
    · rcases List.mem_or_eq_of_mem_set hu with hu | rfl
      · exact (h.answers u hu id size ha).mono hShared
      · -- the request it finished was pending
        obtain ⟨a, c, rfl, hSend⟩ := hs.finished_of_answers ha
        obtain ⟨p, _, hp, hId, -⟩ := ClientMutState.sendEphMemResponse_ok hSend
        exact (h.pending id ⟨p, hp, hId⟩).mono hShared
    · exact absurd ha (hs.not_answers_started k id size u hu)
  · have hUnread : a ∈ (repliesTo k s'.shared.log).drop j.lib.taken := ha
    rw [hShared] at hUnread
    rcases repliesTo_exec k op j.daemon.shared with ⟨id, size, rfl, hEq⟩ | hEq
    · rw [hEq, List.drop_append] at hUnread
      rcases List.mem_append.mp hUnread with hOld | hNew
      · exact (h.unread a hOld).mono hShared
      · rw [List.mem_singleton.mp (List.mem_of_mem_drop hNew)]
        exact (h.answers t hMem id size hs.answers_of_reply).mono hShared
    · rw [hEq] at hUnread
      exact (h.unread a hUnread).mono hShared

/-- A step of the daemon answers the current line or nobody. -/
theorem CallInv.daemon_move {k : ConnId} {j : Joint} (h : CallInv k j) {l : Label Op Choice}
    {s' : System} (hFire : daemon.fire j.daemon l = some s') (hFeeds : feeds k j l = true)
    (ha : Unhurried k j (.daemon l)) : CallInv k ⟨s', j.lib⟩ := by
  obtain ⟨i, ch, t, op, t', started, rfl, ht, hn, hOpOf, hEq⟩ := daemon_fire hFire
  have hm : daemon.Move j.daemon op s' := Machine.move_of_opOf hOpOf hFire
  have hShared : s'.shared = op.exec j.daemon.shared := hm.shared_eq
  obtain ⟨hPending, hAnswers, hUnread⟩ := h.current_move hm
  refine ⟨h.request.move hm, h.home.move hm (ha op hOpOf), fun r hr hk => ?_, fun hLe => ?_,
    hPending, hAnswers, hUnread, fun r hr => (h.results r hr).mono hShared⟩
  · have hr' : .reader r ∈ j.daemon.tasks.set i t' ++ started := by
      have : Task.reader r ∈ s'.tasks := hr
      rw [hEq] at this
      exact this
    exact h.readers_move ht hn hFeeds r hr' hk
  · have hNext := (counters_exec op j.daemon.shared).1
    have hLe' : s'.shared.nextConn ≤ k := hLe
    rw [hShared, hNext] at hLe'
    exact h.connected (Nat.le_trans (Nat.le_add_right _ _) hLe')

-- ---------------------------------------------------------------------------
-- The process's moves
-- ---------------------------------------------------------------------------

/-- A call that sends nothing leaves what is on the connection as it is. -/
theorem CallInv.lib_same {k : ConnId} {j : Joint} (h : CallInv k j) {lib : Lib}
    (hSent : lib.sent = j.lib.sent) (hTaken : j.lib.taken ≤ lib.taken)
    (hResults : ∀ r ∈ lib.results, r.Own k j) : CallInv k ⟨j.daemon, lib⟩ := by
  have hCurrent : ∀ id, j.Current k id → (Joint.mk j.daemon lib).Current k id := by
    rintro id ⟨n, hRec⟩
    refine ⟨n, ?_⟩
    show Output.recorded k lib.sent.length k id n ∈ _
    rw [hSent]
    exact hRec
  refine ⟨h.request, h.home, fun r hr hk => ?_, fun hLe => ?_,
    fun id hp => hCurrent id (h.pending id hp),
    fun t ht id size ha => hCurrent id (h.answers t ht id size ha), fun a ha => ?_, hResults⟩
  · show Tracks lib.sent.length r
    rw [hSent]
    exact h.readers r hr hk
  · show lib.sent.length ≤ 1
    rw [hSent]
    exact h.connected hLe
  · refine hCurrent a.1 (h.unread a ?_)
    have hDrop : a ∈ (repliesTo k j.daemon.shared.log).drop lib.taken := ha
    rw [← Nat.add_sub_cancel' hTaken, ← List.drop_drop] at hDrop
    exact List.mem_of_mem_drop hDrop

/-- At a quiet moment a new line may be sent. -/
theorem CallInv.send {k : ConnId} {j : Joint} (h : CallInv k j) (hQuiet : Quiet k j)
    (aligned : Nat) :
    CallInv k ⟨j.daemon, { j.lib with sent := j.lib.sent ++ [aligned], pc := .waiting aligned }⟩ := by
  have hLength : (j.lib.sent ++ [aligned]).length = j.lib.sent.length + 1 := List.length_append ..
  refine ⟨h.request, h.home, fun r hr hk => ?_, fun hLe => ?_, fun id hp => ?_,
    fun t ht id size ha => ?_, fun a ha => ?_, h.results⟩
  · show Tracks (j.lib.sent ++ [aligned]).length r
    rw [hLength]
    rcases (hQuiet.rests _ hr).reader hk with ⟨hpc, hLines⟩ | hpc | hpc
    · exact Or.inr (Or.inr ⟨by omega, by omega, fun hb => absurd hpc hb.1⟩)
    · exact Or.inl hpc
    · exact Or.inr (Or.inl hpc)
  · show (j.lib.sent ++ [aligned]).length ≤ 1
    rw [hLength]
    rcases hQuiet.connected with hNil | hLt
    · rw [hNil]
      exact Nat.le_refl 1
    · exact absurd hLe (Nat.not_le.mpr hLt)
  · obtain ⟨p, hp, -⟩ := hp
    rw [show (j.daemon.shared.client k).pendingRequest = none from hQuiet.idle] at hp
    cases hp
  · exact absurd ha ((hQuiet.rests t ht).not_answers id size)
  · have hRead : a ∈ j.unread k := ha
    rw [hQuiet.read] at hRead
    cases hRead

/-- A step of the process sends at a quiet moment and takes what is there. -/
theorem CallInv.lib_move {k : ConnId} {j : Joint} (h : CallInv k j) {a : Action} {lib : Lib}
    (hs : Lib.Step (j.unread k) j.lib a lib) (ha : Unhurried k j a) :
    CallInv k ⟨j.daemon, lib⟩ := by
  have hCons : ∀ r : Returned, r.Own k j → ∀ r' ∈ r :: j.lib.results, r'.Own k j := by
    intro r hr r' hr'
    rcases List.mem_cons.mp hr' with rfl | hOld
    · exact hr
    · exact h.results r' hOld
  cases hs with
  | refuse _ => exact h.lib_same rfl (Nat.le_refl _) (hCons _ (Or.inl rfl))
  | call _ _ => exact h.lib_same rfl (Nat.le_refl _) h.results
  | drain _ => exact h.lib_same rfl (Nat.le_add_right _ _) h.results
  | drainFailed _ => exact h.lib_same rfl (Nat.le_refl _) (hCons _ (Or.inl rfl))
  | send _ => exact h.send ha _
  | sendFailed _ => exact h.lib_same rfl (Nat.le_refl _) (hCons _ (Or.inl rfl))
  | @recv aligned id size extra rest hpc hUnread =>
    refine h.lib_same rfl (Nat.le_add_right _ _) (hCons _ (Or.inr ?_))
    -- the reply taken is to the request of the last line
    have hMem : (id, size) ∈ j.unread k := by
      rw [hUnread]
      exact List.mem_cons_self ..
    obtain ⟨n, hRec⟩ := h.unread _ hMem
    refine ⟨_, id, n, size, rfl, hRec, replied_of_mem (List.mem_of_mem_drop hMem), ?_⟩
    show reservedSize aligned size = min aligned size
    unfold reservedSize
    split <;> omega
  | giveUp _ => exact h.lib_same rfl (Nat.le_refl _) (hCons _ (Or.inl rfl))

theorem callInv_init (k : ConnId) : CallInv k initJoint.shared := by
  refine ⟨requestInv_init, homeInv_init, fun r hr => ?_, fun _ => Nat.zero_le 1, fun id hp => ?_,
    fun t ht id size ha => ?_, nofun, nofun⟩
  · rcases List.mem_cons.mp hr with heq | hr
    · cases heq
    · cases List.mem_singleton.mp hr
  · obtain ⟨p, hp, -⟩ := hp
    cases hp
  · rcases List.mem_cons.mp ht with rfl | ht
    · exact ha.elim
    · rw [List.mem_singleton.mp ht] at ha
      exact ha.elim

/-- **A reservation reports its own grant.** In every run in which lines are
sent when nothing of an earlier call is outstanding, and requests stay on
their connection, every call returns 0 or the smaller of its aligned amount
and the size in the reply to the request of the line it sent. -/
theorem own_grant {k : ConnId} {j : Joint} (h : CallsBy k (Unhurried k) j) :
    ∀ r ∈ j.lib.results, r.value = 0 ∨ ∃ line id n size, r.line = some line ∧
      Output.recorded k line k id n ∈ j.daemon.shared.log ∧
      Output.replied k id size true ∈ j.daemon.shared.log ∧ r.value = min r.aligned size := by
  have hInv : CallInv k j := by
    refine h.invariant (fun j a j' hI hFire ha => ?_) (callInv_init k)
    rcases fire_cases hFire with ⟨l, rfl, hFeeds, hd, hLib⟩ | ⟨hDaemon, hs⟩
    · have hNext := hI.daemon_move hd hFeeds ha
      rw [← hLib] at hNext
      exact hNext
    · have hNext := hI.lib_move hs ha
      rw [← hDaemon] at hNext
      exact hNext
  exact hInv.results

-- ---------------------------------------------------------------------------
-- Concrete calls
-- ---------------------------------------------------------------------------

/-- PID 5 connects, and a call for one byte sends its line. -/
def callOne : List Action :=
  [.daemon (.task 0 (.accept 5)), .daemon (.task 0 (.outcome true)), .call 1, .drain true,
    .send true, .daemon (.task 2 (.line (some (request granularity)))), .daemon (.task 2 .go),
    .daemon (.task 2 .go), .daemon (.task 2 .go), .daemon (.task 2 (.outcome true))]

/-- The orchestrator answers it with one chunk, and the reply is written. -/
def answerOne : List Action :=
  [.daemon (.task 1 (.line (some (.response (some 0) (granularity, 0) false)))),
    .daemon (.task 1 (.outcome true)), .daemon (.task 1 .go), .daemon (.task 1 .go),
    .daemon (.task 1 (.outcome true))]

/-- A second call, for two chunks, is made after the first one returned; it is
granted one. -/
def callsTwo : List Action :=
  callOne ++ answerOne ++ [.recv 0, .call (BitVec.ofNat 64 (2 * granularity)), .drain true,
    .send true, .daemon (.task 2 (.line (some (request (2 * granularity))))),
    .daemon (.task 2 .go), .daemon (.task 2 .go), .daemon (.task 2 .go),
    .daemon (.task 2 (.outcome true)),
    .daemon (.task 1 (.line (some (.response (some 1) (granularity, granularity) false)))),
    .daemon (.task 1 (.outcome true)), .daemon (.task 1 .go), .daemon (.task 1 .go),
    .daemon (.task 1 (.outcome true)), .recv 0]

theorem own_grant_two :
    (callsAfter 2 callsTwo).lib.results =
      [⟨some 2, 2 * granularity, granularity⟩, ⟨some 1, granularity, granularity⟩] ∧
    ∃ line id n size, some 2 = some line ∧
      Output.recorded 2 line 2 id n ∈ (callsAfter 2 callsTwo).daemon.shared.log ∧
      Output.replied 2 id size true ∈ (callsAfter 2 callsTwo).daemon.shared.log ∧
      granularity = min (2 * granularity) size := by
  have hResults : (callsAfter 2 callsTwo).lib.results =
      [⟨some 2, 2 * granularity, granularity⟩, ⟨some 1, granularity, granularity⟩] := by
    decide +kernel
  have hRun : CallsBy 2 (Unhurried 2) (callsAfter 2 callsTwo) :=
    callsBy_callsAfter (by decide +kernel)
  refine ⟨hResults, ?_⟩
  rcases own_grant hRun ⟨some 2, 2 * granularity, granularity⟩
    (by rw [hResults]; exact List.mem_cons_self ..) with hZero | hOwn
  · exact absurd hZero granularity_pos.ne'
  · exact hOwn

/-- The first call times out. A second one drains the socket and sends its line,
which the daemon refuses, the first request still being pending; then the
first request is answered. -/
def lateReply : List Action :=
  callOne ++ [.giveUp, .call 1, .drain true, .send true,
    .daemon (.task 2 (.line (some (request granularity)))), .daemon (.task 2 .go),
    .daemon (.task 2 .go), .daemon (.task 2 .go)] ++ answerOne ++ [.recv 0]

/-- The line a request was recorded from. -/
def recordedLine : Output → Option Nat
  | .recorded _ line _ _ _ => some line
  | _ => none

/-- The second call returns the size in the reply to the first one's request;
its own request was not even recorded. -/
theorem late_reply_taken :
    CallsBy 2 (fun _ _ => True) (callsAfter 2 lateReply) ∧
    (callsAfter 2 lateReply).lib.results =
      [⟨some 2, granularity, granularity⟩, ⟨some 1, granularity, 0⟩] ∧
    Output.recorded 2 1 2 0 granularity ∈ (callsAfter 2 lateReply).daemon.shared.log ∧
    Output.replied 2 0 granularity true ∈ (callsAfter 2 lateReply).daemon.shared.log ∧
    ∀ id n, Output.recorded 2 2 2 id n ∉ (callsAfter 2 lateReply).daemon.shared.log := by
  refine ⟨callsBy_callsAfter (by decide +kernel), by decide +kernel, by decide +kernel,
    by decide +kernel, fun id n hRec => ?_⟩
  have hLines : (callsAfter 2 lateReply).daemon.shared.log.all
      (fun o => decide (recordedLine o ≠ some 2)) = true := by decide +kernel
  exact of_decide_eq_true (List.all_eq_true.mp hLines _ hRec) rfl

end EphMemory.Libephmem
