import EphMemory.Lib.Count
import EphMemory.Vsock.Threads

/-!
# Vsock — one request loop per consumer

The listener sets `vsock_conn` only after it saw it empty under the lock, and
the thread it then starts is the only one that empties it. So a stream in
`vsock_conn` has one owner: the listener until it has started the thread, then
the thread until it has reset it.

* `lockLaw` — at most one thread holds a VM's `vsock_conn`;
* `ownLaw` — a stream in `vsock_conn` has at most one owner, and no owner is
  without one;
* `StreamInv` — an owner finds its own stream;
* `one_request_loop` — one loop per VM, resets and responses on one's own
  connection.
-/

namespace EphMemory.Vsock

open EphMemory.Lib

-- ---------------------------------------------------------------------------
-- Holding and owning
-- ---------------------------------------------------------------------------

/-- The thread holds the VM's `vsock_conn`. -/
def Task.holds (v : VmId) : Task → Prop
  | .listener (.check v' _) => v' = v
  | .listener (.set v' _) => v' = v
  | .listener (.drop v' _) => v' = v
  | .listener (.leave v') => v' = v
  | .listener _ => False
  | .serving c => c.vm = v ∧ Serving.holding c.pc = true

/-- The thread may still read requests, or has to reset `vsock_conn`. -/
def ServingPc.live : ServingPc → Bool
  | .last | .done => false
  | _ => true

/-- The thread owns the stream in the VM's `vsock_conn`. -/
def Task.owns (v : VmId) : Task → Prop
  | .listener (.drop v' _) => v' = v
  | .listener (.spawn v' _) => v' = v
  | .listener _ => False
  | .serving c => c.vm = v ∧ c.pc.live = true

noncomputable def holdWeight (v : VmId) (t : Task) : Int := ind (t.holds v)

noncomputable def ownWeight (v : VmId) (t : Task) : Int := ind (t.owns v)

/-- At most one thread holds a VM's `vsock_conn`. -/
def lockLaw (s : System) : Prop :=
  ∀ v, Machine.total (fun s => -ind (s.lock v = .held)) (holdWeight v) s ≤ 0

/-- A stream in `vsock_conn` has at most one owner, none has an owner. -/
def ownLaw (s : System) : Prop :=
  ∀ v, Machine.total (fun s => -ind (s.vsockConn v ≠ none)) (ownWeight v) s ≤ 0

/-- What a thread knows of the stream in its VM's `vsock_conn`. -/
def Task.Sees (s : Shared) : Task → Prop
  | .listener (.set v _) => s.vsockConn v = none
  | .listener (.drop v k) => s.vsockConn v = some k
  | .listener (.spawn v k) => s.vsockConn v = some k
  | .listener _ => True
  | .serving c => (c.pc.live = true → s.vsockConn c.vm = some c.conn) ∧
      ∀ k cmds, c.pc = .write k cmds → k = c.conn

structure StreamInv (s : System) : Prop where
  locks : lockLaw s
  owners : ownLaw s
  sees : ∀ (i : Nat) (t : Task), s.tasks[i]? = some t → t.Sees s.shared
  wrote : ∀ v readOn k cmd, Output.wrote v readOn k cmd ∈ s.shared.log → k = readOn
  reset : ∀ v k d, Output.reset v k d ∈ s.shared.log → d = some k

-- ---------------------------------------------------------------------------
-- The lock
-- ---------------------------------------------------------------------------

theorem ind_held_lock {s : Shared} {v : VmId} (w : VmId) (h : s.lock v = .free) :
    ind (((Op.lock v).exec s).lock w = .held) = ind (s.lock w = .held) + ind (v = w) := by
  by_cases hv : v = w
  · subst hv
    simp [Op.exec, h]
  · simp [Op.exec, hv, Function.update_of_ne (Ne.symm hv)]

/-- Giving the lock up, to others or to nobody. -/
theorem ind_held_leave {s : Shared} {v : VmId} {op : Op} (w : VmId)
    (h : op = .unlock v ∨ op = .poison v) :
    ind (s.lock w = .held) ≤ ind ((op.exec s).lock w = .held) + ind (v = w) := by
  by_cases hv : v = w
  · rw [ind_true hv]
    have hLe := ind_le_one (s.lock w = .held)
    have hNonneg := ind_nonneg ((op.exec s).lock w = .held)
    omega
  · have hSame : (op.exec s).lock w = s.lock w := by
      rcases h with rfl | rfl <;> exact Function.update_of_ne (Ne.symm hv) _ _
    rw [hSame, ind_false hv]
    omega

/-- A thread between taking and giving up its VM's lock holds it. -/
theorem holdWeight_of_holding {v w : VmId} {k : ConnId} {p : ServingPc}
    (h : Serving.holding p = true) : holdWeight w (.serving ⟨v, k, p⟩) = ind (v = w) :=
  congrArg ind (propext ⟨fun hh => hh.1, fun hv => ⟨hv, h⟩⟩)

/-- A thread anywhere else holds no lock. -/
theorem holdWeight_of_not_holding {v w : VmId} {k : ConnId} {p : ServingPc}
    (h : Serving.holding p = false) : holdWeight w (.serving ⟨v, k, p⟩) = 0 := by
  refine ind_false fun hh => ?_
  rw [show Serving.holding p = true from hh.2] at h
  cases h

/-- A connection's thread takes the lock when it is free, and gives it back. -/
theorem Serving.Step.holdWeight_le {s : Shared} {c c' : Serving} {op : Op}
    (h : Serving.Step s c op c') (w : VmId) :
    -ind ((op.exec s).lock w = .held) + holdWeight w (.serving c') ≤
      -ind (s.lock w = .held) + holdWeight w (.serving c) := by
  cases h with
  | work h1 h2 _ _ =>
    rw [holdWeight_of_not_holding h1, holdWeight_of_not_holding h2]
    exact Int.le_refl _
  | die h1 =>
    rw [holdWeight_of_not_holding h1, holdWeight_of_not_holding rfl]
    exact Int.le_refl _
  | @poison v k pc h1 =>
    have hLeave := ind_held_leave (s := s) (v := v) w (Or.inr rfl)
    rw [holdWeight_of_holding h1, holdWeight_of_not_holding rfl]
    omega
  | @locked v k cmds hFree =>
    rw [ind_held_lock w hFree, holdWeight_of_not_holding (p := .lock cmds) rfl,
      holdWeight_of_holding rfl]
    omega
  | notConnected => exact Int.le_refl _
  | connected _ => exact Int.le_refl _
  | written => exact Int.le_refl _
  | write => exact Int.le_refl _
  | notWritten => exact Int.le_refl _
  | @unlock v k =>
    have hLeave := ind_held_leave (s := s) (v := v) w (Or.inl rfl)
    rw [holdWeight_of_holding (p := .unlock) rfl, holdWeight_of_not_holding rfl]
    omega
  | @ending v k hFree =>
    rw [ind_held_lock w hFree, holdWeight_of_not_holding (p := .ending) rfl,
      holdWeight_of_holding rfl]
    omega
  | reset => exact Int.le_refl _
  | @last v k =>
    have hLeave := ind_held_leave (s := s) (v := v) w (Or.inl rfl)
    rw [holdWeight_of_holding (p := .last) rfl, holdWeight_of_not_holding rfl]
    omega

/-- The listener takes a lock when it is free, and gives it back. -/
theorem Listener.Step.holdWeight_le {s : Shared} {l l' : Listener} {op : Op}
    {started : List Serving} (h : Listener.Step s l op l' started) (w : VmId) :
    -ind ((op.exec s).lock w = .held) + holdWeight w (.listener l') ≤
      -ind (s.lock w = .held) + holdWeight w (.listener l) := by
  -- the other moves leave the lock and who holds it as they are
  cases h with
  | @locked v k hFree =>
    rw [ind_held_lock w hFree]
    show -(_ + ind (v = w)) + ind (v = w) ≤ _ + ind False
    have hNonneg := ind_nonneg False
    omega
  | @leave v =>
    have hLeave := ind_held_leave (s := s) (v := v) w (Or.inl rfl)
    show _ + ind False ≤ _ + ind (v = w)
    rw [ind_false (p := False) id]
    omega
  | @drop v k =>
    have hLeave := ind_held_leave (s := s) (v := v) w (Or.inl rfl)
    show _ + ind False ≤ _ + ind (v = w)
    rw [ind_false (p := False) id]
    omega
  | _ => exact Int.le_refl _

/-- A lock that is held has one holder. -/
theorem lockLaw.move {s s' : System} {op : Op} (h : lockLaw s) (hm : vsock.Move s op s') :
    lockLaw s' := by
  intro v
  refine le_trans (hm.total_le (fun i t ch t' started ht hn => ?_) fun started hs => ?_) (h v)
  · cases Task.step_of_next hn with
    | @listener l l' _ started hl =>
      have hStarted : Machine.weigh (holdWeight v) (started.map Task.serving) = 0 := by
        refine Machine.weigh_eq_zero fun u hu => ?_
        obtain ⟨c, hc, rfl⟩ := List.mem_map.mp hu
        cases hl with
        | spawn =>
          rw [List.mem_singleton.mp hc]
          exact holdWeight_of_not_holding rfl
        | _ => cases hc
      rw [hStarted, Int.add_zero]
      exact hl.holdWeight_le v
    | serving hc =>
      rw [Machine.weigh_nil, Int.add_zero]
      exact hc.holdWeight_le v
  · cases hs

/-- No two threads hold a VM's `vsock_conn`. -/
theorem lockLaw.exclusive {s : System} (h : lockLaw s) {i j : Nat} {t u : Task} {v : VmId}
    (ht : s.tasks[i]? = some t) (hu : s.tasks[j]? = some u) (hHold : t.holds v)
    (hHold' : u.holds v) : i = j := by
  by_contra hij
  have hTwo := Machine.add_le_weigh (w := holdWeight v) (fun t => ind_nonneg _) hij ht hu
  rw [show holdWeight v t = 1 from ind_true hHold, show holdWeight v u = 1 from ind_true hHold']
    at hTwo
  have hOne := ind_le_one (s.shared.lock v = .held)
  have hLaw : -ind (s.shared.lock v = .held) + Machine.weigh (holdWeight v) s.tasks ≤ 0 := h v
  omega

-- ---------------------------------------------------------------------------
-- The stream
-- ---------------------------------------------------------------------------

theorem ind_conn_set {s : Shared} {v : VmId} (k : ConnId) (w : VmId)
    (h : s.vsockConn v = none) :
    ind (((Op.set v k).exec s).vsockConn w ≠ none) =
      ind (s.vsockConn w ≠ none) + ind (v = w) := by
  by_cases hv : v = w
  · subst hv
    simp [Op.exec, h]
  · simp [Op.exec, hv, Function.update_of_ne (Ne.symm hv)]

theorem ind_conn_reset (s : Shared) (v : VmId) (k : ConnId) (w : VmId) :
    ind (s.vsockConn w ≠ none) ≤
      ind (((Op.reset v k).exec s).vsockConn w ≠ none) + ind (v = w) := by
  by_cases hv : v = w
  · rw [ind_true hv]
    have hLe := ind_le_one (s.vsockConn w ≠ none)
    have hNonneg := ind_nonneg (((Op.reset v k).exec s).vsockConn w ≠ none)
    omega
  · have hSame : ((Op.reset v k).exec s).vsockConn w = s.vsockConn w :=
      Function.update_of_ne (Ne.symm hv) _ _
    rw [hSame, ind_false hv]
    omega

/-- A thread that has not come to its end is live. -/
theorem live_of_not_holding {pc : ServingPc} (h : Serving.holding pc = false)
    (hDone : pc ≠ .done) : pc.live = true := by
  cases pc with
  | last => cases h
  | done => exact absurd rfl hDone
  | _ => rfl

/-- A live thread owns its VM's connection. -/
theorem ownWeight_of_live {v w : VmId} {k : ConnId} {p : ServingPc}
    (h : p.live = true) : ownWeight w (.serving ⟨v, k, p⟩) = ind (v = w) :=
  congrArg ind (propext ⟨fun hh => hh.1, fun hv => ⟨hv, h⟩⟩)

/-- A thread that has ended owns no connection. -/
theorem ownWeight_of_not_live {v w : VmId} {k : ConnId} {p : ServingPc}
    (h : p.live = false) : ownWeight w (.serving ⟨v, k, p⟩) = 0 := by
  refine ind_false fun hh => ?_
  rw [show p.live = true from hh.2] at h
  cases h

/-- A thread gives up its connection when it resets it. -/
theorem Serving.Step.ownWeight_le {s : Shared} {c c' : Serving} {op : Op}
    (h : Serving.Step s c op c') (w : VmId) :
    -ind ((op.exec s).vsockConn w ≠ none) + ownWeight w (.serving c') ≤
      -ind (s.vsockConn w ≠ none) + ownWeight w (.serving c) := by
  cases h with
  | work h1 h2 h3 h4 =>
    rw [ownWeight_of_live (live_of_not_holding h1 h3), ownWeight_of_live (live_of_not_holding h2 h4)]
    exact Int.le_refl _
  | @die v k pc _ =>
    have hNonneg : 0 ≤ ownWeight w (.serving ⟨v, k, pc⟩) := ind_nonneg _
    rw [ownWeight_of_not_live (p := .done) rfl]
    show -ind (s.vsockConn w ≠ none) + 0 ≤ _
    omega
  | @poison v k pc _ =>
    have hNonneg : 0 ≤ ownWeight w (.serving ⟨v, k, pc⟩) := ind_nonneg _
    rw [ownWeight_of_not_live (p := .done) rfl]
    show -ind (s.vsockConn w ≠ none) + 0 ≤ _
    omega
  | @reset v k =>
    have hReset := ind_conn_reset s v k w
    rw [ownWeight_of_live (p := .reset) rfl, ownWeight_of_not_live (p := .last) rfl]
    omega
  | _ => exact Int.le_refl _

/-- The listener hands the connection it has set to the thread it starts. -/
theorem Listener.Step.ownWeight_le {s : Shared} {l l' : Listener} {op : Op}
    {started : List Serving} (h : Listener.Step s l op l' started)
    (hSees : (Task.listener l).Sees s) (w : VmId) :
    -ind ((op.exec s).vsockConn w ≠ none) + ownWeight w (.listener l') +
        Machine.weigh (ownWeight w) (started.map Task.serving) ≤
      -ind (s.vsockConn w ≠ none) + ownWeight w (.listener l) := by
  have hFalse : ind False = 0 := ind_false fun h => h
  cases h with
  | @set v k =>
    rw [ind_conn_set k w hSees, List.map_nil, Machine.weigh_nil]
    show -(_ + ind (v = w)) + ind (v = w) + 0 ≤ _ + ind False
    omega
  | @spawn v k =>
    rw [List.map_singleton, Machine.weigh_cons, Machine.weigh_nil,
      ownWeight_of_live (p := .reading) rfl]
    show -ind (s.vsockConn w ≠ none) + ind False + (ind (v = w) + 0) ≤
      -ind (s.vsockConn w ≠ none) + ind (v = w)
    omega
  | @notSpawned v k =>
    have hNonneg := ind_nonneg (v = w)
    rw [List.map_nil, Machine.weigh_nil]
    show -ind (s.vsockConn w ≠ none) + ind False + 0 ≤ -ind (s.vsockConn w ≠ none) + ind (v = w)
    omega
  | _ =>
    rw [List.map_nil, Machine.weigh_nil, Int.add_zero]
    exact Int.le_refl _

/-- A VM has one owner of its connection at most. -/
theorem ownLaw.move {s s' : System} {op : Op} (h : ownLaw s)
    (hSees : ∀ (i : Nat) (t : Task), s.tasks[i]? = some t → t.Sees s.shared)
    (hm : vsock.Move s op s') : ownLaw s' := by
  intro v
  refine le_trans (hm.total_le (fun i t ch t' started ht hn => ?_) fun started hs => ?_) (h v)
  · cases Task.step_of_next hn with
    | listener hl => exact hl.ownWeight_le (hSees i _ ht) v
    | serving hc =>
      rw [Machine.weigh_nil, Int.add_zero]
      exact hc.ownWeight_le v
  · cases hs

/-- No two threads own the stream of a VM. -/
theorem ownLaw.exclusive {s : System} (h : ownLaw s) {i j : Nat} {t u : Task} {v : VmId}
    (ht : s.tasks[i]? = some t) (hu : s.tasks[j]? = some u) (hOwn : t.owns v)
    (hOwn' : u.owns v) : i = j := by
  by_contra hij
  have hTwo := Machine.add_le_weigh (w := ownWeight v) (fun t => ind_nonneg _) hij ht hu
  rw [show ownWeight v t = 1 from ind_true hOwn, show ownWeight v u = 1 from ind_true hOwn']
    at hTwo
  have hOne := ind_le_one (s.shared.vsockConn v ≠ none)
  have hLaw : -ind (s.shared.vsockConn v ≠ none) + Machine.weigh (ownWeight v) s.tasks ≤ 0 := h v
  omega

/-- An owner's VM has a stream. -/
theorem ownLaw.conn_ne_none {s : System} (h : ownLaw s) {i : Nat} {t : Task} {v : VmId}
    (ht : s.tasks[i]? = some t) (hOwn : t.owns v) : s.shared.vsockConn v ≠ none := by
  intro hNone
  have hLe := Machine.le_weigh (w := ownWeight v) (fun t => ind_nonneg _) ht
  rw [show ownWeight v t = 1 from ind_true hOwn] at hLe
  have hLaw : -ind (s.shared.vsockConn v ≠ none) + Machine.weigh (ownWeight v) s.tasks ≤ 0 := h v
  rw [ind_false (p := s.shared.vsockConn v ≠ none) (fun h => h hNone)] at hLaw
  omega

/-- A thread relies on the stream of the VM it owns, or is about to set. -/
theorem Task.Sees.congr {s s' : Shared} {t : Task} (h : t.Sees s)
    (hSame : ∀ v, t.owns v ∨ (∃ k, t = .listener (.set v k)) → s'.vsockConn v = s.vsockConn v) :
    t.Sees s' := by
  match t, h with
  | .listener (.set v k), h => exact (hSame v (Or.inr ⟨k, rfl⟩)).trans h
  | .listener (.drop v k), h => exact (hSame v (Or.inl rfl)).trans h
  | .listener (.spawn v k), h => exact (hSame v (Or.inl rfl)).trans h
  | .listener .idle, _ => trivial
  | .listener (.tryLock _ _), _ => trivial
  | .listener (.check _ _), _ => trivial
  | .listener (.leave _), _ => trivial
  | .listener .dead, _ => trivial
  | .serving c, h =>
    exact ⟨fun hLive => (hSame c.vm (Or.inl ⟨rfl, hLive⟩)).trans (h.1 hLive), h.2⟩

/-- The operations that change a stream. -/
theorem vsockConn_exec (op : Op) (s : Shared) (v : VmId)
    (hSet : ∀ k, op ≠ .set v k) (hReset : ∀ k, op ≠ .reset v k) :
    (op.exec s).vsockConn v = s.vsockConn v := by
  cases op with
  | set v' k =>
    have hv : v' ≠ v := fun h => hSet k (by rw [h])
    exact Function.update_of_ne (Ne.symm hv) _ _
  | reset v' k =>
    have hv : v' ≠ v := fun h => hReset k (by rw [h])
    exact Function.update_of_ne (Ne.symm hv) _ _
  | _ => rfl

/-- Another thread's move leaves the stream a thread relies on alone. -/
theorem StreamInv.sees_others {s : System} (h : StreamInv s) {i j : Nat} {t t' u : Task}
    {op : Op} {started : List Task} (ht : s.tasks[i]? = some t)
    (hs : Task.Step s.shared t op t' started) (hji : j ≠ i) (hu : s.tasks[j]? = some u) :
    u.Sees (op.exec s.shared) := by
  refine (h.sees j u hu).congr fun v hv => vsockConn_exec op s.shared v ?_ ?_
  · rintro k rfl
    -- the listener holds the lock and has seen no stream
    cases hs with
    | serving hc => cases hc
    | listener hl =>
      cases hl
      rcases hv with hOwn | ⟨k', rfl⟩
      · have hNone : s.shared.vsockConn v = none := h.sees i _ ht
        exact absurd hNone (h.owners.conn_ne_none hu hOwn)
      · exact hji (h.locks.exclusive hu ht (v := v) rfl rfl)
  · rintro k rfl
    -- the thread holds the lock and owns the stream
    cases hs with
    | listener hl => cases hl
    | serving hc =>
      cases hc
      rcases hv with hOwn | ⟨k', rfl⟩
      · exact hji (h.owners.exclusive hu ht hOwn ⟨rfl, rfl⟩)
      · exact hji (h.locks.exclusive hu ht (v := v) rfl ⟨rfl, rfl⟩)

/-- The listener starts a thread on the connection it has just set. -/
theorem Listener.Step.sees {s : Shared} {l l' : Listener} {op : Op} {started : List Serving}
    (h : Listener.Step s l op l' started) (hSees : (Task.listener l).Sees s) :
    (Task.listener l').Sees (op.exec s) ∧ ∀ u ∈ started.map Task.serving, u.Sees (op.exec s) := by
  cases h with
  | unconnected hNone => exact ⟨hNone, nofun⟩
  | set => exact ⟨Function.update_self .., nofun⟩
  | drop => exact ⟨hSees, nofun⟩
  | spawn =>
    refine ⟨trivial, fun u hu => ?_⟩
    rw [List.map_singleton, List.mem_singleton] at hu
    rw [hu]
    exact ⟨fun _ => hSees, nofun⟩
  | _ => exact ⟨trivial, nofun⟩

/-- A thread that owns the connection finds it its own. -/
theorem Serving.Step.sees {s : Shared} {c c' : Serving} {op : Op} (h : Serving.Step s c op c')
    (hSees : (Task.serving c).Sees s) : (Task.serving c').Sees (op.exec s) := by
  cases h with
  | work h1 h2 h3 h4 =>
    refine ⟨fun _ => hSees.1 (live_of_not_holding h1 h3), ?_⟩
    rintro k cmds rfl
    cases h2
  | die _ => exact ⟨nofun, nofun⟩
  | poison _ => exact ⟨nofun, nofun⟩
  | connected hk =>
    refine ⟨fun _ => hSees.1 rfl, fun k' cmds heq => ?_⟩
    cases heq
    exact Option.some.inj (hk.symm.trans (hSees.1 rfl))
  | write =>
    refine ⟨fun _ => hSees.1 rfl, fun k' cmds heq => ?_⟩
    cases heq
    exact hSees.2 _ _ rfl
  | reset => exact ⟨nofun, nofun⟩
  | last => exact ⟨nofun, nofun⟩
  | _ => exact ⟨fun _ => hSees.1 rfl, nofun⟩

/-- What a thread sees, the others leave as it is: they own no part of it. -/
theorem StreamInv.sees_move {s s' : System} {op : Op} (h : StreamInv s)
    (hm : vsock.Move s op s') :
    ∀ (j : Nat) (u : Task), s'.tasks[j]? = some u → u.Sees s'.shared := by
  refine hm.forall_tasks_ne (J := fun _ s t => t.Sees s) (fun i t ch t' started ht hn => ?_)
    (fun started hs => by cases hs)
  have hStep := Task.step_of_next hn
  have hSees := h.sees i t ht
  have hOthers : ∀ (j : Nat) u, j ≠ i → s.tasks[j]? = some u → u.Sees (op.exec s.shared) :=
    fun j u hji hu => h.sees_others ht hStep hji hu
  cases hStep with
  | listener hl => exact ⟨(hl.sees hSees).1, fun _ => (hl.sees hSees).2, hOthers⟩
  | serving hc => exact ⟨hc.sees hSees, fun _ => nofun, hOthers⟩

-- ---------------------------------------------------------------------------
-- Writes and resets
-- ---------------------------------------------------------------------------

/-- What an operation adds to the log. -/
theorem mem_log_exec {op : Op} {s : Shared} {o : Output} (h : o ∈ (op.exec s).log) :
    (∃ v readOn k cmd, op = .write v readOn k cmd ∧ o = .wrote v readOn k cmd) ∨
      (∃ v k, op = .reset v k ∧ o = .reset v k (s.vsockConn v)) ∨ o ∈ s.log := by
  cases op with
  | write v readOn k cmd =>
    rcases List.mem_cons.mp h with rfl | h
    · exact Or.inl ⟨v, readOn, k, cmd, rfl, rfl⟩
    · exact Or.inr (Or.inr h)
  | reset v k =>
    rcases List.mem_cons.mp h with rfl | h
    · exact Or.inr (Or.inl ⟨v, k, rfl, rfl⟩)
    · exact Or.inr (Or.inr h)
  | _ => exact Or.inr (Or.inr h)

/-- A thread writes to the connection it reads from. -/
theorem Task.Step.write_own {s : Shared} {t t' : Task} {started : List Task} {v : VmId}
    {readOn k : ConnId} {cmd : ConsumerCommand}
    (h : Task.Step s t (.write v readOn k cmd) t' started) (hSees : t.Sees s) : k = readOn := by
  cases h with
  | listener hl => cases hl
  | serving hc => cases hc <;> exact hSees.2 _ _ rfl

/-- A thread resets its own connection. -/
theorem Task.Step.reset_own {s : Shared} {t t' : Task} {started : List Task} {v : VmId}
    {k : ConnId} (h : Task.Step s t (.reset v k) t' started) (hSees : t.Sees s) :
    s.vsockConn v = some k := by
  cases h with
  | listener hl => cases hl
  | serving hc =>
    cases hc
    exact hSees.1 rfl

/-- The laws hold on together. -/
theorem StreamInv.move {s s' : System} {op : Op} (h : StreamInv s) (hm : vsock.Move s op s') :
    StreamInv s' := by
  obtain ⟨i, t, t', started, ht, hs, hShared⟩ := move_cases hm
  have hSees := h.sees i t ht
  refine ⟨h.locks.move hm, h.owners.move h.sees hm, h.sees_move hm, fun v readOn k cmd hw => ?_,
    fun v k d hr => ?_⟩
  · rw [hShared] at hw
    rcases mem_log_exec hw with ⟨_, _, _, _, rfl, heq⟩ | ⟨_, _, -, heq⟩ | hOld
    · cases heq
      exact hs.write_own hSees
    · cases heq
    · exact h.wrote v readOn k cmd hOld
  · rw [hShared] at hr
    rcases mem_log_exec hr with ⟨_, _, _, _, -, heq⟩ | ⟨_, _, rfl, heq⟩ | hOld
    · cases heq
    · cases heq
      exact hs.reset_own hSees
    · exact h.reset v k d hOld

theorem streamInv_init : StreamInv initSystem := by
  have hTask : ∀ (i : Nat) t, initSystem.tasks[i]? = some t → t = .listener .idle := fun i t ht =>
    List.mem_singleton.mp (List.mem_of_getElem? ht)
  refine ⟨fun v => ?_, fun v => ?_, fun i t ht => ?_, nofun, nofun⟩
  · show -ind (Lock.free = .held) + (ind False + 0) ≤ 0
    rw [ind_false (p := False) id, ind_false nofun]
    exact Int.le_refl 0
  · show -ind ((none : Option ConnId) ≠ none) + (ind False + 0) ≤ 0
    rw [ind_false (p := False) id, ind_false fun h => h rfl]
    exact Int.le_refl 0
  · rw [hTask i t ht]
    trivial

/-- **One request loop per consumer.** In every state reached, no two threads
read requests for one VM; every reset of `vsock_conn` took the resetting
thread's own stream out of it; and every response was written to the
connection its request was read on. -/
theorem one_request_loop {s : System} (h : Reachable s) :
    (∀ (i j : Nat) (c c' : Serving), s.tasks[i]? = some (.serving c) →
      s.tasks[j]? = some (.serving c') → c.vm = c'.vm → c.pc.live = true → c'.pc.live = true →
        i = j) ∧
    (∀ v k d, Output.reset v k d ∈ s.shared.log → d = some k) ∧
    (∀ v readOn k cmd, Output.wrote v readOn k cmd ∈ s.shared.log → k = readOn) := by
  have hInv := h.invariant (I := StreamInv) (fun _ _ _ hI hm _ => hI.move hm) streamInv_init
  refine ⟨fun i j c c' hi hj hv hc hc' => ?_, hInv.reset, hInv.wrote⟩
  exact hInv.owners.exclusive hi hj (v := c.vm) ⟨rfl, hc⟩ ⟨hv.symm, hc'⟩

/-- VM 4 connects, asks, is answered with two allocations and hangs up; while
it is served a second connection of it is turned away, after the reset a third
one is served. -/
def reconnectRun : List (Label Op Choice) :=
  [.task 0 (.accept (some 4)), .task 0 .go, .task 0 .go, .task 0 (.outcome true), .task 0 .go,
    .task 0 (.outcome true),
    .task 1 (.line (some ((ConsumerCommand.new .ephMemRequest (some granularity) none).withId
      (some 0)))),
    .task 0 (.accept (some 4)), .task 0 .go, .task 0 .go, .task 0 .go,
    .task 1 (.live [(granularity, 0), (granularity, granularity)]), .task 1 .go, .task 1 .go,
    .task 1 (.outcome true), .task 1 (.outcome true), .task 1 .go, .task 1 .go,
    .task 1 .hangUp, .task 1 .go, .task 1 .go, .task 1 .go,
    .task 0 (.accept (some 4)), .task 0 .go, .task 0 .go, .task 0 (.outcome true), .task 0 .go,
    .task 0 (.outcome true)]

theorem one_request_loop_reconnect :
    ∃ s, vsock.run initSystem reconnectRun = some s ∧
      s.tasks = [.listener .idle, .serving ⟨4, 0, .done⟩, .serving ⟨4, 2, .reading⟩] ∧
      Output.reset 4 0 (some 0) ∈ s.shared.log ∧
      (∀ v k d, Output.reset v k d ∈ s.shared.log → d = some k) ∧
      (∀ v readOn k cmd, Output.wrote v readOn k cmd ∈ s.shared.log → k = readOn) := by
  have hRuns : (vsock.run initSystem reconnectRun).isSome = true := by decide +kernel
  obtain ⟨s, hs⟩ := Option.isSome_iff_exists.mp hRuns
  have hAll := one_request_loop (Machine.steps_of_run hs)
  have hTasks : (vsock.run initSystem reconnectRun).map Config.tasks =
      some [.listener .idle, .serving ⟨4, 0, .done⟩, .serving ⟨4, 2, .reading⟩] := by
    decide +kernel
  have hLog : (vsock.run initSystem reconnectRun).map (fun s => decide
      (Output.reset 4 0 (some 0) ∈ s.shared.log)) = some true := by decide +kernel
  rw [hs] at hTasks hLog
  exact ⟨s, hs, Option.some.inj hTasks, of_decide_eq_true (Option.some.inj hLog), hAll.2.1,
    hAll.2.2⟩

end EphMemory.Vsock
