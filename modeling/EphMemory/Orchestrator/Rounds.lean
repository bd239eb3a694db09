import EphMemory.Orchestrator.Addressee
import EphMemory.Orchestrator.Granting

/-!
# Orchestrator — the rounds of `allocate_eph_memory`

Each round of the call asks one donor, the first with room after the one asked
before; the VM list is walked by socket path, so a donor is asked at most once
and the rounds run out.

* `Shared.ListKeyed` — the VM list is keyed by the VMs' own paths, in every
  reachable state (`Reachable.listKeyed`);
* `Scene` — what neither the call nor its environment changes;
* `AskInv` — which donors the call has asked;
* `AllocCall.left` — bounds the steps it has to go;
* `backing_exact_prefix` — the call ends, and how.
-/

namespace EphMemory.Orchestrator

open EphMemory.Lib

def Shared.pathOf (s : Shared) (v : VmId) : SocketPath := (s.vm v).qmpSocketPath

/-- A VM is in the list under its own path. -/
def Shared.ListKeyed (s : Shared) : Prop :=
  ∀ path v, s.vmList.get? path = some v → s.pathOf v = path

/-- No operation changes a VM's path. -/
theorem pathOf_exec (op : Op) (s : Shared) : (op.exec s).pathOf = s.pathOf := by
  funext v
  rw [Shared.pathOf, (evolves_exec op s).vm, Shared.pathOf]

/-- A VM is listed under its own path, and stays so. -/
theorem Shared.ListKeyed.exec {s : Shared} (h : s.ListKeyed) (op : Op) : (op.exec s).ListKeyed := by
  have hChange := channelChange_exec op s
  unfold Shared.ListKeyed
  rw [pathOf_exec]
  generalize (op.exec s).vmList = vmList at hChange ⊢
  generalize (op.exec s).events = events at hChange
  intro path v hv
  cases hChange with
  | @registered w =>
    rw [OrdMap.get?_insert] at hv
    split at hv
    · rename_i hPath
      rw [← Option.some.inj hv]
      exact hPath.symm
    · exact h path v hv
  | unregistered =>
    rw [OrdMap.get?_eraseAll] at hv
    split at hv
    · cases hv
    · exact h path v hv
  | _ => exact h path v hv

/-- In every reachable state VMs are listed under their own paths. -/
theorem Reachable.listKeyed {s : System} (h : Reachable s) : s.shared.ListKeyed := by
  obtain ⟨vm, donor, -, hSteps⟩ := h
  refine hSteps.invariant (I := fun s => s.shared.ListKeyed) (fun c op d hc hm _ => ?_) ?_
  · rw [hm.shared_eq]
    exact hc.exec op
  · intro path v hv
    cases hv

-- ---------------------------------------------------------------------------
-- What stays
-- ---------------------------------------------------------------------------

/-- The VMs, the VM list and the donors' mutexes as at the start, and no
panic since. -/
structure Scene (s₀ s : Shared) : Prop where
  paths : s.pathOf = s₀.pathOf
  vmList : s.vmList = s₀.vmList
  unlocked : ∀ v, s.donorLock v = none
  panics : s.panics = s₀.panics

/-- While the call runs, paths are those it started with. -/
theorem Scene.path {s₀ s : Shared} (h : Scene s₀ s) (v : VmId) :
    (s.vm v).qmpSocketPath = s₀.pathOf v := congrFun h.paths v

/-- Only asking a donor for capacity counts as asking. -/
theorem asked_exec {op : Op} {s : Shared}
    (hOp : ∀ d size granted, op ≠ .ephMemDonateCapacity d size granted) :
    (op.exec s).asked = s.asked := by
  refine filterMap_log fun o ho => ?_
  cases ho with
  | donated => exact absurd rfl (hOp _ _ _)
  | _ => rfl

/-- An operation that leaves the VM list and the donors' mutexes alone leaves the scene. -/
theorem Scene.exec {s₀ s : Shared} (h : Scene s₀ s) {op : Op}
    (hList : (op.exec s).vmList = s.vmList) (hLock : op.setsDonorLock = none)
    (hPanic : ∀ o, Emits s op o → o.panic? = none) : Scene s₀ (op.exec s) where
  paths := (pathOf_exec op s).trans h.paths
  vmList := hList.trans h.vmList
  unlocked v := by
    rw [donorLock_exec, hLock]
    exact h.unlocked v
  panics := (filterMap_log hPanic).trans h.panics

/-- What a return does meanwhile leaves the scene. -/
theorem ByReturn.scene {s₀ s : Shared} (h : Scene s₀ s) {a : AllocCall} {op : Op}
    (hOp : ByReturn s a op) : Scene s₀ (op.exec s) := by
  refine h.exec (vmList_exec ?_ ?_ s) ?_ fun o ho => ?_
  · rintro v rfl
    exact hOp
  · rintro paths rfl
    exact hOp
  · cases op <;> first | rfl | exact hOp.elim
  · cases ho with
    | panicked => exact hOp.elim
    | committedTwice => exact hOp.elim
    | _ => rfl

/-- A step of the call leaves the scene. -/
theorem AllocCall.Step.scene {s₀ s : Shared} (h : Scene s₀ s) {a a' : AllocCall} {op : Op}
    (hs : AllocCall.Step s a op a') (hPanic : ∀ o, Emits s op o → o.panic? = none) :
    Scene s₀ (op.exec s) := by
  refine h.exec (vmList_exec ?_ ?_ s) ?_ hPanic
  · rintro v rfl
    cases hs with
    | giveBack hg => cases hg
  · rintro paths rfl
    cases hs with
    | giveBack hg => cases hg
  · cases hs with
    | giveBack hg => cases hg <;> rfl
    | _ => rfl

/-- No step of a call whose books are in order panics. -/
theorem GrantInv.emits {rsvd : List AllocId} {s : Shared} {a a' : AllocCall} {op : Op}
    (h : GrantInv rsvd s a) (hs : AllocCall.Step s a op a') {o : Output} (ho : Emits s op o) :
    o.panic? = none := by
  cases ho with
  | panicked => exact (h.no_panic hs).elim
  | @committedTwice x hNone =>
    cases hs with
    | committedTwice hParked => exact (h.not_parked hParked).elim
    | live hState => simp [EphAllocation.commitState, hState] at hNone
    | dead hState => simp [EphAllocation.commitState, hState] at hNone
    | giveBack hg => cases hg
  | _ => rfl

-- ---------------------------------------------------------------------------
-- Which donors are asked
-- ---------------------------------------------------------------------------

/-- The call has moved past `v`: it asks no VM whose path is not greater. -/
def AllocCall.Behind (s : Shared) (a : AllocCall) (v : VmId) : Prop :=
  match a.pc with
  | .loop => ∃ p, a.lastPath = some p ∧ s.pathOf v ≤ p
  | .scan _ => ∃ p, a.lastPath = some p ∧ s.pathOf v ≤ p
  | .donate d _ => s.pathOf v < s.pathOf d.donorVm
  | .confirm d _ _ => s.pathOf v ≤ s.pathOf d.donorVm
  | .handBack d _ _ => s.pathOf v ≤ s.pathOf d.donorVm
  | .commit d _ _ => s.pathOf v ≤ s.pathOf d.donorVm
  | .commitState d _ _ _ => s.pathOf v ≤ s.pathOf d.donorVm
  | .giveBack _ => True
  | .done => True

/-- The donors asked since the start, the last one first, are in descending
path order and behind the call. -/
structure AskInv (s₀ s : Shared) (a : AllocCall) : Prop where
  scene : Scene s₀ s
  scanning : ∀ vms, a.pc = .scan vms → ∃ pre, AllocCall.candidates s₀ a.lastPath = pre ++ vms
  asked : ∃ new, s.asked = new ++ s₀.asked ∧
    new.Pairwise (fun v w => s₀.pathOf w < s₀.pathOf v) ∧ ∀ v ∈ new, a.Behind s₀ v

/-- The donors to ask are those in the VM list after the last one. -/
theorem candidates_congr {s s' : Shared} (h : s'.vmList = s.vmList) (last : Option SocketPath) :
    AllocCall.candidates s' last = AllocCall.candidates s last := by
  rw [AllocCall.candidates, AllocCall.candidates, h]

/-- The donors after one of the candidates are the candidates after it. -/
theorem candidates_past {s : Shared} (hKeyed : s.ListKeyed) {last : Option SocketPath} {v : VmId}
    {pre vms : List VmId} (h : AllocCall.candidates s last = pre ++ v :: vms) :
    AllocCall.candidates s (some (s.pathOf v)) = vms ∧
      ∀ p, last = some p → p < s.pathOf v := by
  obtain ⟨l₁, l₂, hSplit, -, hTail⟩ := List.map_eq_append_iff.mp h
  obtain ⟨e, l, rfl, rfl, rfl⟩ := List.map_eq_cons_iff.mp hTail
  have hIn : e ∈ s.vmList.entries ∧ _ := List.mem_filter.mp (hSplit ▸ List.mem_append_cons_self)
  have hPath : s.pathOf e.2 = e.1 := hKeyed e.1 e.2 (OrdMap.mem_entries_iff.mp hIn.1)
  have hPast : ∀ p, last = some p → p < e.1 := by
    rintro p rfl
    exact of_decide_eq_true hIn.2
  rw [hPath]
  refine ⟨?_, hPast⟩
  have hRest := OrdMap.filter_past (s.vmList.sorted.filter _) hSplit
  rw [List.filter_filter] at hRest
  rw [AllocCall.candidates, ← hRest]
  congr 1
  refine List.filter_congr fun e' _ => ?_
  cases last with
  | none => simp
  | some p =>
    have hTrans : e.1 < e'.1 → p < e'.1 := fun hLt => lt_trans (hPast p rfl) hLt
    simp only [← Bool.decide_and, decide_eq_decide]
    exact ⟨fun hLt => ⟨hLt, hTrans hLt⟩, And.left⟩

/-- A step that asks no donor and does not move back. -/
theorem AskInv.goto {s₀ s : Shared} {a a' : AllocCall} {op : Op} (h : AskInv s₀ s a)
    (hScene : Scene s₀ (op.exec s))
    (hOp : ∀ d size granted, op ≠ .ephMemDonateCapacity d size granted)
    (hScan : ∀ vms, a'.pc = .scan vms →
      ∃ pre, AllocCall.candidates s₀ a'.lastPath = pre ++ vms)
    (hBehind : ∀ v, a.Behind s₀ v → a'.Behind s₀ v) : AskInv s₀ (op.exec s) a' where
  scene := hScene
  scanning := hScan
  asked := by
    obtain ⟨new, hAsked, hOrder, hAll⟩ := h.asked
    exact ⟨new, by rw [asked_exec hOp, hAsked], hOrder, fun v hv => hBehind v (hAll v hv)⟩

/-- What a return does meanwhile changes nothing about who was asked. -/
theorem AskInv.env {s₀ s : Shared} {a : AllocCall} {op : Op} (h : AskInv s₀ s a)
    (hOp : ByReturn s a op) : AskInv s₀ (op.exec s) a := by
  refine h.goto (hOp.scene h.scene) ?_ h.scanning fun _ hv => hv
  rintro d size granted rfl
  exact hOp

/-- The call asks the donors one by one, in path order. -/
theorem AskInv.step {s₀ s : Shared} (hKeyed : s₀.ListKeyed) {a a' : AllocCall} {op : Op}
    (h : AskInv s₀ s a) (hs : AllocCall.Step s a op a')
    (hPanic : ∀ o, Emits s op o → o.panic? = none) : AskInv s₀ (op.exec s) a' := by
  have hScene := AllocCall.Step.scene h.scene hs hPanic
  cases hs with
  | @look backed rest last =>
    refine h.goto hScene nofun (fun vms hpc => ⟨[], ?_⟩) fun _ hv => hv
    rw [List.nil_append, ← candidates_congr h.scene.vmList]
    exact AllocPc.scan.inj hpc
  | @full backed rest last v vms =>
    obtain ⟨pre, hPre⟩ := h.scanning _ rfl
    refine h.goto hScene nofun (fun vms' hpc => ⟨pre ++ [v], ?_⟩) fun _ hv => hv
    cases hpc
    simpa using hPre
  | @reserve backed rest last v vms r size _ _ _ _ _ =>
    obtain ⟨pre, hPre⟩ := h.scanning _ rfl
    refine h.goto hScene nofun nofun fun w hw => ?_
    obtain ⟨p, hLast, hLe⟩ := hw
    exact lt_of_le_of_lt hLe ((candidates_past hKeyed hPre).2 p hLast)
  | @donate backed rest last d size granted =>
    -- the one step that asks
    obtain ⟨new, hAsked, hOrder, hAll⟩ := h.asked
    refine ⟨hScene, nofun, d.donorVm :: new, ?_, List.pairwise_cons.mpr ⟨hAll, hOrder⟩, ?_⟩
    · rw [Shared.asked, log_exec, List.filterMap_append]
      exact congrArg (d.donorVm :: ·) hAsked
    · intro v hv
      rcases List.mem_cons.mp hv with rfl | hv
      · exact le_refl _
      · exact le_of_lt (hAll v hv)
  | refused _ =>
    rw [h.scene.path]
    exact h.goto hScene nofun nofun fun _ hv => ⟨_, rfl, hv⟩
  | allLive =>
    rw [h.scene.path]
    exact h.goto hScene nofun nofun fun _ hv => ⟨_, rfl, hv⟩
  | backedAll => exact h.goto hScene nofun nofun fun _ _ => trivial
  | noDonor => exact h.goto hScene nofun nofun fun _ _ => trivial
  | reserveOut _ => exact h.goto hScene nofun nofun fun _ _ => trivial
  | confirmOut _ => exact h.goto hScene nofun nofun fun _ _ => trivial
  | someAbandoned => exact h.goto hScene nofun nofun fun _ _ => trivial
  | commitOut => exact h.goto hScene nofun nofun fun _ _ => trivial
  | donorSet _ => exact h.goto hScene nofun nofun fun _ _ => trivial
  | committedTwice _ => exact h.goto hScene nofun nofun fun _ _ => trivial
  | giveBack hg => cases hg <;> exact h.goto hScene nofun nofun fun _ _ => trivial
  | gaveBack _ => exact h.goto hScene nofun nofun fun _ _ => trivial
  | _ => exact h.goto hScene nofun nofun fun _ hv => hv

-- ---------------------------------------------------------------------------
-- The end of the call
-- ---------------------------------------------------------------------------

def GiveBack.left (g : GiveBack) : Nat :=
  match g.pc with
  | .send => g.ids.length + 3
  | .book todo => todo.length + 2
  | .done => 1

/-- More than the steps left to the call: 16 for each donor it may still ask,
three for each allocation it may still commit, and those of this round. -/
def AllocCall.left (s : Shared) (a : AllocCall) : Nat :=
  let after (p : Option SocketPath) := 16 * (candidates s p).length + 3 * a.rest.length
  match a.pc with
  | .loop => after a.lastPath + 2
  | .scan vms => 16 * vms.length + 3 * a.rest.length + 1
  | .donate d _ => after (some (s.pathOf d.donorVm)) + 12
  | .confirm d _ _ => after (some (s.pathOf d.donorVm)) + 11
  | .handBack d _ _ => after (some (s.pathOf d.donorVm)) + 10
  | .commit d _ abandoned => after (some (s.pathOf d.donorVm)) + 9 + abandoned.length
  | .commitState d _ _ abandoned => after (some (s.pathOf d.donorVm)) + 11 + abandoned.length
  | .giveBack g => g.left + 1
  | .done => 0

/-- Every step of a give-back leaves less to do. -/
theorem GiveBack.Step.left_lt {s : Shared} {g g' : GiveBack} {op : Op}
    (h : GiveBack.Step s g op g') : g'.left < g.left := by
  cases h with
  | sent => simp [GiveBack.left]
  | failed => simp [GiveBack.left]
  | book _ => simp [GiveBack.left]
  | booked => simp [GiveBack.left]

/-- Each step of the call lowers the bound. -/
theorem AllocCall.Step.left_lt {s₀ s : Shared} (hKeyed : s₀.ListKeyed) {a a' : AllocCall} {op : Op}
    (h : AllocCall.Step s a op a') (hAsk : AskInv s₀ s a) : a'.left s₀ < a.left s₀ := by
  cases h with
  | look =>
    rw [candidates_congr hAsk.scene.vmList]
    simp only [AllocCall.left]
    omega
  | @reserve backed rest last v vms r size _ _ _ _ _ =>
    obtain ⟨pre, hPre⟩ := hAsk.scanning _ rfl
    simp only [AllocCall.left, (candidates_past hKeyed hPre).1, List.length_cons]
    omega
  | refused _ =>
    rw [hAsk.scene.path]
    simp only [AllocCall.left]
    omega
  | allLive =>
    rw [hAsk.scene.path]
    simp only [AllocCall.left, List.length_nil]
    omega
  | someAbandoned =>
    simp only [AllocCall.left, GiveBack.left]
    omega
  | giveBack hg =>
    have hLt := hg.left_lt
    simp only [AllocCall.left]
    omega
  | _ =>
    simp [AllocCall.left]
    try omega

/-- A call to a donor can go on once nobody holds the donor's mutex. -/
theorem GiveBack.moves {s : Shared} {g : GiveBack} (hFree : s.donorLock g.donor.donorVm = none)
    (h : g.pc ≠ .done) :
    ∃ op g', g.next s (.outcome true) = some (op, g') ∧
      ∀ d n ids, op ≠ .ephMemReturnCapacity d n ids false := by
  obtain ⟨d, ids, pc⟩ := g
  cases pc with
  | send => exact ⟨_, _, rfl, fun _ _ _ => nofun⟩
  | book todo =>
    cases todo with
    | nil => exact ⟨_, _, rfl, fun _ _ _ => nofun⟩
    | cons x todo => exact ⟨_, _, if_pos hFree, fun _ _ _ => nofun⟩
  | done => exact absurd rfl h

/-- Unless it has returned, the call can move: nobody holds a donor's mutex. -/
theorem AllocCall.moves {s : Shared} (hFree : ∀ v, s.donorLock v = none) {a : AllocCall}
    (h : a.pc ≠ .done) : ∃ op a', a.Moves s op a' := by
  suffices ∃ ch, (a.next s ch).isSome by
    obtain ⟨ch, hSome⟩ := this
    obtain ⟨p, hp⟩ := Option.isSome_iff_exists.mp hSome
    exact ⟨p.1, p.2, ch, hp⟩
  obtain ⟨backed, rest, last, pc⟩ := a
  cases pc with
  | loop =>
    refine ⟨.go, ?_⟩
    simp only [AllocCall.next]
    split <;> rfl
  | scan vms =>
    refine ⟨.go, ?_⟩
    cases vms with
    | nil => rfl
    | cons v vms =>
      simp only [AllocCall.next, hFree, if_true]
      split
      · rfl
      · split <;> rfl
  | donate d size => exact ⟨.granted none, rfl⟩
  | confirm d size granted =>
    refine ⟨.go, ?_⟩
    simp only [AllocCall.next, hFree, if_true]
    split
    · rfl
    · split
      · rfl
      · split <;> rfl
  | handBack d n toRevoke => exact ⟨.outcome true, rfl⟩
  | commit d n abandoned =>
    refine ⟨.go, ?_⟩
    cases n with
    | zero =>
      simp only [AllocCall.next]
      split <;> rfl
    | succ n =>
      cases rest with
      | nil => rfl
      | cons x rest =>
        simp only [AllocCall.next]
        split <;> rfl
  | commitState d x n abandoned =>
    refine ⟨.go, ?_⟩
    simp only [AllocCall.next]
    split <;> rfl
  | giveBack g =>
    refine ⟨.outcome true, ?_⟩
    by_cases hDone : g.pc = .done
    · simp only [AllocCall.next, GiveBack.isDone, hDone, decide_true, if_true]
      rfl
    · obtain ⟨op, g', hNext, -⟩ := GiveBack.moves (hFree _) hDone
      simp only [AllocCall.next, GiveBack.isDone, hDone, hNext]
      rfl
  | done => exact absurd rfl h

/-- A call starts with nothing backed and all to back. -/
theorem GrantInv.init {s : Shared} {rsvd : List AllocId}
    (hFresh : ∀ x ∈ rsvd, (s.alloc x).donorInfo = none ∧ s.Waiting x ∧ s.Nowhere x) :
    GrantInv rsvd s (.start rsvd) where
  split := rfl
  unbacked x hx := ⟨(hFresh x hx).1, (hFresh x hx).2.1⟩
  enough := Nat.zero_le _
  flying := nofun
  grounded x hx := (hFresh x hx).2.2
  backed := nofun
  held := nofun
  dead := nofun

/-- A call starts with nobody asked. -/
theorem AskInv.init {s : Shared} (hFree : ∀ v, s.donorLock v = none) (rsvd : List AllocId) :
    AskInv s s (.start rsvd) where
  scene := ⟨rfl, rfl, hFree, rfl⟩
  scanning := nofun
  asked := ⟨[], rfl, List.Pairwise.nil, nofun⟩

/-- A call has backed a prefix of its list by the time it returns. -/
theorem GrantInv.returned {s : Shared} {rsvd : List AllocId} {a : AllocCall}
    (h : GrantInv rsvd s a) (hDone : a.pc = .done) :
    a.backed = rsvd.take a.backed.length ∧ a.rest = rsvd.drop a.backed.length := by
  have hSplit := h.split
  have hNone : a.pc.held = [] := by
    rw [hDone]
    rfl
  rw [hNone, List.append_nil] at hSplit
  rw [← hSplit, List.take_left, List.drop_left]
  exact ⟨rfl, rfl⟩

section Run

variable {s : Shared} {rsvd : List AllocId} (hKeyed : s.ListKeyed)
  (hFree : ∀ v, s.donorLock v = none) (hDistinct : rsvd.Nodup)
  (hFresh : ∀ x ∈ rsvd, (s.alloc x).donorInfo = none ∧ s.Waiting x ∧ s.Nowhere x)
include hKeyed hFree hDistinct hFresh

/-- The books of the call are in order along every run. -/
theorem AllocRuns.inv {n : Nat} {q : Shared × AllocCall} (h : AllocRuns s rsvd n q) :
    GrantInv rsvd q.1 q.2 ∧ AskInv s q.1 q.2 := by
  refine h.invariant (I := fun t a => GrantInv rsvd t a ∧ AskInv s t a) ?_ ?_ ?_
  · rintro t a op a' ⟨hGrant, hAsk⟩ ⟨ch, hNext⟩
    have hs := AllocCall.step_of_next hNext
    exact ⟨hGrant.step hDistinct hs, hAsk.step hKeyed hs fun o ho => hGrant.emits hs ho⟩
  · rintro t a op ⟨hGrant, hAsk⟩ hOp
    exact ⟨hGrant.steady hOp.steady, hAsk.env hOp⟩
  · exact ⟨.init hFresh, .init hFree rsvd⟩

/-- A run has no more steps than there is to do at the start. -/
theorem AllocRuns.bounded {n : Nat} {q : Shared × AllocCall} (h : AllocRuns s rsvd n q) :
    n ≤ (AllocCall.start rsvd).left s := by
  have hBound := Runs.bounded (I := fun t a => GrantInv rsvd t a ∧ AskInv s t a)
    (m := fun _ a => a.left s) (fun h => AllocRuns.inv hKeyed hFree hDistinct hFresh h) ?_
    (fun _ _ => le_refl _) h
  · exact le_trans (Nat.le_add_right ..) hBound
  · rintro t a op a' ⟨-, hAsk⟩ ⟨ch, hNext⟩
    exact (AllocCall.step_of_next hNext).left_lt hKeyed hAsk

/-- **Backing is an exact prefix.** For every VM list, every state of the
donors' regions and every list of freshly reserved allocations, whatever the
donors answer and the consumer abandons meanwhile: `allocate_eph_memory` ends,
it asks each donor at most once and in path order, never indexes out of range,
and backs exactly a prefix of the list. -/
theorem backing_exact_prefix :
    (∃ bound, ∀ n q, AllocRuns s rsvd n q → n ≤ bound) ∧
      ∀ n t a, AllocRuns s rsvd n (t, a) →
        (a.pc ≠ .done → ∃ op a', a.Moves t op a') ∧
        (∃ new, t.asked = new ++ s.asked ∧ new.Pairwise fun v w => s.pathOf w < s.pathOf v) ∧
        t.panics = s.panics ∧
        (a.pc = .done → ∃ b ≤ rsvd.length, a.backed = rsvd.take b ∧
          (∀ x ∈ rsvd.take b, BackedBy t x) ∧
          ∀ x ∈ rsvd.drop b, (t.alloc x).donorInfo = none ∧ t.Nowhere x) := by
  refine ⟨⟨_, fun n q hRun => AllocRuns.bounded hKeyed hFree hDistinct hFresh hRun⟩,
    fun n t a hRun => ?_⟩
  obtain ⟨hGrant, hAsk⟩ := AllocRuns.inv hKeyed hFree hDistinct hFresh hRun
  obtain ⟨new, hAsked, hOrder, -⟩ := hAsk.asked
  refine ⟨AllocCall.moves hAsk.scene.unlocked, ⟨new, hAsked, hOrder⟩, hAsk.scene.panics,
    fun hDone => ?_⟩
  obtain ⟨hTake, hDrop⟩ := hGrant.returned hDone
  have hGrounded := hGrant.grounded
  rw [hDone] at hGrounded
  refine ⟨a.backed.length, ?_, hTake, ?_, ?_⟩
  · rw [hTake, List.length_take]
    exact Nat.min_le_right ..
  · rw [← hTake]
    exact hGrant.backed
  · rw [← hDrop]
    exact fun x hx => ⟨(hGrant.unbacked x hx).1, hGrounded x hx⟩

end Run

/-- What `reserve_memory_contig` creates in a reachable state waits to be
backed. -/
theorem Reachable.newly_reserved {s : System} (h : Reachable s) {c : VmId} {size : Nat} :
    ∀ x ∈ s.shared.newIds c size,
      (((Op.reserveMemoryContig c size).exec s.shared).alloc x).donorInfo = none ∧
        (((Op.reserveMemoryContig c size).exec s.shared).alloc x).state = .pendingCommit ∧
        ((Op.reserveMemoryContig c size).exec s.shared).Nowhere x := by
  intro x hx
  obtain ⟨vm, donor, hFresh, hSteps⟩ := h
  have hCore := coreInv_steps hFresh hSteps
  have hRange := Shared.mem_newIds.mp hx
  have hNew : ((Op.reserveMemoryContig c size).exec s.shared).alloc x = _ :=
    Shared.reserve_alloc_of_new hRange
  refine ⟨by rw [hNew]; rfl, by rw [hNew]; rfl, fun d => ?_⟩
  by_contra hRec
  have hKnown := hCore.recorded_known (Bool.eq_true_of_not_eq_false hRec)
  exact absurd hKnown (Nat.not_lt.mpr hRange.1)

/-- VM 0, with given regions, and VM 1 are in the VM list. -/
def demoListed (donor : VmId → DonorState) : System :=
  orchestrator.after (initSystem demoVm donor) [.task 1 (.register 0), .task 1 (.register 1)]

/-- Two chunks have just been reserved for VM 1. -/
def demoReserved (donor : VmId → DonorState) : Shared :=
  (Op.reserveMemoryContig 1 (2 * granularity)).exec (demoListed donor).shared

/-- The call can start: nobody holds a mutex and nothing is backed. -/
theorem demoReserved_ready {donor : VmId → DonorState} (hFresh : FreshDonors donor) :
    (demoReserved donor).ListKeyed ∧ (∀ v, (demoReserved donor).donorLock v = none) ∧
      ∀ x ∈ [1, 2], ((demoReserved donor).alloc x).donorInfo = none ∧
        ((demoReserved donor).alloc x).state = .pendingCommit ∧ (demoReserved donor).Nowhere x := by
  have hReach : Reachable (demoListed donor) :=
    ⟨demoVm, donor, hFresh, Machine.steps_after rfl⟩
  have hIds : (demoListed donor).shared.newIds 1 (2 * granularity) = [1, 2] := by
    have hVm : (demoListed donor).shared.vm = demoVm := rfl
    have hAreas : (demoListed donor).shared.allocatedAreas = fun _ => .empty := rfl
    have hNext : (demoListed donor).shared.nextId = 1 := rfl
    rw [Shared.newIds, Shared.newOffsets, hVm, hAreas, hNext]
    decide +kernel
  have hNew := @Reachable.newly_reserved _ hReach 1 (2 * granularity)
  rw [hIds] at hNew
  exact ⟨hReach.listKeyed.exec _, fun _ => rfl, hNew⟩

theorem backing_exact_prefix_demo :
    (∃ bound, ∀ n q, AllocRuns (demoReserved demoDonor) [1, 2] n q → n ≤ bound) ∧
      ∀ n t a, AllocRuns (demoReserved demoDonor) [1, 2] n (t, a) → a.pc = .done →
        ∃ b ≤ 2, a.backed = [1, 2].take b := by
  obtain ⟨hKeyed, hFree, hNew⟩ := demoReserved_ready demoDonor_fresh
  obtain ⟨hEnds, hRuns⟩ := backing_exact_prefix hKeyed hFree (by decide) fun x hx =>
    ⟨(hNew x hx).1, Or.inl (hNew x hx).2.1, (hNew x hx).2.2⟩
  refine ⟨hEnds, fun n t a hRun hDone => ?_⟩
  obtain ⟨b, hLe, hBacked, -⟩ := (hRuns n t a hRun).2.2.2 hDone
  exact ⟨b, hLe, hBacked⟩

end EphMemory.Orchestrator
