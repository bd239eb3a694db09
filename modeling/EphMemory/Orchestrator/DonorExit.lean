import EphMemory.Orchestrator.Attribution

/-!
# Orchestrator — a donor leaves

`Vm::remove_vms` marks a donor as exited, collects the allocations its regions
have committed under the donor's lock, and returns them. An allocation that is
not committed yet is left to the request it belongs to; that request commits it
without a look at `exited`, and tells the guest of what it found live before.

The removal covers everything as long as

* no request commits an allocation its donor's removal has passed over, and
* no request tells of an allocation an exited donor has taken back

(`Timely`). Then, once a removal is finished, no allocation of the donor is
live, and no guest is told of one afterwards (`donor_exit_releases`).
-/

namespace EphMemory.Orchestrator

open EphMemory.Lib

-- ---------------------------------------------------------------------------
-- What a removal has before it
-- ---------------------------------------------------------------------------

/-- The allocations a removal of `v` that has the snapshot of its regions has
yet to look at. -/
def Task.toExamine (v : VmId) : Task → Option (List AllocId)
  | .detection (.donorCollect todo _ v' _) => if v' = v then some todo else none
  | .detection (.donorReturn _ v' _) => if v' = v then some [] else none
  | _ => none

/-- The allocations the call has not taken yet. -/
def ReturnCall.toTake (r : ReturnCall) : List AllocId :=
  match r.pc with
  | .organize todo _ _ => todo
  | .take x todo _ _ => x :: todo
  | .check _ _ todo _ _ => todo
  | _ => []

/-- Those it may still take. -/
def Task.toTake (v : VmId) : Task → Option (List AllocId)
  | .detection (.donorCollect todo allocs v' _) => if v' = v then some (allocs ++ todo) else none
  | .detection (.donorReturn call v' _) => if v' = v then some call.toTake else none
  | _ => none

/-- The VM a removal is working on. -/
def Task.leaver : Task → Option VmId
  | .detection (.consumerLoop v _) => some v
  | .detection (.consumerReturn _ v _) => some v
  | .detection (.donorEnter v _) => some v
  | .detection (.donorCollect _ _ v _) => some v
  | .detection (.donorReturn _ v _) => some v
  | _ => none

/-- The allocations a request has found live and has yet to tell of. -/
def Task.toTell : Task → List AllocId
  | .request ⟨_, .partition _ live _⟩ => live
  | .request ⟨_, .returnDead _ live⟩ => live
  | .request ⟨_, .respond todo _⟩ => todo
  | _ => []

/-- A request is in time for the removal of a donor: it commits an allocation
only when the removal has yet to look at it, and tells of one only when an
exited donor has not taken it back. -/
def Timely (s : System) : Op → Prop
  | .commitState x => ∀ v ∈ (s.shared.alloc x).donorVm?,
      .removalFinished v ∉ s.shared.log ∧ ∀ t ∈ s.tasks, ∀ todo ∈ t.toExamine v, x ∈ todo
  | .ephMemResponse _ x => ∀ v ∈ (s.shared.alloc x).donorVm?,
      s.shared.exited v = true → (s.shared.alloc x).state = .committed
  | _ => True

instance (s : System) (op : Op) : Decidable (Timely s op) := by
  induction op using Op.casesOn <;> dsimp only [Timely] <;> infer_instance

-- ---------------------------------------------------------------------------
-- The invariant
-- ---------------------------------------------------------------------------

/-- A removal that has the snapshot has before it all that is committed; what
a request is about to tell of has a donor. -/
structure Task.Leaving (s : Shared) (t : Task) : Prop where
  exited : ∀ v, t.leaver = some v → s.exited v = true
  collected : ∀ v l, t.toTake v = some l → ∀ x, s.BackedBy v x →
    (s.alloc x).state = .committed → x ∈ l
  backed : ∀ x ∈ t.toTell, (s.alloc x).donorInfo ≠ none

/-- The entry `newer` does not tell of an allocation whose donor's removal was
finished with the entry `older`. -/
def InTime (s : Shared) (newer older : Output) : Prop :=
  ∀ c x v, newer = .ephMemResponse c x → s.BackedBy v x → older ≠ .removalFinished v

structure ExitInv (s : System) : Prop where
  core : CoreInv s
  leaving : ∀ (i : Nat) (t : Task), s.tasks[i]? = some t → t.Leaving s.shared
  gone : ∀ v, .removalFinished v ∈ s.shared.log →
    s.shared.exited v = true ∧ ∀ x, s.shared.BackedBy v x → (s.shared.alloc x).state ≠ .committed
  told : ∀ c x, .ephMemResponse c x ∈ s.shared.log → (s.shared.alloc x).donorInfo ≠ none
  inTime : s.shared.log.Pairwise (InTime s.shared)

section Exec

variable {s : System} {op : Op} {v : VmId} {x : AllocId}

/-- What is committed has its donor. -/
theorem CoreInv.committed_donor (h : CoreInv s) (hx : (s.shared.alloc x).state = .committed) :
    (s.shared.alloc x).donorInfo ≠ none :=
  h.tokens.parked_donorInfo (by simp [EphAllocation.parked, hx])

/-- An allocation is committed by its commit, with the donor it has, and stays
so until it is claimed or abandoned. -/
theorem committed_exec (h : CoreInv s) (hBacked : (op.exec s.shared).BackedBy v x)
    (hx : ((op.exec s.shared).alloc x).state = .committed) :
    s.shared.BackedBy v x ∧ ((s.shared.alloc x).state = .committed ∧ op ≠ .abandon x ∨
      op = .commitState x) := by
  have hChange := allocChange_exec op s.shared x
  unfold Shared.BackedBy at hBacked ⊢
  generalize (op.exec s.shared).alloc x = a at hChange hBacked hx
  cases hChange with
  | same hNot => exact ⟨hBacked, Or.inl ⟨hx, hNot⟩⟩
  | created => cases hx
  | @donorSet d =>
    cases hInfo : (s.shared.alloc x).donorInfo with
    | none => exact absurd hInfo (h.committed_donor hx)
    | some d' =>
      refine ⟨?_, Or.inl ⟨hx, by simp⟩⟩
      rw [EphAllocation.donorVm?, hInfo] at hBacked ⊢
      exact hBacked
  | committed => exact ⟨hBacked, Or.inr rfl⟩
  | claimed => cases hx
  | abandoned => cases hx
  | requested => exact ⟨hBacked, Or.inl ⟨hx, by simp⟩⟩
  | marked => exact ⟨hBacked, Or.inl ⟨hx, by simp⟩⟩

/-- An allocation keeps its donor. -/
theorem donorVm?_exec (h : CoreInv s) (hx : (s.shared.alloc x).donorInfo ≠ none) :
    ((op.exec s.shared).alloc x).donorInfo = (s.shared.alloc x).donorInfo := by
  have hKnown : x < s.shared.nextId := by
    by_contra hNot
    rw [h.untouched x hNot] at hx
    exact hx rfl
  obtain ⟨d, hd⟩ := Option.ne_none_iff_exists'.mp hx
  rw [((evolves_exec op s.shared).alloc x hKnown).donor d hd, hd]

/-- A committed allocation is in the books of the region that backs it. -/
theorem CoreInv.recorded_of_committed (h : CoreInv s) (hBacked : s.shared.BackedBy v x)
    (hx : (s.shared.alloc x).state = .committed) :
    ∃ r ∈ (s.shared.donor v).donatableRegions, x ∈ r.allocations.values := by
  obtain ⟨d, hd, rfl⟩ := Option.map_eq_some_iff.mp hBacked
  have hParked : (s.shared.alloc x).parkedAt d = true := by
    simp [EphAllocation.parkedAt, EphAllocation.parked, hx, hd]
  have hTotal := h.tokens.book d x
  have hNonneg := Machine.weigh_nonneg (bookWeights_nonneg d x) s.tasks
  have hRec : s.shared.recorded d x = true := by
    by_contra hNot
    simp only [Machine.total, bookMeasure, ind_true hParked, ind_false hNot] at hTotal
    omega
  unfold Shared.recorded at hRec
  split at hRec
  · cases hRec
  · rename_i r hr
    obtain ⟨y, hy⟩ := Option.isSome_iff_exists.mp hRec
    have hOwn := (h.accounting.books d r hr).own x y hy
    subst hOwn
    exact ⟨r, region?_mem hr, OrdMap.mem_values_iff.mpr ⟨y, hy⟩⟩

end Exec

-- ---------------------------------------------------------------------------
-- The threads
-- ---------------------------------------------------------------------------

section Step

variable {tid : Tid} {s : System} {op : Op}

/-- A return takes what it has to take, and nothing escapes it but by being abandoned. -/
theorem ReturnCall.Step.mem_toTake {u : Shared} {r r' : ReturnCall}
    (h : ReturnCall.Step tid u r op r') {x : AllocId} (hx : x ∈ r.toTake) (hOp : op ≠ .abandon x) :
    x ∈ r'.toTake := by
  cases h with
  | group _ => exact hx
  | consumerGone _ => exact hx
  | organized => cases hx
  | notTaken _ => exact (List.mem_cons.mp hx).resolve_left fun heq => hOp (by rw [heq])
  | taken _ => exact (List.mem_cons.mp hx).resolve_left fun heq => hOp (by rw [heq])
  | donorThere _ => exact hx
  | donorGone _ => exact hx
  | release _ _ => cases hx
  | released _ => cases hx
  | giveBack _ _ => cases hx
  | returned _ => cases hx

/-- What the removal has before it stays complete: it passes over what is not
committed, and takes each of the others. -/
theorem Detection.Step.mem_toTake {l l' : Detection} (h : Detection.Step tid s.shared l op l')
    (hCore : CoreInv s) (hl : (Task.detection l).Leaving s.shared) {v : VmId} {todo : List AllocId}
    (hTodo : (Task.detection l').toTake v = some todo) {x : AllocId}
    (hBacked : s.shared.BackedBy v x)
    (hx : (s.shared.alloc x).state = .committed) (hOp : op ≠ .abandon x) : x ∈ todo := by
  cases h with
  | snapshot _ =>
    simp only [Task.toTake] at hTodo
    split at hTodo
    · rename_i hv
      subst hv
      cases hTodo
      obtain ⟨r, hr, hMem⟩ := hCore.recorded_of_committed hBacked hx
      exact List.mem_flatMap.mpr ⟨r, hr, hMem⟩
    · cases hTodo
  | @collect y rest allocs w vms _ =>
    refine hl.collected v todo ?_ x hBacked hx
    rw [← hTodo]
    simp [Task.toTake]
  | @passOver y rest allocs w vms hState =>
    simp only [Task.toTake] at hTodo
    split at hTodo
    · rename_i hv
      cases hTodo
      have hMem := hl.collected v (allocs ++ y :: rest) (if_pos hv) x hBacked hx
      simp only [List.mem_append, List.mem_cons] at hMem ⊢
      rcases hMem with hMem | rfl | hMem
      · exact Or.inl hMem
      · exact absurd hx hState
      · exact Or.inr hMem
    · cases hTodo
  | @collected allocs w vms =>
    refine hl.collected v todo ?_ x hBacked hx
    rw [← hTodo]
    simp [Task.toTake, ReturnCall.toTake, ReturnCall.start]
  | @donorReturn call call' w vms _ hr =>
    simp only [Task.toTake] at hTodo
    split at hTodo
    · rename_i hv
      cases hTodo
      exact hr.mem_toTake (hl.collected v call.toTake (if_pos hv) x hBacked hx) hOp
    · cases hTodo
  | _ => cases hTodo

/-- The VM a removal works on has been marked before. -/
theorem Detection.Step.leaver_exited {l l' : Detection} (h : Detection.Step tid s.shared l op l')
    (hl : (Task.detection l).Leaving s.shared) {v : VmId}
    (hv : (Task.detection l').leaver = some v) : (op.exec s.shared).exited v = true := by
  have hOld : (Task.detection l).leaver = some v → (op.exec s.shared).exited v = true := fun hOld =>
    (evolves_exec op s.shared).exited v (hl.exited v hOld)
  cases h with
  | exitConsumer =>
    cases hv
    exact Function.update_self ..
  | exitDonor _ =>
    cases hv
    exact Function.update_self ..
  | again _ => exact hOld hv
  | consumerDone _ => exact hOld hv
  | consumerReturn _ => exact hOld hv
  | consumerReturned _ => exact hOld hv
  | snapshot _ => exact hOld hv
  | collect _ => exact hOld hv
  | passOver _ => exact hOld hv
  | collected => exact hOld hv
  | donorReturn _ => exact hOld hv
  | _ => cases hv

/-- What a request is about to tell of it found live. -/
theorem Request.Step.mem_toTell {q q' : Request} (h : Request.Step tid s.shared q op q')
    {x : AllocId} (hx : x ∈ (Task.request q').toTell) :
    x ∈ (Task.request q).toTell ∨ (s.shared.alloc x).state = .committed := by
  have hAfter : ∀ c live, x ∈ (Task.request ⟨c, afterDead live⟩).toTell → x ∈ live := by
    intro c live hMem
    unfold afterDead at hMem
    split at hMem
    · cases hMem
    · exact hMem
  cases h with
  | live hLive =>
    rcases List.mem_append.mp hx with hx | hx
    · exact Or.inl hx
    · rw [List.mem_singleton.mp hx]
      right
      simp only [EphAllocation.isLive, EphAllocation.isCommitted, Bool.and_eq_true,
        decide_eq_true_eq] at hLive
      exact hLive.1.2
  | dead _ => exact Or.inl hx
  | waited => cases hx
  | allLive => exact Or.inl (hAfter _ _ hx)
  | someDead => exact Or.inl hx
  | returnDead _ => exact Or.inl hx
  | returnedDead _ => exact Or.inl (hAfter _ _ hx)
  | respond => exact Or.inl (List.mem_cons_of_mem _ hx)
  | _ => cases hx

end Step

-- ---------------------------------------------------------------------------
-- The system
-- ---------------------------------------------------------------------------

section Move

variable {s s' : System} {op : Op}

/-- The detection goes on with a donor's exit until nothing of it is committed. -/
theorem Task.Step.leaving (h : ExitInv s) {i : Tid} {t t' : Task} {started : List Task}
    (ht : s.tasks[i]? = some t) (hs : Task.Step i s.shared t op t' started) :
    t'.Leaving (op.exec s.shared) ∧ ∀ u ∈ started, u.Leaving (op.exec s.shared) := by
  have hOld := h.leaving i t ht
  cases hs with
  | @events l l' _ spawned hl =>
    refine ⟨⟨nofun, nofun, nofun⟩, fun u hu => ?_⟩
    obtain ⟨r, -, rfl⟩ := List.mem_map.mp hu
    exact ⟨nofun, nofun, nofun⟩
  | detection hl =>
    refine ⟨⟨fun v hv => hl.leaver_exited hOld hv, fun v todo hTodo x hBacked hx => ?_, nofun⟩,
      nofun⟩
    obtain ⟨hBacked, ⟨hx, hOp⟩ | rfl⟩ := committed_exec h.core hBacked hx
    · exact hl.mem_toTake h.core hOld hTodo hBacked hx hOp
    · -- only a grant commits
      rcases hl.performer with hp | hp <;> cases hp
  | request hq =>
    refine ⟨⟨nofun, nofun, fun x hx => ?_⟩, nofun⟩
    have hInfo : (s.shared.alloc x).donorInfo ≠ none :=
      (hq.mem_toTell hx).elim (hOld.backed x) h.core.committed_donor
    rw [donorVm?_exec h.core hInfo]
    exact hInfo
  | revoke hv => exact ⟨⟨nofun, nofun, nofun⟩, nofun⟩

/-- What a removal has yet to look at, it may still take. -/
theorem mem_toTake_of_examine {t : Task} {v : VmId} {l : List AllocId} {x : AllocId}
    (hl : t.toTake v = some l) (h : ∀ todo ∈ t.toExamine v, x ∈ todo) : x ∈ l := by
  unfold Task.toTake at hl
  split at hl
  · split at hl
    · rename_i hv
      cases hl
      exact List.mem_append_right _ (h _ (if_pos hv))
    · cases hl
  · split at hl
    · rename_i hv
      exact absurd (h [] (if_pos hv)) List.not_mem_nil
    · cases hl
  · cases hl

/-- What the others do does not bring anything of the donor back. -/
theorem Task.Leaving.exec (h : ExitInv s) (hTimely : Timely s op) {t : Task} (ht : t ∈ s.tasks)
    (hOld : t.Leaving s.shared) : t.Leaving (op.exec s.shared) where
  exited v hv := (evolves_exec op s.shared).exited v (hOld.exited v hv)
  collected v l hl x hBacked hx := by
    obtain ⟨hCommit, ⟨hx, -⟩ | rfl⟩ := committed_exec h.core hBacked hx
    · exact hOld.collected v l hl x hCommit hx
    · exact mem_toTake_of_examine hl ((hTimely v hCommit).2 t ht)
  backed x hx := by
    rw [donorVm?_exec h.core (hOld.backed x hx)]
    exact hOld.backed x hx

/-- Who finishes a removal has nothing left to take. -/
theorem Task.Step.removed {i : Tid} {t t' : Task} {started : List Task} {v : VmId}
    (h : Task.Step i s.shared t (.removalFinished v) t' started) (hCore : CoreInv s)
    (ht : t.Leaving s.shared) :
    s.shared.exited v = true ∧
      ∀ x, s.shared.BackedBy v x → (s.shared.alloc x).state ≠ .committed := by
  obtain ⟨l, l', rfl, rfl, hl⟩ := h.ofDetection rfl
  cases hl with
  | notDonor hNone =>
    refine ⟨ht.exited v rfl, fun x hBacked hx => ?_⟩
    obtain ⟨r, hr, -⟩ := hCore.recorded_of_committed hBacked hx
    rw [hNone] at hr
    cases hr
  | @donorReturned call _ vms hDone =>
    refine ⟨ht.exited v rfl, fun x hBacked hx => ?_⟩
    have hMem := ht.collected v call.toTake (if_pos rfl) x hBacked hx
    rw [ReturnCall.toTake, hDone] at hMem
    cases hMem
  | consumerReturn hr => cases hr.performer
  | donorReturn hr => cases hr.performer

/-- A request tells of what it was about to tell of. -/
theorem Task.Step.tells {i : Tid} {t t' : Task} {started : List Task} {c : VmId} {x : AllocId}
    (h : Task.Step i s.shared t (.ephMemResponse c x) t' started) : x ∈ t.toTell := by
  obtain ⟨q, q', rfl, rfl, hq⟩ := h.ofRequest rfl
  cases hq with
  | respond => exact List.mem_cons_self ..
  | allocate hc => rcases hc.performer with hp | hp <;> cases hp
  | drop hr => cases hr.performer
  | returnDead hr => cases hr.performer
  | returnAll hr => cases hr.performer

/-- A consumer is told of allocations that have a donor. -/
theorem ExitInv.tells (h : ExitInv s) {c : VmId} {x : AllocId}
    (hm : orchestrator.Move s (.ephMemResponse c x) s') : (s.shared.alloc x).donorInfo ≠ none := by
  rcases move_cases hm with ⟨i, t, t', started, ht, hs, -⟩ | ⟨started, hs, -⟩
  · exact (h.leaving i t ht).backed x hs.tells
  · cases hs

/-- What is told of an allocation in a move was told before, or is told now. -/
theorem ExitInv.told_exec (h : ExitInv s) (hm : orchestrator.Move s op s') {c : VmId} {x : AllocId}
    (hMem : .ephMemResponse c x ∈ (op.exec s.shared).log) :
    (s.shared.alloc x).donorInfo ≠ none := by
  rcases mem_log_exec hMem with hEmit | hOld
  · cases hEmit
    exact h.tells hm
  · exact h.told c x hOld

/-- Once a removal is finished nothing of the donor is committed any more. -/
theorem ExitInv.gone_move (h : ExitInv s) (hm : orchestrator.Move s op s') (hTimely : Timely s op)
    {v : VmId} (hMem : .removalFinished v ∈ (op.exec s.shared).log) :
    (op.exec s.shared).exited v = true ∧
      ∀ x, (op.exec s.shared).BackedBy v x → ((op.exec s.shared).alloc x).state ≠ .committed := by
  have hBefore : s.shared.exited v = true ∧
      (∀ x, s.shared.BackedBy v x → (s.shared.alloc x).state ≠ .committed) ∧
        ∀ x, op = .commitState x → ¬s.shared.BackedBy v x := by
    rcases mem_log_exec hMem with hEmit | hOld
    · generalize ho : Output.removalFinished v = o at hEmit
      cases hEmit with
      | finished =>
        cases ho
        rcases move_cases hm with ⟨i, t, t', started, ht, hs, -⟩ | ⟨started, hs, -⟩
        · obtain ⟨hExited, hNone⟩ := hs.removed h.core (h.leaving i t ht)
          exact ⟨hExited, hNone, by simp⟩
        · cases hs
      | _ => cases ho
    · obtain ⟨hExited, hNone⟩ := h.gone v hOld
      refine ⟨hExited, hNone, ?_⟩
      rintro x rfl hBacked
      exact (hTimely v hBacked).1 hOld
  obtain ⟨hExited, hNone, hNot⟩ := hBefore
  refine ⟨(evolves_exec op s.shared).exited v hExited, fun x hBacked hx => ?_⟩
  obtain ⟨hBacked, ⟨hx, -⟩ | hCommit⟩ := committed_exec h.core hBacked hx
  · exact hNone x hBacked hx
  · exact hNot x hCommit hBacked

/-- Nobody is told of an allocation after its donor's removal has finished. -/
theorem ExitInv.inTime_exec (h : ExitInv s) (hm : orchestrator.Move s op s')
    (hTimely : Timely s op) : (op.exec s.shared).log.Pairwise (InTime (op.exec s.shared)) := by
  have hSame : ∀ c x v, .ephMemResponse c x ∈ (op.exec s.shared).log →
      (op.exec s.shared).BackedBy v x → s.shared.BackedBy v x := by
    intro c x v hMem hBacked
    have hInfo : ((op.exec s.shared).alloc x).donorInfo = (s.shared.alloc x).donorInfo :=
      donorVm?_exec h.core (h.told_exec hm hMem)
    rwa [Shared.BackedBy, EphAllocation.donorVm?, hInfo] at hBacked
  have hOut : ∀ o, o ∈ op.outputs s.shared → o ∈ (op.exec s.shared).log := fun o ho => by
    rw [log_exec]
    exact List.mem_append_left _ ho
  rw [log_exec, List.pairwise_append]
  refine ⟨?_, ?_, ?_⟩
  · refine List.pairwise_of_forall_mem_list ?_
    rintro o ho o' ho' c x v rfl - rfl
    have hResponse := emits_of_mem ho
    have hFinished := emits_of_mem ho'
    cases hResponse
    cases hFinished
  · refine h.inTime.imp_of_mem ?_
    rintro o o' ho - hOld c x v rfl hBacked
    refine hOld c x v rfl (hSame c x v ?_ hBacked)
    exact (evolves_exec op s.shared).log.mem ho
  · rintro o ho o' ho' c x v rfl hBacked rfl
    have hResponse := emits_of_mem ho
    have hOld := hSame c x v (hOut _ ho) hBacked
    cases hResponse
    obtain ⟨hExited, hNone⟩ := h.gone v ho'
    exact hNone x hOld (hTimely v hOld hExited)

/-- The invariant holds on along a timely run. -/
theorem ExitInv.move (h : ExitInv s) (hm : orchestrator.Move s op s') (hTimely : Timely s op) :
    ExitInv s' := by
  have hShared : s'.shared = op.exec s.shared := hm.shared_eq
  refine ⟨h.core.move hm, ?_, ?_, ?_, ?_⟩
  · refine forall_tasks (J := fun _ s t => t.Leaving s) hm h.leaving
      (fun i t t' started ht hs => ?_) (fun started hs j u hu => ?_) (fun j u hu hOld => ?_)
    · have hNext := hs.leaving h ht
      exact ⟨hNext.1, fun _ => hNext.2⟩
    · cases hs with
      | request =>
        rw [List.mem_singleton.mp hu]
        exact ⟨nofun, nofun, nofun⟩
      | _ => cases hu
    · exact hOld.exec h hTimely (List.mem_of_getElem? hu)
  · rw [hShared]
    exact fun v => h.gone_move hm hTimely
  · rw [hShared]
    intro c x hMem
    have hInfo := h.told_exec hm hMem
    rw [donorVm?_exec h.core hInfo]
    exact hInfo
  · rw [hShared]
    exact h.inTime_exec hm hTimely

theorem exitInv_init {vm : VmId → Vm} {donor : VmId → DonorState} (hFresh : FreshDonors donor) :
    ExitInv (initSystem vm donor) where
  core := coreInv_init hFresh
  leaving := by
    intro i t ht
    have hMem := List.mem_of_getElem? ht
    simp only [initSystem, List.mem_cons, List.not_mem_nil, or_false] at hMem
    rcases hMem with rfl | rfl <;>
    · constructor
      · intro v hv
        cases hv
      · intro v l hl
        cases hl
      · intro x hx
        cases hx
  gone := by
    intro v hv
    cases hv
  told := by
    intro c x hx
    cases hx
  inTime := .nil

end Move

-- ---------------------------------------------------------------------------
-- What is left of a donor
-- ---------------------------------------------------------------------------

/-- A guest was told of `x` after the removal of `v` had finished. -/
def ToldAfter (s : Shared) (v : VmId) (x : AllocId) : Prop :=
  ∃ c l₁ l₂, s.log = l₁ ++ .ephMemResponse c x :: l₂ ∧ .removalFinished v ∈ l₂

/-- A log in time has nothing told after the end. -/
theorem not_toldAfter {s : Shared} (h : s.log.Pairwise (InTime s)) {v : VmId} {x : AllocId}
    (hBacked : s.BackedBy v x) : ¬ToldAfter s v x := by
  rintro ⟨c, l₁, l₂, hLog, hMem⟩
  rw [hLog] at h
  have hLater := (List.pairwise_append.mp h).2.1
  exact (List.pairwise_cons.mp hLater).1 _ hMem c x v rfl hBacked rfl

theorem ReachableBy.exitInv {s : System} (h : ReachableBy Timely s) : ExitInv s := by
  obtain ⟨vm, donor, hFresh, hRun⟩ := h
  exact hRun.invariant (fun _ _ _ hInv hm hTimely => hInv.move hm hTimely) (exitInv_init hFresh)

/-- **A donor's exit releases everything.** In every run whose requests are in
time for the removals: once the removal of `v` is finished no allocation it
backs is live, and no guest is told of one. -/
theorem donor_exit_releases {s : System} (h : ReachableBy Timely s) {v : VmId} {x : AllocId}
    (hBacked : s.shared.BackedBy v x) :
    (.removalFinished v ∈ s.shared.log → (s.shared.alloc x).isLive = false) ∧
      ¬ToldAfter s.shared v x := by
  have hInv := h.exitInv
  refine ⟨fun hMem => ?_, not_toldAfter hInv.inTime hBacked⟩
  have hNot := (hInv.gone v hMem).2 x hBacked
  simp [EphAllocation.isLive, EphAllocation.isCommitted, hNot]

/-- The request of VM 1 is answered and done; then its donor leaves, which
collects allocation 1, abandons it and returns it. -/
def demoDonorLeaves : List (Label Op Choice) :=
  demoTold ++ [.task 2 .go, .task 2 .go, .task 1 (.remove [0]), .task 1 .go,
    -- collect
    .task 1 .go, .task 1 .go, .task 1 .go,
    -- group, take, look for the donor, release
    .task 1 .go, .task 1 .go, .task 1 .go, .task 1 .go,
    .task 1 (.sub 0 .go), .task 1 (.sub 0 .go), .task 1 (.sub 0 .go),
    .task 1 (.sub 0 (.outcome true)), .task 1 (.sub 0 .timeout), .task 1 (.sub 0 .go),
    -- nothing is returned to a donor that is gone
    .task 1 .go, .task 1 .go, .task 1 .go]

theorem demoDonorLeaves_runs : (orchestrator.runIf (fun s op => decide (Timely s op)) demo
    demoDonorLeaves).isSome = true := by decide +kernel

theorem donor_exit_releases_demo :
    .removalFinished 0 ∈ (demoAfter demoDonorLeaves).shared.log ∧
    (demoAfter demoDonorLeaves).shared.BackedBy 0 1 ∧
    .ephMemResponse 1 1 ∈ (demoAfter demoDonorLeaves).shared.log ∧
    ((demoAfter demoDonorLeaves).shared.alloc 1).isLive = false ∧
    ¬ToldAfter (demoAfter demoDonorLeaves).shared 0 1 := by
  have hFinished : .removalFinished 0 ∈ (demoAfter demoDonorLeaves).shared.log := by
    decide +kernel
  have hBacked : (demoAfter demoDonorLeaves).shared.BackedBy 0 1 := by decide +kernel
  obtain ⟨hLive, hTold⟩ := donor_exit_releases (demo_reachableBy demoDonorLeaves_runs) hBacked
  exact ⟨hFinished, hBacked, by decide +kernel, hLive hFinished, hTold⟩

/-- The donor leaves between the two halves of `commit_allocation`: its removal
passes over allocation 1, and the request goes on with it to its end. -/
def lateCommit : List (Label Op Choice) :=
  demoCommit.dropLast ++ [.task 1 (.remove [0]), .task 1 .go,
    -- pass over allocation 1, return nothing
    .task 1 .go, .task 1 .go, .task 1 .go, .task 1 .go, .task 1 .go, .task 1 .go, .task 1 .go,
    .task 1 .go] ++
  -- commit it, leave `allocate_eph_memory`, drop nothing, add
  [.task 2 .go] ++ demoAdded.drop demoCommit.length ++ demoTold.drop demoAdded.length ++
  [.task 2 .go, .task 2 .go]

theorem lateCommit_runs : (orchestrator.run demo lateCommit).isSome = true := by decide +kernel

/-- The removal and the request are finished, and allocation 1 is live; the
guest was told of it after the removal. -/
theorem donor_exit_misses :
    ∃ s, Reachable s ∧ .removalFinished 0 ∈ s.shared.log ∧
      s.tasks = [.events .idle, .detection .idle, .request ⟨1, .returned⟩] ∧
      s.shared.BackedBy 0 1 ∧ (s.shared.alloc 1).isLive = true ∧ ToldAfter s.shared 0 1 := by
  refine ⟨_, demo_reachable lateCommit_runs, by decide +kernel, by decide +kernel,
    by decide +kernel, by decide +kernel, ?_⟩
  have hLog : (demoAfter lateCommit).shared.log = [] ++ .ephMemResponse 1 1 ::
      (demoAfter lateCommit).shared.log.tail := by decide +kernel
  exact ⟨1, [], _, hLog, by decide +kernel⟩

end EphMemory.Orchestrator
