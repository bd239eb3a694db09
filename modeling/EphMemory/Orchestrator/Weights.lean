import EphMemory.Lib.Count
import EphMemory.Orchestrator.Steps

/-!
# Orchestrator — weights of the threads

The conservation laws of the orchestrator weigh what each thread is holding:
the allocations it still has to back, the claims it still has to return, the
releases it still has to send. `Weights` says how much each kind of call
weighs; a thread weighs what the call it is in weighs.

* `Weights.Pays` — every step pays, out of the weight of its call, for what its
  operation adds to the shared state;
* `Weights.total_le` — then the total of shared state and threads never grows.
-/

namespace EphMemory.Orchestrator

open EphMemory.Lib

-- ---------------------------------------------------------------------------
-- Counting
-- ---------------------------------------------------------------------------

/-- A reservation creates the next free identifiers, each once. -/
theorem cnt_newIds (x : AllocId) (s : Shared) (c : VmId) (size : Nat) :
    cnt x (s.newIds c size) =
      ind (s.nextId ≤ x ∧ x < s.nextId + (s.newOffsets c size).length) := by
  by_cases h : x ∈ s.newIds c size
  · have hOne : (s.newIds c size).count x = 1 :=
      List.count_eq_one_of_mem (List.nodup_range' ..) h
    rw [ind_true (Shared.mem_newIds.mp h)]
    unfold cnt
    rw [hOne]
    rfl
  · rw [ind_false fun hx => h (Shared.mem_newIds.mpr hx)]
    exact cnt_eq_zero_iff.mpr h

/-- The entries an operation writes that can pass the test `p`. -/
theorem tally_outputs_eq_zero {p : Output → Bool} {op : Op} {s : Shared}
    (h : ∀ o, Emits s op o → p o = false) : tally p (op.outputs s) = 0 := by
  have hNonneg := tally_nonneg p (op.outputs s)
  have hNot : ¬ 1 ≤ tally p (op.outputs s) := by
    intro hOne
    obtain ⟨o, ho, hp⟩ := one_le_tally_iff.mp hOne
    rw [h o (emits_of_mem ho)] at hp
    cases hp
  omega

-- ---------------------------------------------------------------------------
-- Weights
-- ---------------------------------------------------------------------------

/-- The call of `return_eph_memory_from_consumer` a thread is in. -/
def Task.returns : Task → Option ReturnCall
  | .request ⟨_, .returnDead call _⟩ => some call
  | .request ⟨_, .returnAll call⟩ => some call
  | .revoke ⟨_, .giveBack call⟩ => some call
  | .detection (.consumerReturn call _ _) => some call
  | .detection (.donorReturn call _ _) => some call
  | _ => none

/-- What the calls of a thread weigh. -/
structure Weights where
  /-- The reservation loop of a request. -/
  rsvd : List AllocId → Int
  alloc : AllocCall → Int
  release : ReleaseCall → Int
  ret : ReturnCall → Int
  /-- The selection loop of a revoke. -/
  claimed : List AllocId → Int

namespace Weights

def request (W : Weights) : Request → Int
  | ⟨_, .reserve _ rsvd⟩ => W.rsvd rsvd
  | ⟨_, .allocate call _⟩ => W.alloc call
  | ⟨_, .drop call _⟩ => W.release call
  | ⟨_, .returnDead call _⟩ => W.ret call
  | ⟨_, .returnAll call⟩ => W.ret call
  | _ => 0

def revoke (W : Weights) : Revoke → Int
  | ⟨_, .select _ claimed _⟩ => W.claimed claimed
  | ⟨_, .giveBack call⟩ => W.ret call
  | _ => 0

def detection (W : Weights) : Detection → Int
  | .consumerReturn call _ _ => W.ret call
  | .donorReturn call _ _ => W.ret call
  | _ => 0

def task (W : Weights) : Task → Int
  | .events _ => 0
  | .detection l => W.detection l
  | .request q => W.request q
  | .revoke v => W.revoke v

theorem request_afterDead (W : Weights) (c : VmId) (live : List AllocId) :
    W.request ⟨c, Request.afterDead live⟩ = 0 := by
  unfold Request.afterDead
  split <;> rfl

/-- Where no call weighs less than nothing, no thread does. -/
theorem task_nonneg {W : Weights} (hRsvd : ∀ l, 0 ≤ W.rsvd l) (hAlloc : ∀ a, 0 ≤ W.alloc a)
    (hRelease : ∀ r, 0 ≤ W.release r) (hRet : ∀ r, 0 ≤ W.ret r) (hClaimed : ∀ l, 0 ≤ W.claimed l)
    (t : Task) : 0 ≤ W.task t := by
  cases t with
  | events l => exact Int.le_refl 0
  | detection l => cases l <;> first | exact hRet _ | exact Int.le_refl 0
  | request q =>
    obtain ⟨c, pc⟩ := q
    cases pc <;>
      first | exact hRsvd _ | exact hAlloc _ | exact hRelease _ | exact hRet _ | exact Int.le_refl 0
  | revoke v =>
    obtain ⟨d, pc⟩ := v
    cases pc <;> first | exact hClaimed _ | exact hRet _ | exact Int.le_refl 0

end Weights

/-- The operations a thread makes outside the calls, reservations and claims
apart. -/
def Op.plain : Op → Bool
  | .nop => true
  | .unlockDonor _ => true
  | .beginRevoke _ _ _ => true
  | .bookDebt _ _ => true
  | .cxlAddDynamicCapacity _ _ _ => true
  | .ephMemResponse _ _ => true
  | .nextEvent => true
  | .signalAddDc _ _ _ => true
  | .releaseGaps _ _ _ => true
  | .signalReleaseDc _ _ _ => true
  | .register _ => true
  | .unregister _ => true
  | .setExited _ => true
  | .beginSnapshot _ _ => true
  | .removalFinished _ => true
  | .requestDone _ => true
  | .startRequest _ _ => true
  | .emitAdd _ _ _ => true
  | .emitRelease _ _ _ => true
  | .emitRevoke _ _ _ => true
  | _ => false

/-- The operations of `release_reserved_memory`. -/
def Op.ofRelease : Op → Bool
  | .nop => true
  | .lockConsumer _ _ => true
  | .unlockConsumer _ => true
  | .claimRelease _ _ _ _ => true
  | .cxlReleaseDynamicCapacity _ _ _ _ => true
  | .releaseTimedOut _ _ => true
  | .removeAreas _ _ _ => true
  | _ => false

/-- The operations of `return_eph_memory_from_consumer`. -/
def Op.ofReturn : Op → Bool
  | .abandon _ => true
  | .ephMemReturnCapacity _ _ _ _ => true
  | .bookkeep _ _ => true
  | op => op.ofRelease

/-- A release performs nothing but the operations of a release. -/
theorem ReleaseCall.Step.ofRelease {tid : Tid} {s : Shared} {r r' : ReleaseCall} {op : Op}
    (h : ReleaseCall.Step tid s r op r') : op.ofRelease = true := by
  cases h <;> rfl

/-- A return performs these, takes allocations and gives capacity back. -/
theorem ReturnCall.Step.ofReturn {tid : Tid} {s : Shared} {r r' : ReturnCall} {op : Op}
    (h : ReturnCall.Step tid s r op r') : op.ofReturn = true := by
  cases h with
  | release _ hr => cases hr <;> rfl
  | giveBack _ hg => cases hg <;> rfl
  | _ => rfl

/-- Every step pays for what its operation adds: `g` is that gain, operation by
operation, in the state the step is made in. -/
structure Weights.Pays (W : Weights) (g : Op → Int) (c : System) : Prop where
  plain : ∀ op, op.plain = true → g op ≤ 0
  rsvd_nil : W.rsvd [] = 0
  reserve : ∀ v n l,
    W.rsvd (l ++ c.shared.newIds v n) + g (.reserveMemoryContig v n) ≤ W.rsvd l
  reserved : ∀ l, W.alloc (.start l) ≤ W.rsvd l
  alloc : ∀ (i : Nat) v call call' l op,
    c.tasks[i]? = some (Task.request ⟨v, .allocate call l⟩) →
    AllocCall.Step c.shared call op call' → W.alloc call' + g op ≤ W.alloc call
  allocated : ∀ v call, call.pc = .done →
    W.release ⟨v, call.rest, [], .enter⟩ ≤ W.alloc call
  release : ∀ tid r r' op, ReleaseCall.Step tid c.shared r op r' →
    W.release r' + g op ≤ W.release r
  released : ∀ r, r.pc = .done → 0 ≤ W.release r
  start : ∀ l, W.ret (.start l) ≤ 0
  ret : ∀ (i : Nat) t r r' op, c.tasks[i]? = some t → t.returns = some r →
    ReturnCall.Step i c.shared r op r' → W.ret r' + g op ≤ W.ret r
  returned : ∀ r, r.pc = .done → 0 ≤ W.ret r
  claimed_nil : W.claimed [] ≤ 0
  claim : ∀ d x l, (c.shared.alloc x).state = .committed →
    W.claimed (l ++ [x]) + g (.tryClaim d x) ≤ W.claimed l
  pass : ∀ d x, (c.shared.alloc x).state ≠ .committed → g (.tryClaim d x) ≤ 0
  giveBack : ∀ l, W.ret (.start l) ≤ W.claimed l

namespace Weights

variable {W : Weights} {g : Op → Int} {c : System}

/-- A request pays, since the call it is in does and what passes from one call
to the next keeps its weight. -/
theorem Pays.request (h : W.Pays g c) {i : Nat} {q q' : Request} {op : Op}
    (ht : c.tasks[i]? = some (.request q)) (hStep : Request.Step i c.shared q op q') :
    W.request q' + g op ≤ W.request q := by
  have hNop : g .nop ≤ 0 := h.plain _ rfl
  have hNil := h.rsvd_nil
  cases hStep with
  | rounded _ =>
    show W.rsvd [] + g .nop ≤ 0
    omega
  | reserve _ _ => exact h.reserve _ _ _
  | noRoom =>
    show 0 + g .nop ≤ W.rsvd []
    omega
  | @reserved v remaining rsvd =>
    have hl := h.reserved rsvd
    show W.alloc (.start rsvd) + g .nop ≤ W.rsvd rsvd
    omega
  | allocate hc => exact h.alloc _ _ _ _ _ _ ht hc
  | @allocated v call rsvd hd =>
    have hl := h.allocated v call hd
    show W.release _ + g .nop ≤ W.alloc call
    omega
  | drop hr => exact h.release _ _ _ _ hr
  | @dropped v call rsvd hd =>
    have hl := h.released call hd
    show 0 + g .nop ≤ W.release call
    omega
  | @added v rsvd =>
    have hl := h.plain (.cxlAddDynamicCapacity v rsvd true) rfl
    show 0 + g _ ≤ 0
    omega
  | @addFailed v rsvd =>
    have hl := h.plain (.cxlAddDynamicCapacity v rsvd false) rfl
    have hs := h.start rsvd
    show W.ret (.start rsvd) + g _ ≤ 0
    omega
  | allLive =>
    rw [request_afterDead]
    show 0 + g .nop ≤ 0
    omega
  | @someDead v live dead =>
    have hs := h.start dead
    show W.ret (.start dead) + g .nop ≤ 0
    omega
  | returnDead hr => exact h.ret _ _ _ _ _ ht rfl hr
  | @returnedDead v call live hd =>
    have hl := h.returned call hd
    rw [request_afterDead]
    show 0 + g .nop ≤ W.ret call
    omega
  | @respond v todo live x =>
    have hl := h.plain (.ephMemResponse v x) rfl
    show 0 + g _ ≤ 0
    omega
  | @respondFailed v todo live x =>
    have hs := h.start live
    show W.ret (.start live) + g .nop ≤ 0
    omega
  | returnAll hr => exact h.ret _ _ _ _ _ ht rfl hr
  | @requestDone v ok =>
    have hl := h.plain (.requestDone v) rfl
    show 0 + g _ ≤ 0
    omega
  | @returnedAll v call hd =>
    have hl := h.returned call hd
    show 0 + g .nop ≤ W.ret call
    omega
  | _ =>
    show 0 + g .nop ≤ 0
    omega

/-- A revoke pays: what it claims weighs what the return that takes it over does. -/
theorem Pays.revoke (h : W.Pays g c) {i : Nat} {v v' : Revoke} {op : Op}
    (ht : c.tasks[i]? = some (.revoke v)) (hStep : Revoke.Step i c.shared v op v') :
    W.revoke v' + g op ≤ W.revoke v := by
  have hNop : g .nop ≤ 0 := h.plain _ rfl
  cases hStep with
  | nothing =>
    show 0 + g .nop ≤ 0
    omega
  | @enter d size aligned r _ _ _ =>
    have hl := h.plain (.beginRevoke d aligned i) rfl
    have hc := h.claimed_nil
    show W.claimed [] + g _ ≤ 0
    omega
  | @enough d todo claimed remaining _ =>
    have hl := h.plain (.bookDebt d remaining) rfl
    have hc := h.giveBack claimed
    show W.ret (.start claimed) + g _ ≤ W.claimed claimed
    omega
  | claim _ hs => exact h.claim _ _ _ hs
  | @pass d todo claimed x remaining hs =>
    have hl := h.pass d x hs
    show W.claimed claimed + g _ ≤ W.claimed claimed
    omega
  | giveBack hr => exact h.ret _ _ _ _ _ ht rfl hr
  | @gaveBack d call hd =>
    have hl := h.returned call hd
    show 0 + g .nop ≤ W.ret call
    omega

/-- The detection pays for the returns it makes. -/
theorem Pays.detection (h : W.Pays g c) {i : Nat} {l l' : Detection} {op : Op}
    (ht : c.tasks[i]? = some (.detection l)) (hStep : Detection.Step i c.shared l op l') :
    W.detection l' + g op ≤ W.detection l := by
  cases hStep with
  | @again v vms _ =>
    have hl := h.plain .nop rfl
    have hs := h.start (Detection.unrequested c.shared v)
    show W.ret _ + g .nop ≤ 0
    omega
  | consumerReturn hr => exact h.ret _ _ _ _ _ ht rfl hr
  | @consumerReturned call v vms hd =>
    have hl := h.plain .nop rfl
    have hs := h.returned call hd
    show 0 + g .nop ≤ W.ret call
    omega
  | @collected allocs v vms =>
    have hl := h.plain (.unlockDonor v) rfl
    have hs := h.start allocs
    show W.ret (.start allocs) + g _ ≤ 0
    omega
  | donorReturn hr => exact h.ret _ _ _ _ _ ht rfl hr
  | @donorReturned call v vms hd =>
    have hl := h.plain (.removalFinished v) rfl
    have hs := h.returned call hd
    show 0 + g _ ≤ W.ret call
    omega
  | _ =>
    show 0 + g _ ≤ 0
    rw [Int.zero_add]
    exact h.plain _ rfl

/-- A revoke starts with nothing claimed, so starting one costs nothing. -/
theorem Pays.events (h : W.Pays g c) {l l' : EventLoop} {op : Op} {started : List Revoke}
    (hStep : EventLoop.Step c.shared l op l' started) :
    Machine.weigh W.task (started.map .revoke) + g op ≤ 0 := by
  have hEvent : g .nextEvent ≤ 0 := h.plain _ rfl
  cases hStep with
  | revokeEvent _ _ =>
    show Machine.weigh W.task [_] + g .nextEvent ≤ 0
    rw [Machine.weigh_cons, Machine.weigh_nil]
    show 0 + 0 + g .nextEvent ≤ 0
    omega
  | _ =>
    show 0 + g _ ≤ 0
    rw [Int.zero_add]
    exact h.plain _ rfl

/-- **Conservation.** When every step pays for its operation, the total of the
shared state's measure and the threads' weights does not grow. -/
theorem total_le {d : System} {op : Op} {μ : Shared → Int} (hm : orchestrator.Move c op d)
    (hExec : μ (op.exec c.shared) ≤ μ c.shared + g op) (h : W.Pays g c) :
    Machine.total μ W.task d ≤ Machine.total μ W.task c := by
  refine Orchestrator.total_le hm hExec (fun i t t' started ht hs => ?_) (fun started hs => ?_)
  · cases hs with
    | @events l l' op started hl =>
      have hp := h.events hl
      show 0 + Machine.weigh W.task (started.map .revoke) + g op ≤ 0
      omega
    | detection hl =>
      have hp := h.detection ht hl
      show W.detection _ + 0 + g op ≤ W.detection _
      omega
    | request hq =>
      have hp := h.request ht hq
      show W.request _ + 0 + g op ≤ W.request _
      omega
    | revoke hv =>
      have hp := h.revoke ht hv
      show W.revoke _ + 0 + g op ≤ W.revoke _
      omega
  · have hp : g op ≤ 0 := by cases hs <;> exact h.plain _ rfl
    cases hs with
    | request =>
      rw [Machine.weigh_cons, Machine.weigh_nil]
      show 0 + 0 + g _ ≤ 0
      omega
    | _ =>
      show 0 + g _ ≤ 0
      omega

end Weights

end EphMemory.Orchestrator
