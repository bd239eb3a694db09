import EphMemory.Lib.Minded
import EphMemory.Orchestrator.Grouping
import EphMemory.Orchestrator.Releasing

/-!
# Orchestrator — who minds an allocation

An allocation in the map of a consumer that is there is on its way to the guest
or on its way back. Whatever state it is in, some thread still has to do
something about it, or it is settled: committed, added to the device, and the
guest has been told.

* `Task.WillAsk`, `Task.HasAsked`, `Task.WillTake`, `Request.Backs`,
  `Request.Serves` — what a thread has still to do;
* `Task.Minds` — who has to act, by the state the allocation is in;
* `Task.Step.minds` — a thread does what it has to, hands it on, or the
  allocation is settled;
* `Task.Step.takesOver` — whoever changes an allocation has to act on it then;
* `MindInv`, `MindInv.move` — nobody drops an allocation.
-/

namespace EphMemory.Orchestrator

open EphMemory.Lib

-- ---------------------------------------------------------------------------
-- What is left to do
-- ---------------------------------------------------------------------------

section Todo

variable (c : VmId) (x : AllocId)

/-- The allocation is in a group of the consumer, or a release call of the
consumer has yet to look at it. -/
def ReturnCall.WillAsk (r : ReturnCall) : Prop :=
  match r.pc with
  | .organize _ cons _ => ∃ g ∈ cons, g.1 = c ∧ x ∈ g.2
  | .take _ _ cons _ => ∃ g ∈ cons, g.1 = c ∧ x ∈ g.2
  | .check _ _ _ cons _ => ∃ g ∈ cons, g.1 = c ∧ x ∈ g.2
  | .release calls _ => ∃ k ∈ calls, k.consumer = c ∧ x ∈ k.todo
  | _ => False

/-- A release call waits for the consumer to give it up. -/
def ReturnCall.HasAsked (r : ReturnCall) : Prop :=
  match r.pc with
  | .release calls _ => ∃ k ∈ calls, k.consumer = c ∧ x ∈ k.asked
  | _ => False

/-- The call a request drops its unbacked allocations with. -/
def Task.dropping : Task → Option ReleaseCall
  | .request ⟨_, .drop call _⟩ => some call
  | _ => none

/-- The thread will ask the consumer to give the allocation up. -/
def Task.WillAsk (t : Task) : Prop :=
  (∃ k, t.dropping = some k ∧ k.consumer = c ∧ x ∈ k.todo) ∨
    ∃ r, t.returns = some r ∧ r.WillAsk c x

/-- It has asked, and will see that the allocation goes. -/
def Task.HasAsked (t : Task) : Prop :=
  (∃ k, t.dropping = some k ∧ k.consumer = c ∧ x ∈ k.asked) ∨
    ∃ r, t.returns = some r ∧ r.HasAsked c x

/-- The allocations a revoke has claimed and not started to return. -/
def Task.claims : Task → List AllocId
  | .revoke ⟨_, .select _ claimed _⟩ => claimed
  | _ => []

/-- The thread will take the allocation from its consumer. -/
def Task.WillTake (t : Task) : Prop :=
  x ∈ t.claims ∨ ∃ r, t.returns = some r ∧ x ∈ r.toTake

/-- The request will ask a donor for it. -/
def Request.Backs (q : Request) : Prop :=
  match q.pc with
  | .reserve _ rsvd => x ∈ rsvd
  | .allocate call _ => x ∈ call.rest ∨ ∃ d n abandoned, call.pc = .commitState d x n abandoned
  | _ => False

/-- The guest of the allocation's consumer has been told of it. -/
def Shared.Told (s : Shared) (x : AllocId) : Prop :=
  .ephMemResponse (s.alloc x).consumerVm x ∈ s.log

/-- The request will bring it to the guest, or return it. -/
def Request.Serves (s : Shared) (q : Request) : Prop :=
  match q.pc with
  | .allocate _ rsvd => x ∈ rsvd
  | .drop _ rsvd => x ∈ rsvd
  | .retain todo kept => x ∈ todo ∨ x ∈ kept
  | .add rsvd => x ∈ rsvd
  | .wait rsvd => x ∈ rsvd
  | .partition todo live dead => x ∈ todo ∨ x ∈ dead ∨ (x ∈ live ∧ (s.alloc x).dcdSet = true)
  | .returnDead _ live => x ∈ live ∧ (s.alloc x).dcdSet = true
  | .respond todo live => x ∈ live ∧ (s.alloc x).dcdSet = true ∧ (x ∈ todo ∨ s.Told x)
  | _ => False

end Todo

/-- Who has to act, by what has become of the allocation. -/
inductive Task.Minds (x : AllocId) (s : Shared) (t : Task) : Prop
  | asked : (s.alloc x).releaseRequested = true → t.HasAsked (s.alloc x).consumerVm x →
      Minds x s t
  | asks : (s.alloc x).releaseRequested = false →
      (s.alloc x).state = .pendingCommit ∨ (s.alloc x).state = .abandoned →
      t.WillAsk (s.alloc x).consumerVm x → Minds x s t
  | backs {q : Request} : (s.alloc x).releaseRequested = false →
      (s.alloc x).state = .pendingCommit → t = .request q → q.Backs x → Minds x s t
  | takes : (s.alloc x).releaseRequested = false →
      (s.alloc x).state = .committed ∨ (s.alloc x).state = .pendingRelease → t.WillTake x →
      Minds x s t
  | serves {q : Request} : (s.alloc x).releaseRequested = false →
      (s.alloc x).state = .committed → t = .request q → q.Serves x s → Minds x s t

/-- Nothing is left to do: the guest has it and knows. -/
structure AtGuest (s : Shared) (x : AllocId) : Prop where
  committed : (s.alloc x).state = .committed
  kept : (s.alloc x).releaseRequested = false
  dcdSet : (s.alloc x).dcdSet = true
  told : s.Told x

-- ---------------------------------------------------------------------------
-- The steps of a call
-- ---------------------------------------------------------------------------

/-- The step does not request the release of `x` from `c`. -/
def Op.Spares (c : VmId) (x : AllocId) (op : Op) : Prop :=
  ∀ call taken, op ≠ .claimRelease c x call taken

section Calls

variable {tid : Tid} {s : Shared} {op : Op} {c : VmId} {x : AllocId}

/-- A release passes an allocation only by claiming it. -/
theorem ReleaseCall.Step.mem_todo {k k' : ReleaseCall} (h : ReleaseCall.Step tid s k op k')
    (hx : x ∈ k.todo) (hOp : op.Spares k.consumer x) : x ∈ k'.todo := by
  cases h with
  | enter _ => exact hx
  | claim =>
    rcases List.mem_cons.mp hx with rfl | hx
    · exact absurd rfl (hOp _ _)
    · exact hx
  | _ => cases hx

/-- What a call has asked for stays its own until its area is gone. -/
theorem ReleaseCall.Step.mem_asked {k k' : ReleaseCall} (h : ReleaseCall.Step tid s k op k')
    (hx : x ∈ k.asked)
    (hEntry : ((op.exec s).allocatedAreas k.consumer).get? (s.offsetOf x) ≠ none) :
    x ∈ k'.asked := by
  cases h with
  | claim => exact List.mem_append_left _ hx
  | claimed => exact hx
  | sent => exact hx
  | failed => exact hx
  | confirmed hGone => exact absurd (hGone x hx) hEntry
  | timedOut _ => exact hx
  | @manual c allocs taken toRelease =>
    refine absurd ?_ hEntry
    simp only [Op.exec, Shared.setAreas, Function.update_self, OrdMap.get?_eraseAll]
    exact if_pos (List.mem_map_of_mem hx)
  | _ => cases hx

theorem exists_pushGroup {κ : Type} [DecidableEq κ] {key k : κ} {y : AllocId}
    {groups : List (κ × List AllocId)} :
    (∃ g ∈ pushGroup key y groups, g.1 = k ∧ x ∈ g.2) ↔
      (k = key ∧ x = y) ∨ ∃ g ∈ groups, g.1 = k ∧ x ∈ g.2 := by
  induction groups with
  | nil =>
    simp only [pushGroup, List.mem_singleton, exists_eq_left, List.not_mem_nil, false_and,
      exists_false, or_false]
    rw [eq_comm]
  | cons g rest ih =>
    obtain ⟨k', xs⟩ := g
    rw [pushGroup]
    split
    · rename_i hKey
      subst hKey
      simp only [List.mem_cons, exists_eq_or_imp, List.mem_append, List.not_mem_nil, or_false]
      constructor
      · rintro (⟨rfl, hx | rfl⟩ | hRest)
        · exact Or.inr (Or.inl ⟨rfl, hx⟩)
        · exact Or.inl ⟨rfl, rfl⟩
        · exact Or.inr (Or.inr hRest)
      · rintro (⟨rfl, rfl⟩ | ⟨rfl, hx⟩ | hRest)
        · exact Or.inl ⟨rfl, Or.inr rfl⟩
        · exact Or.inl ⟨rfl, Or.inl hx⟩
        · exact Or.inr hRest
    · simp only [List.mem_cons, exists_eq_or_imp]
      rw [ih]
      tauto

theorem exists_set {α : Type} {P : α → Prop} {l : List α} {i : Nat} {a a' : α}
    (ha : l[i]? = some a) (hNext : P a → P a') (h : ∃ b ∈ l, P b) : ∃ b ∈ l.set i a', P b := by
  obtain ⟨b, hb, hP⟩ := h
  obtain ⟨j, hj⟩ := List.mem_iff_getElem?.mp hb
  by_cases hij : i = j
  · subst hij
    cases ha.symm.trans hj
    exact ⟨a', List.mem_set (List.getElem?_eq_some_iff.mp ha).1 _, hNext hP⟩
  · refine ⟨b, List.mem_of_getElem? (i := j) ?_, hP⟩
    rw [List.getElem?_set_ne hij, hj]

/-- A return that is to ask for a release goes on to, until it does. -/
theorem ReturnCall.Step.willAsk {r r' : ReturnCall} (h : ReturnCall.Step tid s r op r')
    (hr : r.WillAsk c x) (hOp : op.Spares c x) : r'.WillAsk c x := by
  cases h with
  | group _ => exact exists_pushGroup.mpr (Or.inr hr)
  | consumerGone _ => exact hr
  | organized =>
    obtain ⟨g, hg, hc, hx⟩ := hr
    exact ⟨_, List.mem_map_of_mem hg, hc, hx⟩
  | notTaken _ => exact hr
  | taken _ => exact hr
  | donorThere _ => exact hr
  | donorGone _ => exact hr
  | release hk hStep =>
    refine exists_set hk ?_ hr
    rintro ⟨rfl, hx⟩
    exact ⟨hStep.given_eq.2, hStep.mem_todo hx hOp⟩
  | released hDone =>
    obtain ⟨k, hk, -, hx⟩ := hr
    rw [ReleaseCall.todo, hDone k hk] at hx
    cases hx
  | giveBack _ _ => cases hr
  | returned _ => cases hr

/-- A return that has asked waits until the area is gone. -/
theorem ReturnCall.Step.hasAsked {r r' : ReturnCall} (h : ReturnCall.Step tid s r op r')
    (hr : r.HasAsked c x)
    (hEntry : ((op.exec s).allocatedAreas c).get? (s.offsetOf x) ≠ none) : r'.HasAsked c x := by
  cases h with
  | release hk hStep =>
    refine exists_set hk ?_ hr
    rintro ⟨rfl, hx⟩
    exact ⟨hStep.given_eq.2, hStep.mem_asked hx hEntry⟩
  | released hDone =>
    obtain ⟨k, hk, -, hx⟩ := hr
    rw [ReleaseCall.asked, hDone k hk] at hx
    cases hx
  | _ => cases hr

/-- A return that is done neither asks nor waits. -/
theorem ReturnCall.not_of_done {r : ReturnCall} (h : r.pc = .done) :
    ¬ r.WillAsk c x ∧ ¬ r.HasAsked c x := by
  rw [WillAsk, HasAsked, h]
  exact ⟨id, id⟩

theorem ReturnCall.toTake_of_done {r : ReturnCall} (h : r.pc = .done) : r.toTake = [] := by
  rw [toTake, h]

/-- A thread in a return goes on with it until it is done. -/
theorem Task.Step.returning {t t' : Task} {started : List Task}
    (h : Task.Step tid s t op t' started) {r : ReturnCall} (hr : t.returns = some r) :
    r.pc = .done ∨ ∃ r', t'.returns = some r' ∧ ReturnCall.Step tid s r op r' := by
  cases h with
  | events _ => cases hr
  | detection hl =>
    cases hl with
    | consumerReturn hStep =>
      cases hr
      exact Or.inr ⟨_, rfl, hStep⟩
    | donorReturn hStep =>
      cases hr
      exact Or.inr ⟨_, rfl, hStep⟩
    | consumerReturned hDone =>
      cases hr
      exact Or.inl hDone
    | donorReturned hDone =>
      cases hr
      exact Or.inl hDone
    | _ => cases hr
  | request hq =>
    cases hq with
    | returnDead hStep =>
      cases hr
      exact Or.inr ⟨_, rfl, hStep⟩
    | returnAll hStep =>
      cases hr
      exact Or.inr ⟨_, rfl, hStep⟩
    | returnedDead hDone =>
      cases hr
      exact Or.inl hDone
    | returnedAll hDone =>
      cases hr
      exact Or.inl hDone
    | _ => cases hr
  | revoke hv =>
    cases hv with
    | giveBack hStep =>
      cases hr
      exact Or.inr ⟨_, rfl, hStep⟩
    | gaveBack hDone =>
      cases hr
      exact Or.inl hDone
    | _ => cases hr

/-- A thread leaves a drop only when it is done. -/
theorem Task.Step.droppings {t t' : Task} {started : List Task}
    (h : Task.Step tid s t op t' started) {k : ReleaseCall} (hk : t.dropping = some k) :
    k.pc = .done ∨ ∃ k', t'.dropping = some k' ∧ ReleaseCall.Step tid s k op k' := by
  cases h with
  | request hq =>
    cases hq with
    | drop hStep =>
      cases hk
      exact Or.inr ⟨_, rfl, hStep⟩
    | dropped hDone =>
      cases hk
      exact Or.inl hDone
    | _ => cases hk
  | _ => cases hk

/-- A thread that is to ask for a release goes on to, until it does. -/
theorem Task.Step.willAsk {t t' : Task} {started : List Task}
    (h : Task.Step tid s t op t' started) (ht : t.WillAsk c x) (hOp : op.Spares c x) :
    t'.WillAsk c x := by
  rcases ht with ⟨k, hk, rfl, hx⟩ | ⟨r, hr, hAsk⟩
  · rcases h.droppings hk with hDone | ⟨k', hk', hStep⟩
    · rw [ReleaseCall.todo, hDone] at hx
      cases hx
    · exact Or.inl ⟨k', hk', hStep.given_eq.2, hStep.mem_todo hx hOp⟩
  · rcases h.returning hr with hDone | ⟨r', hr', hStep⟩
    · exact absurd hAsk (ReturnCall.not_of_done hDone).1
    · exact Or.inr ⟨r', hr', hStep.willAsk hAsk hOp⟩

/-- A thread that has asked waits until the area is gone. -/
theorem Task.Step.hasAsked {t t' : Task} {started : List Task}
    (h : Task.Step tid s t op t' started) (ht : t.HasAsked c x)
    (hEntry : ((op.exec s).allocatedAreas c).get? (s.offsetOf x) ≠ none) : t'.HasAsked c x := by
  rcases ht with ⟨k, hk, rfl, hx⟩ | ⟨r, hr, hAsked⟩
  · rcases h.droppings hk with hDone | ⟨k', hk', hStep⟩
    · rw [ReleaseCall.asked, hDone] at hx
      cases hx
    · exact Or.inl ⟨k', hk', hStep.given_eq.2, hStep.mem_asked hx hEntry⟩
  · rcases h.returning hr with hDone | ⟨r', hr', hStep⟩
    · exact absurd hAsked (ReturnCall.not_of_done hDone).2
    · exact Or.inr ⟨r', hr', hStep.hasAsked hAsked hEntry⟩

/-- A thread that is to take an allocation goes on to, until somebody abandons it. -/
theorem Task.Step.willTake {t t' : Task} {started : List Task}
    (h : Task.Step tid s t op t' started) (ht : t.WillTake x) (hOp : op ≠ .abandon x) :
    t'.WillTake x := by
  rcases ht with hx | ⟨r, hr, hx⟩
  · cases h with
    | revoke hv =>
      cases hv with
      | enough _ => exact Or.inr ⟨_, rfl, hx⟩
      | claim _ _ => exact Or.inl (List.mem_append_left _ hx)
      | pass _ => exact Or.inl hx
      | _ => cases hx
    | _ => cases hx
  · rcases h.returning hr with hDone | ⟨r', hr', hStep⟩
    · rw [ReturnCall.toTake_of_done hDone] at hx
      cases hx
    · exact Or.inr ⟨r', hr', hStep.mem_toTake hx hOp⟩

end Calls

-- ---------------------------------------------------------------------------
-- The steps of a request
-- ---------------------------------------------------------------------------

section Requests

variable {tid : Tid} {s : Shared} {op : Op} {x : AllocId} {q q' : Request}

/-- What a request is to ask a donor for is asked for, or dropped. -/
theorem Request.Step.backs (h : Request.Step tid s q op q') (hq : q.Backs x)
    (hOp : op ≠ .commitState x) :
    q'.Backs x ∨ ∃ k, (Task.request q').dropping = some k ∧ k.consumer = q.consumer ∧ x ∈ k.todo := by
  cases h with
  | reserve _ _ => exact Or.inl (List.mem_append_left _ hq)
  | noRoom => cases hq
  | reserved => exact Or.inl (Or.inl hq)
  | allocate hc =>
    left
    rcases hq with hx | ⟨d, n, abandoned, hpc⟩
    · cases hc with
      | setDonor _ =>
        rcases List.mem_cons.mp hx with rfl | hx
        · exact Or.inr ⟨_, _, _, rfl⟩
        · exact Or.inl hx
      | _ => exact Or.inl hx
    · cases hc with
      | committedTwice _ =>
        cases hpc
        exact absurd rfl hOp
      | live _ =>
        cases hpc
        exact absurd rfl hOp
      | dead _ =>
        cases hpc
        exact absurd rfl hOp
      | _ => cases hpc
  | allocated hDone =>
    right
    rcases hq with hx | ⟨d, n, abandoned, hpc⟩
    · exact ⟨_, rfl, rfl, hx⟩
    · rw [hDone] at hpc
      cases hpc
  | _ => cases hq

theorem serves_afterDead {c : VmId} {live : List AllocId} (hx : x ∈ live)
    (hSet : (s.alloc x).dcdSet = true) : Request.Serves x s ⟨c, Request.afterDead live⟩ := by
  unfold Request.afterDead
  split
  · rename_i hNil
    rw [hNil] at hx
    cases hx
  · exact ⟨hx, hSet, Or.inl hx⟩

/-- What a request serves it goes on to serve or returns, until it has told the
guest. -/
theorem Request.Step.serves (h : Request.Step tid s q op q') (hq : q.Serves x s)
    (hState : (s.alloc x).state = .committed) (hKept : (s.alloc x).releaseRequested = false)
    (hVm : (s.alloc x).consumerVm = q.consumer)
    (hVm' : ((op.exec s).alloc x).consumerVm = (s.alloc x).consumerVm)
    (hSet : (s.alloc x).dcdSet = true → ((op.exec s).alloc x).dcdSet = true) :
    q'.Serves x (op.exec s) ∨ (Task.request q').WillTake x ∨
      (((op.exec s).alloc x).dcdSet = true ∧ (op.exec s).Told x) := by
  have hTold : s.Told x → (op.exec s).Told x := fun hTold => by
    rw [Shared.Told, hVm']
    exact (evolves_exec op s).log.mem hTold
  have hTake : ∀ (c : VmId) (pc : RequestPc) (l : List AllocId),
      (Task.request ⟨c, pc⟩).returns = some (ReturnCall.start l) → x ∈ l →
      (Task.request ⟨c, pc⟩).WillTake x := fun c pc l hr hx => Or.inr ⟨_, hr, hx⟩
  cases h with
  | allocate _ => exact Or.inl hq
  | allocated _ => exact Or.inl hq
  | drop _ => exact Or.inl hq
  | dropped _ => exact Or.inl (Or.inl hq)
  | @keep c todo kept y _ _ =>
    left
    rcases hq with hx | hx
    · rcases List.mem_cons.mp hx with rfl | hx
      · exact Or.inr (List.mem_append_right _ (List.mem_singleton_self _))
      · exact Or.inl hx
    · exact Or.inr (List.mem_append_left _ hx)
  | @skip c todo kept y _ hGone =>
    left
    rcases hq with hx | hx
    · rcases List.mem_cons.mp hx with rfl | hx
      · rw [hKept] at hGone
        cases hGone
      · exact Or.inl hx
    · exact Or.inr hx
  | @skipOther c todo kept y hOther =>
    left
    rcases hq with hx | hx
    · rcases List.mem_cons.mp hx with rfl | hx
      · exact absurd hState hOther
      · exact Or.inl hx
    · exact Or.inr hx
  | noneKept => rcases hq with hx | hx <;> cases hx
  | kept =>
    rcases hq with hx | hx
    · cases hx
    · exact Or.inl hx
  | added => exact Or.inl hq
  | addFailed => exact Or.inr (Or.inl (hTake _ _ _ rfl hq))
  | waited => exact Or.inl (Or.inl hq)
  | @live c todo live dead y hLive =>
    left
    rcases hq with hx | hx | ⟨hx, hIn⟩
    · rcases List.mem_cons.mp hx with rfl | hx
      · refine Or.inr (Or.inr ⟨List.mem_append_right _ (List.mem_singleton_self _), ?_⟩)
        simp only [EphAllocation.isLive, Bool.and_eq_true] at hLive
        exact hLive.1.1
      · exact Or.inl hx
    · exact Or.inr (Or.inl hx)
    · exact Or.inr (Or.inr ⟨List.mem_append_left _ hx, hIn⟩)
  | @dead c todo live dead y _ =>
    left
    rcases hq with hx | hx | hx
    · rcases List.mem_cons.mp hx with rfl | hx
      · exact Or.inr (Or.inl (List.mem_append_right _ (List.mem_singleton_self _)))
      · exact Or.inl hx
    · exact Or.inr (Or.inl (List.mem_append_left _ hx))
    · exact Or.inr (Or.inr hx)
  | allLive =>
    rcases hq with hx | hx | ⟨hx, hIn⟩
    · cases hx
    · cases hx
    · exact Or.inl (serves_afterDead hx hIn)
  | someDead =>
    rcases hq with hx | hx | hx
    · cases hx
    · exact Or.inr (Or.inl (hTake _ _ _ rfl hx))
    · exact Or.inl hx
  | returnDead _ => exact Or.inl ⟨hq.1, hSet hq.2⟩
  | returnedDead _ => exact Or.inl (serves_afterDead hq.1 hq.2)
  | responded =>
    obtain ⟨-, hIn, hx | hx⟩ := hq
    · cases hx
    · exact Or.inr (Or.inr ⟨hIn, hx⟩)
  | @respond c todo live y =>
    obtain ⟨hx, hIn, hTodo⟩ := hq
    refine Or.inl ⟨hx, hSet hIn, ?_⟩
    rcases hTodo with hTodo | hOld
    · rcases List.mem_cons.mp hTodo with rfl | hTodo
      · right
        rw [Shared.Told, hVm', hVm]
        exact List.mem_cons_self ..
      · exact Or.inl hTodo
    · exact Or.inr (hTold hOld)
  | respondFailed => exact Or.inr (Or.inl (hTake _ _ _ rfl hq.1))
  | _ => cases hq

end Requests

-- ---------------------------------------------------------------------------
-- What threads are prepared for
-- ---------------------------------------------------------------------------

/-- A request grants what it has reserved; a return that is about to take an
allocation has it in a group, unless the consumer is gone. -/
structure Task.Prepared (s : Shared) (t : Task) : Prop where
  rest : ∀ c call rsvd, t = .request ⟨c, .allocate call rsvd⟩ → ∀ x ∈ call.rest, x ∈ rsvd
  committing : ∀ c call rsvd, t = .request ⟨c, .allocate call rsvd⟩ →
    ∀ d x n abandoned, call.pc = .commitState d x n abandoned → x ∈ rsvd
  grouped : ∀ r x todo cons dons, t.returns = some r → r.pc = .take x todo cons dons →
    x < s.nextId ∧ (s.exited (s.alloc x).consumerVm = true ∨
      ∃ g ∈ cons, g.1 = (s.alloc x).consumerVm ∧ x ∈ g.2)

/-- What a return holds its thread holds. -/
theorem ReturnCall.mem_ids_of_returns {t : Task} {r : ReturnCall} (hr : t.returns = some r)
    {x : AllocId} (hx : x ∈ r.ids) : x ∈ t.ids := by
  unfold Task.returns at hr
  split at hr <;> cases hr
  · exact List.mem_append_left _ hx
  all_goals exact hx

section Threads

variable {tid : Tid} {s : System} {op : Op} {t t' : Task} {started : List Task}

/-- What the others do leaves a thread prepared. -/
theorem Task.Prepared.exec (h : t.Prepared s.shared) : t.Prepared (op.exec s.shared) where
  rest := h.rest
  committing := h.committing
  grouped r x todo cons dons hr hpc := by
    obtain ⟨hLt, hGroup⟩ := h.grouped r x todo cons dons hr hpc
    have hEv := evolves_exec op s.shared
    rw [(hEv.alloc x hLt).consumer]
    exact ⟨lt_of_lt_of_le hLt hEv.nextId, hGroup.imp_left (hEv.exited _)⟩

/-- A thread's own step leaves it prepared. -/
theorem Task.Step.prepared {u : Shared} (h : Task.Step tid u t op t' started)
    (ht : t.Prepared u) (hKnown : ∀ x ∈ t.ids, x < u.nextId) : t'.Prepared u where
  rest c call rsvd heq x hx := by
    subst heq
    cases h with
    | request hq =>
      generalize hpc : RequestPc.allocate call rsvd = pc at hq
      cases hq with
      | reserved =>
        cases hpc
        exact hx
      | allocate hc =>
        cases hpc
        exact ht.rest _ _ _ rfl x (hc.rest_subset hx)
      | allLive =>
        unfold Request.afterDead at hpc
        split at hpc <;> cases hpc
      | returnedDead _ =>
        unfold Request.afterDead at hpc
        split at hpc <;> cases hpc
      | _ => cases hpc
  committing c call rsvd heq d x n abandoned hCommit := by
    subst heq
    cases h with
    | request hq =>
      generalize hpc : RequestPc.allocate call rsvd = pc at hq
      cases hq with
      | reserved =>
        cases hpc
        cases hCommit
      | allocate hc =>
        cases hpc
        cases hc with
        | setDonor _ =>
          cases hCommit
          exact ht.rest _ _ _ rfl x (List.mem_cons_self ..)
        | _ => cases hCommit
      | allLive =>
        unfold Request.afterDead at hpc
        split at hpc <;> cases hpc
      | returnedDead _ =>
        unfold Request.afterDead at hpc
        split at hpc <;> cases hpc
      | _ => cases hpc
  grouped r x todo cons dons hr hpc := by
    rcases h.returns_from hr with ⟨l, rfl⟩ | ⟨r₀, hr₀, hStep⟩
    · cases hpc
    · have hMem := fun hx => hKnown x (ReturnCall.mem_ids_of_returns hr₀ hx)
      cases hStep with
      | group _ =>
        cases hpc
        exact ⟨hMem (by simp [ReturnCall.ids]),
          Or.inr (exists_pushGroup.mpr (Or.inl ⟨rfl, rfl⟩))⟩
      | consumerGone hGone =>
        cases hpc
        exact ⟨hMem (by simp [ReturnCall.ids]), Or.inl hGone⟩
      | _ => cases hpc

/-- A thread that has done nothing yet is prepared. -/
theorem prepared_of_none {u : Shared} (hNot : ∀ q, t = .request q → ∃ size, q.pc = .start size)
    (hNone : t.returns = none) : t.Prepared u where
  rest c call rsvd heq := by
    obtain ⟨size, hpc⟩ := hNot _ heq
    cases hpc
  committing c call rsvd heq := by
    obtain ⟨size, hpc⟩ := hNot _ heq
    cases hpc
  grouped r x todo cons dons hr := by
    rw [hNone] at hr
    cases hr

end Threads

-- ---------------------------------------------------------------------------
-- Doing one's part
-- ---------------------------------------------------------------------------

/-- The step changes neither the state of the allocation nor whether it is to
go. -/
structure Keeps (s : Shared) (op : Op) (x : AllocId) : Prop where
  state : ((op.exec s).alloc x).state = (s.alloc x).state
  requested : ((op.exec s).alloc x).releaseRequested = (s.alloc x).releaseRequested
  noAbandon : op ≠ .abandon x
  noCommit : op = .commitState x → (s.alloc x).state ≠ .pendingCommit
  noClaim : ∀ c y call taken, op = .claimRelease c y call taken →
    s.claimAt c y ≠ .release x ∧ s.claimAt c y ≠ .drop x

/-- A look at the offset of an allocation in the map finds it. -/
theorem claimAt_entry {s : Shared} {x : AllocId} (hEntry : s.entry x)
    (hKept : (s.alloc x).releaseRequested = false) :
    s.claimAt (s.alloc x).consumerVm x = .release x ∨
      s.claimAt (s.alloc x).consumerVm x = .drop x := by
  rw [Shared.entry] at hEntry
  rw [Shared.claimAt, hEntry]
  simp only [hKept, Bool.false_eq_true, if_false]
  split
  · exact Or.inl rfl
  · exact Or.inr rfl

section Minds

variable {s : System} {op : Op} {x : AllocId} {t t' : Task} {started : List Task}

/-- A request goes on to serve an allocation while that evolves. -/
theorem Request.Serves.exec {q : Request} (h : q.Serves x s.shared)
    (hEv : AllocEvolves (s.shared.alloc x) ((op.exec s.shared).alloc x)) :
    q.Serves x (op.exec s.shared) := by
  have hTold : s.shared.Told x → (op.exec s.shared).Told x := fun hTold => by
    rw [Shared.Told, hEv.consumer]
    exact (evolves_exec op s.shared).log.mem hTold
  obtain ⟨c, pc⟩ := q
  cases pc with
  | partition todo live dead => exact h.imp_right fun h => h.imp_right fun h => ⟨h.1, hEv.dcdSet h.2⟩
  | returnDead call live => exact ⟨h.1, hEv.dcdSet h.2⟩
  | respond todo live => exact ⟨h.1, hEv.dcdSet h.2.1, h.2.2.imp_right hTold⟩
  | _ => exact h

/-- The steps of the others leave a thread in charge. -/
theorem Task.Minds.exec (h : t.Minds x s.shared)
    (hEv : AllocEvolves (s.shared.alloc x) ((op.exec s.shared).alloc x))
    (hKeep : Keeps s.shared op x) : t.Minds x (op.exec s.shared) := by
  cases h with
  | asked hGoes hAsked =>
    exact .asked (hKeep.requested.trans hGoes) (by rw [hEv.consumer]; exact hAsked)
  | asks hKept hState hAsk =>
    exact .asks (hKeep.requested.trans hKept) (by rw [hKeep.state]; exact hState)
      (by rw [hEv.consumer]; exact hAsk)
  | backs hKept hState hq hBacks =>
    exact .backs (hKeep.requested.trans hKept) (hKeep.state.trans hState) hq hBacks
  | takes hKept hState hTake =>
    exact .takes (hKeep.requested.trans hKept) (by rw [hKeep.state]; exact hState) hTake
  | serves hKept hState hq hServes =>
    exact .serves (hKeep.requested.trans hKept) (hKeep.state.trans hState) hq (hServes.exec hEv)

/-- An allocation stays with the guest while its area is kept. -/
theorem AtGuest.exec (h : AtGuest s.shared x)
    (hEv : AllocEvolves (s.shared.alloc x) ((op.exec s.shared).alloc x))
    (hKeep : Keeps s.shared op x) : AtGuest (op.exec s.shared) x where
  committed := hKeep.state.trans h.committed
  kept := hKeep.requested.trans h.kept
  dcdSet := hEv.dcdSet h.dcdSet
  told := by
    rw [Shared.Told, hEv.consumer]
    exact (evolves_exec op s.shared).log.mem h.told

/-- What a request backs is its consumer's. -/
theorem Request.Backs.consumer {q : Request} (h : q.Backs x) (hPrep : (Task.request q).Prepared s.shared)
    (hq : q.Grounded s.shared) : (s.shared.alloc x).consumerVm = q.consumer := by
  refine (hq.own x ?_).2
  obtain ⟨c, pc⟩ := q
  cases pc with
  | reserve remaining rsvd => exact h
  | allocate call rsvd =>
    rcases h with hx | ⟨d, n, abandoned, hpc⟩
    · exact List.mem_append_left _ hx
    · exact List.mem_append_right _ (hPrep.committing _ _ _ rfl d x n abandoned hpc)
  | _ => cases h

/-- What a request serves is its consumer's. -/
theorem Request.Serves.consumer {q : Request} (h : q.Serves x s.shared)
    (hq : q.Grounded s.shared) : (s.shared.alloc x).consumerVm = q.consumer := by
  refine (hq.own x ?_).2
  obtain ⟨c, pc⟩ := q
  cases pc with
  | allocate call rsvd => exact List.mem_append_right _ h
  | drop call rsvd => exact List.mem_append_right _ h
  | retain todo kept => exact List.mem_append.mpr h
  | add rsvd => exact h
  | wait rsvd => exact h
  | partition todo live dead =>
    simp only [Request.own, List.mem_append]
    rcases h with hx | hx | hx
    · exact Or.inl (Or.inl hx)
    · exact Or.inr hx
    · exact Or.inl (Or.inr hx.1)
  | returnDead call live => exact List.mem_append_right _ h.1
  | respond todo live => exact List.mem_append_right _ h.1
  | _ => cases h

/-- A VM that lives has lived. -/
theorem lives_before {u : Shared} {v : VmId} (h : (op.exec u).exited v = false) :
    u.exited v = false := by
  by_contra hGone
  rw [Bool.not_eq_false] at hGone
  rw [(evolves_exec op u).exited _ hGone] at h
  cases h

/-- The area of an allocation that keeps its entry is still taken. -/
theorem entry_area {u : Shared} (hLt : x < u.nextId) (hEntry' : (op.exec u).entry x) :
    ((op.exec u).allocatedAreas (u.alloc x).consumerVm).get? (u.offsetOf x) ≠ none := by
  have hEv := (evolves_exec op u).alloc x hLt
  rw [Shared.entry, Shared.offsetOf, hEv.consumer, hEv.offset] at hEntry'
  rw [Shared.offsetOf, hEntry']
  simp

/-- A thread in charge of an allocation does its part. -/
theorem Task.Step.minds (hInv : GroundedInv s) {i : Tid} (ht : s.tasks[i]? = some t)
    (hs : Task.Step i s.shared t op t' started) (hPrep : t.Prepared s.shared)
    (hEntry : s.shared.entry x) (hEntry' : (op.exec s.shared).entry x)
    (hKeep : Keeps s.shared op x) (h : t.Minds x s.shared) :
    t'.Minds x (op.exec s.shared) ∨ AtGuest (op.exec s.shared) x := by
  have hLt : x < s.shared.nextId := (hInv.core.areas _ _ _ hEntry).1
  have hEv := (evolves_exec op s.shared).alloc x hLt
  have hThere := entry_area hLt hEntry'
  cases h with
  | asked hGoes hAsked =>
    refine Or.inl (.asked (hKeep.requested.trans hGoes) ?_)
    rw [hEv.consumer]
    exact hs.hasAsked hAsked hThere
  | asks hKept hState hAsk =>
    refine Or.inl (.asks (hKeep.requested.trans hKept) (by rw [hKeep.state]; exact hState) ?_)
    rw [hEv.consumer]
    refine hs.willAsk hAsk fun call taken hOp => ?_
    obtain ⟨hNot, hNot'⟩ := hKeep.noClaim _ _ _ _ hOp
    exact (claimAt_entry hEntry hKept).elim hNot hNot'
  | @backs q hKept hState hq hBacks =>
    subst hq
    have hVm := hBacks.consumer hPrep ((hInv.tasks i _ ht).request q rfl)
    cases hs with
    | request hStep =>
      refine Or.inl ?_
      rcases hStep.backs hBacks fun hOp => hKeep.noCommit hOp hState with hBacks' | ⟨k, hk, hc, hx⟩
      · exact .backs (hKeep.requested.trans hKept) (hKeep.state.trans hState) rfl hBacks'
      · refine .asks (hKeep.requested.trans hKept) (Or.inl (hKeep.state.trans hState)) ?_
        exact Or.inl ⟨k, hk, by rw [hEv.consumer, hVm, hc], hx⟩
  | takes hKept hState hTake =>
    refine Or.inl (.takes (hKeep.requested.trans hKept) (by rw [hKeep.state]; exact hState) ?_)
    exact hs.willTake hTake hKeep.noAbandon
  | @serves q hKept hState hq hServes =>
    subst hq
    have hVm := hServes.consumer ((hInv.tasks i _ ht).request q rfl)
    have hKept' := hKeep.requested.trans hKept
    have hState' := hKeep.state.trans hState
    cases hs with
    | request hStep =>
      rcases hStep.serves hServes hState hKept hVm hEv.consumer hEv.dcdSet with
        hServes' | hTake | ⟨hSet, hTold⟩
      · exact Or.inl (.serves hKept' hState' rfl hServes')
      · exact Or.inl (.takes hKept' (Or.inl hState') hTake)
      · exact Or.inr ⟨hState', hKept', hSet, hTold⟩

end Minds

-- ---------------------------------------------------------------------------
-- Taking over
-- ---------------------------------------------------------------------------

section TakeOver

variable {tid : Tid} {s : Shared} {op : Op} {x : AllocId} {t t' : Task} {started : List Task}

/-- What a reservation creates its request backs. -/
theorem Task.Step.backsNew {c : VmId} {size : Nat}
    (h : Task.Step tid s t (.reserveMemoryContig c size) t' started) (hx : x ∈ s.newIds c size) :
    ∃ q, t' = .request q ∧ q.Backs x := by
  obtain ⟨q, q', rfl, rfl, hq⟩ := h.ofRequest rfl
  cases hq with
  | reserve _ _ => exact ⟨_, rfl, List.mem_append_right _ hx⟩
  | allocate hc => rcases hc.performer with h | h <;> cases h
  | drop hr => cases hr
  | returnDead hr => cases hr.performer
  | returnAll hr => cases hr.performer

/-- What a request commits it serves. -/
theorem Task.Step.commits (h : Task.Step tid s t (.commitState x) t' started)
    (ht : t.Prepared s) : ∃ q, t' = .request q ∧ q.Serves x s := by
  obtain ⟨c, call, call', rsvd, rfl, rfl, hc⟩ := h.grant rfl
  refine ⟨_, rfl, ?_⟩
  show x ∈ rsvd
  cases hc with
  | committedTwice _ => exact ht.committing _ _ _ rfl _ x _ _ rfl
  | live _ => exact ht.committing _ _ _ rfl _ x _ _ rfl
  | dead _ => exact ht.committing _ _ _ rfl _ x _ _ rfl
  | giveBack hg => cases hg

/-- What a revoke claims it will take. -/
theorem Task.Step.revokes {d : DonorAllocation} (h : Task.Step tid s t (.tryClaim d x) t' started)
    (hState : (s.alloc x).state = .committed) : t'.WillTake x := by
  obtain ⟨v, v', rfl, rfl, hv⟩ := h.ofRevoke rfl
  cases hv with
  | claim _ _ => exact Or.inl (List.mem_append_right _ (List.mem_singleton_self _))
  | pass hOther => exact absurd hState hOther
  | giveBack hr => cases hr.performer

/-- A return that abandons an allocation is to ask its consumer for what it grouped. -/
theorem ReturnCall.Step.abandons {r r' : ReturnCall}
    (h : ReturnCall.Step tid s r (.abandon x) r') :
    ∃ todo cons dons, r.pc = .take x todo cons dons ∧
      ∀ c y, (∃ g ∈ cons, g.1 = c ∧ y ∈ g.2) → r'.WillAsk c y := by
  cases h with
  | notTaken _ => exact ⟨_, _, _, rfl, fun _ _ h => h⟩
  | taken _ => exact ⟨_, _, _, rfl, fun _ _ h => h⟩
  | release _ hr => cases hr
  | giveBack _ hg => cases hg

/-- Who abandons an allocation will ask its consumer to give it up. -/
theorem Task.Step.abandons (h : Task.Step tid s t (.abandon x) t' started) (ht : t.Prepared s) :
    s.exited (s.alloc x).consumerVm = true ∨ t'.WillAsk (s.alloc x).consumerVm x := by
  have hCall : ∀ r r', t.returns = some r → t'.returns = some r' →
      ReturnCall.Step tid s r (.abandon x) r' →
      s.exited (s.alloc x).consumerVm = true ∨ t'.WillAsk (s.alloc x).consumerVm x := by
    intro r r' hr hr' hStep
    obtain ⟨todo, cons, dons, hpc, hAsk⟩ := hStep.abandons
    exact (ht.grouped r x todo cons dons hr hpc).2.imp_right fun hIn =>
      Or.inr ⟨r', hr', hAsk _ _ hIn⟩
  cases h with
  | events hl => cases hl.performer
  | detection hl =>
    cases hl with
    | consumerReturn hr => exact hCall _ _ rfl rfl hr
    | donorReturn hr => exact hCall _ _ rfl rfl hr
  | request hq =>
    cases hq with
    | allocate hc =>
      cases hc with
      | giveBack hg => cases hg
    | drop hr => cases hr
    | returnDead hr => exact hCall _ _ rfl rfl hr
    | returnAll hr => exact hCall _ _ rfl rfl hr
  | revoke hv =>
    cases hv with
    | giveBack hr => exact hCall _ _ rfl rfl hr

/-- A release that marks an allocation has asked for it. -/
theorem ReleaseCall.Step.requests {k k' : ReleaseCall} {c : VmId} {y : AllocId}
    {call : List AllocId} {taken : Bool}
    (h : ReleaseCall.Step tid s k (.claimRelease c y call taken) k') :
    k'.consumer = c ∧ ∀ x ∈ (s.claimAt c y).toRelease, x ∈ k'.asked := by
  cases h with
  | claim => exact ⟨rfl, fun x hx => List.mem_append_right _ hx⟩

/-- Who requests a release sees to it. -/
theorem Task.Step.requests {c : VmId} {y : AllocId} {call : List AllocId} {taken : Bool}
    (h : Task.Step tid s t (.claimRelease c y call taken) t' started)
    (hx : s.claimAt c y = .release x) : t'.HasAsked c x := by
  have hMem : x ∈ (s.claimAt c y).toRelease := by
    rw [hx]
    exact List.mem_singleton_self x
  have hCall : ∀ r r', t'.returns = some r' →
      ReturnCall.Step tid s r (.claimRelease c y call taken) r' → t'.HasAsked c x := by
    intro r r' hr' hStep
    refine Or.inr ⟨r', hr', ?_⟩
    cases hStep with
    | release hk hStep =>
      obtain ⟨hc, hAsked⟩ := hStep.requests
      exact ⟨_, List.mem_set (List.getElem?_eq_some_iff.mp hk).1 _, hc, hAsked x hMem⟩
    | giveBack _ hg => cases hg
  cases h with
  | events hl => cases hl.performer
  | detection hl =>
    cases hl with
    | consumerReturn hr => exact hCall _ _ rfl hr
    | donorReturn hr => exact hCall _ _ rfl hr
  | request hq =>
    cases hq with
    | allocate hc =>
      cases hc with
      | giveBack hg => cases hg
    | drop hr =>
      obtain ⟨hc, hAsked⟩ := hr.requests
      exact Or.inl ⟨_, rfl, hc, hAsked x hMem⟩
    | returnDead hr => exact hCall _ _ rfl hr
    | returnAll hr => exact hCall _ _ rfl hr
  | revoke hv =>
    cases hv with
    | giveBack hr => exact hCall _ _ rfl hr

end TakeOver

-- ---------------------------------------------------------------------------
-- The system
-- ---------------------------------------------------------------------------

/-- Every allocation in the map of a consumer that is there is with its guest
or in somebody's hands; so is every allocation a revoke has claimed. -/
structure MindInv (s : System) : Prop where
  grounded : GroundedInv s
  prepared : ∀ (i : Nat) (t : Task), s.tasks[i]? = some t → t.Prepared s.shared
  minded : ∀ x, s.shared.entry x → s.shared.exited (s.shared.alloc x).consumerVm = false →
    AtGuest s.shared x ∨ Machine.Minded (Task.Minds x) s
  claimed : ∀ x, (s.shared.alloc x).state = .pendingRelease →
    Machine.Minded (fun _ t => t.WillTake x) s

section Move

variable {s s' : System} {op : Op} {x : AllocId}

/-- As long as a step leaves the allocation alone, whoever has it keeps it. -/
theorem MindInv.minded_keeps (h : MindInv s) (hm : orchestrator.Move s op s')
    (hEntry : s.shared.entry x) (hEntry' : s'.shared.entry x)
    (hLives : s'.shared.exited (s'.shared.alloc x).consumerVm = false)
    (hKeep : Keeps s.shared op x) : AtGuest s'.shared x ∨ Machine.Minded (Task.Minds x) s' := by
  have hShared : s'.shared = op.exec s.shared := hm.shared_eq
  rw [hShared] at hEntry' hLives ⊢
  have hLt : x < s.shared.nextId := (h.grounded.core.areas _ _ _ hEntry).1
  have hEv := (evolves_exec op s.shared).alloc x hLt
  have hLived : s.shared.exited (s.shared.alloc x).consumerVm = false := by
    rw [hEv.consumer] at hLives
    exact lives_before hLives
  rcases h.minded x hEntry hLived with hGuest | hMinded
  · exact Or.inl (hGuest.exec hEv hKeep)
  · refine (hMinded.move (K := Task.Minds x) (P := AtGuest (op.exec s.shared) x) hm
      (fun i t ch t' started ht hn hMinds => ?_) (fun t ht hMinds => ?_)).symm
    · exact (Task.step_of_next hn).minds h.grounded ht (h.prepared i t ht) hEntry hEntry' hKeep hMinds
    · exact hMinds.exec hEv hKeep

/-- Whoever makes the step has the allocation then. -/
theorem minded_of_step (hm : orchestrator.Move s op s') (hInside : op.performer ≠ .outside)
    (hOwn : ∀ (i : Nat) t t' started, s.tasks[i]? = some t →
      Task.Step i s.shared t op t' started → t'.Minds x (op.exec s.shared)) :
    Machine.Minded (Task.Minds x) s' := by
  have hShared : s'.shared = op.exec s.shared := hm.shared_eq
  rcases move_cases hm with ⟨i, t, t', started, ht, hs, hd⟩ | ⟨started, hs, -⟩
  · refine Machine.minded_of_own ht hd ?_
    rw [hShared]
    exact hOwn i t t' started ht hs
  · cases hs <;> exact absurd rfl hInside

/-- Once its release is requested, an allocation stays with who asked for it. -/
theorem MindInv.minded_asked (h : MindInv s) (hm : orchestrator.Move s op s')
    (hEntry : s.shared.entry x) (hEntry' : s'.shared.entry x)
    (hLives : s.shared.exited (s.shared.alloc x).consumerVm = false)
    (hGoes : (s.shared.alloc x).releaseRequested = true) : Machine.Minded (Task.Minds x) s' := by
  have hShared : s'.shared = op.exec s.shared := hm.shared_eq
  rw [hShared] at hEntry'
  have hLt : x < s.shared.nextId := (h.grounded.core.areas _ _ _ hEntry).1
  have hEv := (evolves_exec op s.shared).alloc x hLt
  have hThere := entry_area hLt hEntry'
  have hAsked : ∀ t : Task, t.Minds x s.shared → t.HasAsked (s.shared.alloc x).consumerVm x := by
    intro t hMinds
    cases hMinds with
    | asked _ hAsked => exact hAsked
    | asks hKept => rw [hGoes] at hKept; cases hKept
    | backs hKept => rw [hGoes] at hKept; cases hKept
    | takes hKept => rw [hGoes] at hKept; cases hKept
    | serves hKept => rw [hGoes] at hKept; cases hKept
  rcases h.minded x hEntry hLives with hGuest | hMinded
  · have hKept := hGuest.kept
    rw [hGoes] at hKept
    cases hKept
  · refine (hMinded.move (K := Task.Minds x) (P := False) hm
      (fun i t ch t' started ht hn hMinds => Or.inl ?_) (fun t ht hMinds => ?_)).resolve_right id
    · refine Task.Minds.asked (hEv.requested hGoes) ?_
      show t'.HasAsked ((op.exec s.shared).alloc x).consumerVm x
      rw [hEv.consumer]
      exact (Task.step_of_next hn).hasAsked (hAsked t hMinds) hThere
    · refine Task.Minds.asked (hEv.requested hGoes) ?_
      show t.HasAsked ((op.exec s.shared).alloc x).consumerVm x
      rw [hEv.consumer]
      exact hAsked t hMinds

/-- An area that a release drops is gone. -/
theorem not_entry_of_drop {s : Shared} (hAreas : AreasOk s) {c : VmId} {y : AllocId}
    {call : List AllocId} {taken : Bool} (hDrop : s.claimAt c y = .drop x) :
    ¬ ((Op.claimRelease c y call taken).exec s).entry x := by
  intro hEntry
  obtain ⟨hLt, hVm, hOff, -⟩ := hAreas _ _ _ (claimAt_found (Or.inr hDrop)).1
  have hEv := (evolves_exec (.claimRelease c y call taken) s).alloc x hLt
  rw [Shared.entry, Shared.offsetOf, hEv.consumer, hEv.offset, hVm] at hEntry
  change (((Op.claimRelease c y call taken).exec s).allocatedAreas c).get? (s.offsetOf x) =
    some x at hEntry
  simp only [Op.exec, hDrop, Shared.emit, Shared.setAreas, Shared.setAlloc, Function.update_self,
    OrdMap.get?_erase, hOff, if_true] at hEntry
  cases hEntry

/-- An allocation is in a map for the first time when it is reserved. -/
theorem mem_newIds_of_entry {s : Shared} (hAreas : AreasOk s) (hEntry' : (op.exec s).entry x)
    (hNew : ¬ x < s.nextId) :
    ∃ c size, op = .reserveMemoryContig c size ∧ x ∈ s.newIds c size := by
  have hLt' : x < (op.exec s).nextId := ((areasOk_exec hAreas op) _ _ _ hEntry').1
  by_cases hOp : ∃ c size, op = .reserveMemoryContig c size
  · obtain ⟨c, size, rfl⟩ := hOp
    exact ⟨c, size, rfl, Shared.mem_newIds.mpr ⟨Nat.not_lt.mp hNew, hLt'⟩⟩
  · rw [nextId_exec fun c size heq => hOp ⟨c, size, heq⟩] at hLt'
    exact absurd hLt' hNew

/-- An area in the map is with the guest or in somebody's hands, whoever moves. -/
theorem MindInv.minded_move (h : MindInv s) (hm : orchestrator.Move s op s')
    (hEntry' : s'.shared.entry x)
    (hLives' : s'.shared.exited (s'.shared.alloc x).consumerVm = false) :
    AtGuest s'.shared x ∨ Machine.Minded (Task.Minds x) s' := by
  have hShared : s'.shared = op.exec s.shared := hm.shared_eq
  have hAreas := h.grounded.core.areas
  rw [hShared] at hEntry'
  by_cases hLt : x < s.shared.nextId
  swap
  · obtain ⟨c, size, rfl, hMem⟩ := mem_newIds_of_entry hAreas hEntry' hLt
    right
    refine minded_of_step hm (by simp [Op.performer]) fun i t t' started ht hs => ?_
    obtain ⟨q, hq, hBacks⟩ := hs.backsNew hMem
    have hAlloc : ((Op.reserveMemoryContig c size).exec s.shared).alloc x = .new _ c :=
      Shared.reserve_alloc_of_new (Shared.mem_newIds.mp hMem)
    exact .backs (by rw [hAlloc]; rfl) (by rw [hAlloc]; rfl) hq hBacks
  have hEntry : s.shared.entry x := (evolves_exec op s.shared).gone x hLt hEntry'
  have hEv := (evolves_exec op s.shared).alloc x hLt
  have hLives : s.shared.exited (s.shared.alloc x).consumerVm = false := by
    rw [hShared, hEv.consumer] at hLives'
    exact lives_before hLives'
  rw [← hShared] at hEntry'
  cases hKept : (s.shared.alloc x).releaseRequested with
  | true => exact Or.inr (h.minded_asked hm hEntry hEntry' hLives hKept)
  | false =>
    have hStep := fun hInside hOwn => Or.inr (a := AtGuest s'.shared x)
      (minded_of_step (x := x) hm hInside hOwn)
    have hKeeps := h.minded_keeps hm hEntry hEntry' hLives'
    have hChange := allocChange_exec op s.shared x
    generalize ha : (op.exec s.shared).alloc x = a at hChange hEv
    cases hChange with
    | same hAbandon hCommit _ _ hRelease =>
      exact hKeeps ⟨by rw [ha], by rw [ha], hAbandon, hCommit, hRelease⟩
    | created hNew => exact absurd hLt (Nat.not_lt.mpr hNew.1)
    | donorSet => exact hKeeps ⟨by rw [ha], by rw [ha], by simp, by simp, by simp⟩
    | marked _ => exact hKeeps ⟨by rw [ha], by rw [ha], by simp, by simp, by simp⟩
    | committed hState =>
      refine hStep (by simp [Op.performer]) fun i t t' started ht hs => ?_
      obtain ⟨q, hq, hServes⟩ := hs.commits (h.prepared i t ht)
      exact .serves (by rw [ha]; exact hKept) (by rw [ha]) hq (hServes.exec (by rw [ha]; exact hEv))
    | claimed hState =>
      refine hStep (by simp [Op.performer]) fun i t t' started ht hs => ?_
      exact .takes (by rw [ha]; exact hKept) (Or.inr (by rw [ha])) (hs.revokes hState)
    | abandoned =>
      refine hStep (by simp [Op.performer]) fun i t t' started ht hs => ?_
      refine .asks (by rw [ha]; exact hKept) (Or.inr (by rw [ha])) ?_
      rw [ha]
      refine (hs.abandons (h.prepared i t ht)).resolve_left fun hGone => ?_
      rw [hLives] at hGone
      cases hGone
    | requested hFound =>
      rcases hFound with hFound | hDrop
      · refine hStep (by simp [Op.performer]) fun i t t' started ht hs => ?_
        refine .asked (by rw [ha]) ?_
        rw [ha, (hAreas _ _ _ (claimAt_found (Or.inl hFound)).1).2.1]
        exact hs.requests hFound
      · rw [hShared] at hEntry'
        exact absurd hEntry' (not_entry_of_drop hAreas hDrop)

/-- A revoke that has claimed an allocation takes it, until it has. -/
theorem MindInv.claimed_move (h : MindInv s) (hm : orchestrator.Move s op s')
    (hState : (s'.shared.alloc x).state = .pendingRelease) :
    Machine.Minded (fun _ t => t.WillTake x) s' := by
  have hShared : s'.shared = op.exec s.shared := hm.shared_eq
  rw [hShared] at hState
  have hOld : (s.shared.alloc x).state = .pendingRelease → op ≠ .abandon x →
      Machine.Minded (fun _ t => t.WillTake x) s' := by
    intro hState hOp
    refine ((h.claimed x hState).move (P := False) hm
      (fun i t ch t' started ht hn hTake => Or.inl ?_) (fun t ht hTake => hTake)).resolve_right id
    exact (Task.step_of_next hn).willTake hTake hOp
  have hChange := allocChange_exec op s.shared x
  generalize (op.exec s.shared).alloc x = a at hChange hState
  cases hChange with
  | same hAbandon => exact hOld hState hAbandon
  | created _ => cases hState
  | donorSet => exact hOld hState (by simp)
  | committed _ => cases hState
  | claimed hCommitted =>
    rcases move_cases hm with ⟨i, t, t', started, ht, hs, hd⟩ | ⟨started, hs, -⟩
    · exact Machine.minded_of_own ht hd (hs.revokes hCommitted)
    · cases hs
  | abandoned => cases hState
  | requested _ => exact hOld hState (by simp)
  | marked _ => exact hOld hState (by simp)

/-- The invariant holds on, part by part. -/
theorem MindInv.move (h : MindInv s) (hm : orchestrator.Move s op s') : MindInv s' where
  grounded := h.grounded.move hm
  prepared := by
    refine forall_tasks (J := fun _ u t => t.Prepared u) hm h.prepared
      (fun i t t' started ht hs => ⟨?_, fun j u hu => ?_⟩) (fun started hs j u hu => ?_)
      (fun j u _ hOld => hOld.exec)
    · exact (hs.prepared (h.prepared i t ht) (h.grounded.core.known i t ht)).exec
    · cases hs with
      | events hl =>
        obtain ⟨v, hv, rfl⟩ := List.mem_map.mp hu
        cases hl with
        | revokeEvent _ _ =>
          rw [List.mem_singleton.mp hv]
          exact prepared_of_none (fun q hq => by cases hq) rfl
        | _ => cases hv
      | _ => cases hu
    · cases hs with
      | request =>
        rw [List.mem_singleton.mp hu]
        exact prepared_of_none (fun q hq => by cases hq; exact ⟨_, rfl⟩) rfl
      | _ => cases hu
  minded x hEntry hLives := h.minded_move hm hEntry hLives
  claimed x hState := h.claimed_move hm hState

end Move

theorem mindInv_init {vm : VmId → Vm} {donor : VmId → DonorState} (hFresh : FreshDonors donor) :
    MindInv (initSystem vm donor) where
  grounded := groundedInv_init hFresh
  prepared i t ht := by
    match i with
    | 0 =>
      cases ht
      exact prepared_of_none (fun q hq => by cases hq) rfl
    | 1 =>
      cases ht
      exact prepared_of_none (fun q hq => by cases hq) rfl
    | i + 2 => cases ht
  minded x hEntry := by
    simp [Shared.entry, initSystem, initShared] at hEntry
  claimed x hState := by cases hState

end EphMemory.Orchestrator
