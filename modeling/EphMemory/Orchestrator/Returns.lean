import EphMemory.Orchestrator.Known

/-!
# Orchestrator — whom a return call reaches

`return_eph_memory_from_consumer` sorts the allocations it is given by their
consumer and by the donor it took, and then talks to these VMs only. So a
return of allocations that meet `P` reaches the consumers and the donors of
allocations that meet `P`, and no other VM. A release looks its allocations up
by their offsets, though: it finds them as long as no other allocation has
taken their place.

* `ReleaseCall.unreleased`, `ReturnCall.unreleased` — what a call still looks
  up by offset;
* `Shared.InPlace` — no other allocation lies at the offset of one;
* `ReleaseCall.For`, `GiveBack.For`, `ReturnCall.For` — the calls a return of
  allocations that meet `P` makes;
* `ReturnCall.For.step` — each step keeps to them while everything unreleased
  is in its place;
* `ReturnCall.For.mono` — the others' operations do not take it away.
-/

namespace EphMemory.Orchestrator

open EphMemory.Lib

variable {P Q : AllocId → Prop} {s s' : Shared}

-- ---------------------------------------------------------------------------
-- What is looked up by its offset
-- ---------------------------------------------------------------------------

/-- The allocations whose offsets the call still looks up. -/
def ReleaseCall.unreleased (r : ReleaseCall) : List AllocId :=
  match r.pc with
  | .enter => r.allocs
  | .claim todo toRelease => todo ++ toRelease
  | .send toRelease => toRelease
  | .wait toRelease => toRelease
  | .manual toRelease => toRelease
  | .done => []

/-- The allocations a return call still has to release from their consumers. -/
def ReturnCall.unreleased (r : ReturnCall) : List AllocId :=
  match r.pc with
  | .organize todo cons _ => todo ++ groupIds cons
  | .take _ todo cons _ => todo ++ groupIds cons
  | .check _ _ todo cons _ => todo ++ groupIds cons
  | .release calls _ => calls.flatMap ReleaseCall.unreleased
  | .giveBack _ => []
  | .done => []

/-- No other allocation lies at the offset of `x` in the map of its consumer. -/
def Shared.InPlace (s : Shared) (x : AllocId) : Prop :=
  ∀ y ∈ (s.allocatedAreas (s.alloc x).consumerVm).get? (s.offsetOf x), y = x

instance (s : Shared) (x : AllocId) : Decidable (s.InPlace x) := by
  unfold Shared.InPlace
  infer_instance

/-- What a release finds for an allocation in its place is that allocation. -/
theorem Shared.InPlace.claimAt {c : VmId} {x y : AllocId} (h : s.InPlace x)
    (hVm : (s.alloc x).consumerVm = c)
    (hFound : s.claimAt c x = .release y ∨ s.claimAt c x = .drop y) : y = x :=
  h y (by rw [hVm]; exact (claimAt_found hFound).1)

theorem mem_toRelease {c : VmId} {x y : AllocId} (h : y ∈ (s.claimAt c x).toRelease) :
    s.claimAt c x = .release y := by
  generalize s.claimAt c x = claim at h ⊢
  cases claim with
  | release z => rw [List.mem_singleton.mp h]
  | _ => cases h

-- ---------------------------------------------------------------------------
-- The calls
-- ---------------------------------------------------------------------------

/-- The consumer of every allocation the call was given is the call's, and it
looks up these only. -/
structure ReleaseCall.For (P : AllocId → Prop) (s : Shared) (r : ReleaseCall) : Prop where
  nonempty : r.allocs ≠ []
  allocs : ∀ x ∈ r.allocs, P x ∧ x < s.nextId ∧ (s.alloc x).consumerVm = r.consumer
  unreleased : ∀ x ∈ r.unreleased, x ∈ r.allocs

/-- The donor of every allocation the call hands back is the call's. -/
structure GiveBack.For (P : AllocId → Prop) (s : Shared) (g : GiveBack) : Prop where
  nonempty : g.ids ≠ []
  ids : ∀ x ∈ g.ids, P x ∧ x < s.nextId ∧ (s.alloc x).donorInfo = some g.donor
  todo : ∀ todo, g.pc = .book todo → ∀ x ∈ todo, x ∈ g.ids

def ConsumerGroups (P : AllocId → Prop) (s : Shared) (groups : List (VmId × List AllocId)) :
    Prop :=
  ∀ g ∈ groups, g.2 ≠ [] ∧ ∀ x ∈ g.2, P x ∧ x < s.nextId ∧ (s.alloc x).consumerVm = g.1

def DonorGroups (P : AllocId → Prop) (s : Shared)
    (groups : List (DonorAllocation × List AllocId)) : Prop :=
  ∀ g ∈ groups, g.2 ≠ [] ∧ ∀ x ∈ g.2, P x ∧ x < s.nextId ∧ (s.alloc x).donorInfo = some g.1

def ReturnCall.For (P : AllocId → Prop) (s : Shared) (r : ReturnCall) : Prop :=
  match r.pc with
  | .organize todo cons dons =>
    (∀ x ∈ todo, P x ∧ x < s.nextId) ∧ ConsumerGroups P s cons ∧ DonorGroups P s dons
  | .take x todo cons dons =>
    (∀ y ∈ x :: todo, P y ∧ y < s.nextId) ∧ ConsumerGroups P s cons ∧ DonorGroups P s dons
  | .check x d todo cons dons =>
    (s.alloc x).donorInfo = some d ∧
      (∀ y ∈ x :: todo, P y ∧ y < s.nextId) ∧ ConsumerGroups P s cons ∧ DonorGroups P s dons
  | .release calls dons => (∀ c ∈ calls, c.For P s) ∧ DonorGroups P s dons
  | .giveBack calls => ∀ g ∈ calls, g.For P s
  | .done => True

-- ---------------------------------------------------------------------------
-- What the others leave alone
-- ---------------------------------------------------------------------------

theorem ReleaseCall.For.mono {r : ReleaseCall} (h : r.For P s)
    (hPQ : ∀ x < s.nextId, P x → Q x) (hEv : Evolves s s') : r.For Q s' where
  nonempty := h.nonempty
  allocs x hx := by
    obtain ⟨hP, hLt, hVm⟩ := h.allocs x hx
    exact ⟨hPQ x hLt hP, lt_of_lt_of_le hLt hEv.nextId, (hEv.alloc x hLt).consumer.trans hVm⟩
  unreleased := h.unreleased

theorem GiveBack.For.mono {g : GiveBack} (h : g.For P s) (hPQ : ∀ x < s.nextId, P x → Q x)
    (hEv : Evolves s s') : g.For Q s' where
  nonempty := h.nonempty
  ids x hx := by
    obtain ⟨hP, hLt, hDonor⟩ := h.ids x hx
    exact ⟨hPQ x hLt hP, lt_of_lt_of_le hLt hEv.nextId, (hEv.alloc x hLt).donor _ hDonor⟩
  todo := h.todo

theorem ConsumerGroups.mono {groups : List (VmId × List AllocId)}
    (h : ConsumerGroups P s groups) (hPQ : ∀ x < s.nextId, P x → Q x) (hEv : Evolves s s') :
    ConsumerGroups Q s' groups := by
  refine fun g hg => ⟨(h g hg).1, fun x hx => ?_⟩
  obtain ⟨hP, hLt, hVm⟩ := (h g hg).2 x hx
  exact ⟨hPQ x hLt hP, lt_of_lt_of_le hLt hEv.nextId, (hEv.alloc x hLt).consumer.trans hVm⟩

theorem DonorGroups.mono {groups : List (DonorAllocation × List AllocId)}
    (h : DonorGroups P s groups) (hPQ : ∀ x < s.nextId, P x → Q x) (hEv : Evolves s s') :
    DonorGroups Q s' groups := by
  refine fun g hg => ⟨(h g hg).1, fun x hx => ?_⟩
  obtain ⟨hP, hLt, hDonor⟩ := (h g hg).2 x hx
  exact ⟨hPQ x hLt hP, lt_of_lt_of_le hLt hEv.nextId, (hEv.alloc x hLt).donor _ hDonor⟩

/-- The calls of a return reach the same VMs whatever the other threads do. -/
theorem ReturnCall.For.mono {r : ReturnCall} (h : r.For P s)
    (hPQ : ∀ x < s.nextId, P x → Q x) (hEv : Evolves s s') : r.For Q s' := by
  have hTodo : ∀ l : List AllocId, (∀ x ∈ l, P x ∧ x < s.nextId) →
      ∀ x ∈ l, Q x ∧ x < s'.nextId := fun l hl x hx =>
    ⟨hPQ x (hl x hx).2 (hl x hx).1, lt_of_lt_of_le (hl x hx).2 hEv.nextId⟩
  obtain ⟨allocs, pc⟩ := r
  cases pc with
  | organize todo cons dons => exact ⟨hTodo _ h.1, h.2.1.mono hPQ hEv, h.2.2.mono hPQ hEv⟩
  | take x todo cons dons => exact ⟨hTodo _ h.1, h.2.1.mono hPQ hEv, h.2.2.mono hPQ hEv⟩
  | check x d todo cons dons =>
    obtain ⟨hDonor, hIds, hCons, hDons⟩ := h
    have hLt := (hIds x (List.mem_cons_self ..)).2
    exact ⟨(hEv.alloc x hLt).donor _ hDonor, hTodo _ hIds, hCons.mono hPQ hEv,
      hDons.mono hPQ hEv⟩
  | release calls dons => exact ⟨fun c hc => (h.1 c hc).mono hPQ hEv, h.2.mono hPQ hEv⟩
  | giveBack calls => exact fun g hg => (h g hg).mono hPQ hEv
  | done => trivial

-- ---------------------------------------------------------------------------
-- One step
-- ---------------------------------------------------------------------------

/-- A release adds nothing to what it looks up: at the offset of an allocation
that is in its place it finds that allocation. -/
theorem ReleaseCall.Step.unreleased {tid : Tid} {r r' : ReleaseCall} {op : Op}
    (hs : ReleaseCall.Step tid s r op r') (h : r.For P s)
    (hPlace : ∀ x ∈ r.unreleased, s.InPlace x) : ∀ x ∈ r'.unreleased, x ∈ r.unreleased := by
  cases hs with
  | enter _ =>
    intro x hx
    rcases List.mem_append.mp hx with hx | hx
    · exact hx
    · cases hx
  | @claim c allocs taken todo toRelease x =>
    intro y hy
    have hTodo : x ∈ ReleaseCall.unreleased ⟨c, allocs, taken, .claim (x :: todo) toRelease⟩ :=
      List.mem_cons_self ..
    rcases List.mem_append.mp hy with hy | hy
    · exact List.mem_cons_of_mem _ (List.mem_append_left _ hy)
    rcases List.mem_append.mp hy with hy | hy
    · exact List.mem_append_right _ hy
    · have hVm := (h.allocs x (h.unreleased x hTodo)).2.2
      rw [(hPlace x hTodo).claimAt hVm (Or.inl (mem_toRelease hy))]
      exact hTodo
  | claimed => exact fun x hx => hx
  | sent => exact fun x hx => hx
  | failed => exact fun x hx => hx
  | timedOut _ => exact fun x hx => hx
  | _ => exact nofun

/-- A release comes to hold only what it was called for, if that is in its place. -/
theorem ReleaseCall.For.step {tid : Tid} {r r' : ReleaseCall} {op : Op} (h : r.For P s)
    (hPlace : ∀ x ∈ r.unreleased, s.InPlace x) (hs : ReleaseCall.Step tid s r op r') :
    r'.For P s where
  nonempty := by cases hs <;> exact h.nonempty
  allocs := by cases hs <;> exact h.allocs
  unreleased := by
    have hLess := hs.unreleased h hPlace
    cases hs <;> exact fun x hx => h.unreleased x (hLess x hx)

/-- A give-back holds on to its group. -/
theorem GiveBack.For.step {g g' : GiveBack} {op : Op} (h : g.For P s)
    (hs : GiveBack.Step s g op g') : g'.For P s where
  nonempty := by cases hs <;> exact h.nonempty
  ids := by cases hs <;> exact h.ids
  todo := by
    cases hs with
    | sent =>
      rintro todo hpc
      cases hpc
      exact fun x hx => hx
    | book _ =>
      rintro todo hpc
      cases hpc
      exact fun x hx => h.todo _ rfl x (List.mem_cons_of_mem _ hx)
    | _ => exact nofun

theorem forall_set {α : Type} {R : α → Prop} {l : List α} {i : Nat} {a : α}
    (h : ∀ b ∈ l, R b) (ha : R a) : ∀ b ∈ l.set i a, R b := by
  intro b hb
  rcases List.mem_or_eq_of_mem_set hb with hb | rfl
  · exact h b hb
  · exact ha

/-- A group that gains a member whose key is the group's still meets what every
group meets. -/
theorem forall_pushGroup {κ : Type} [DecidableEq κ] {R : κ → AllocId → Prop} {key : κ}
    {x : AllocId} {groups : List (κ × List AllocId)}
    (h : ∀ g ∈ groups, g.2 ≠ [] ∧ ∀ y ∈ g.2, R g.1 y) (hx : R key x) :
    ∀ g ∈ pushGroup key x groups, g.2 ≠ [] ∧ ∀ y ∈ g.2, R g.1 y := by
  induction groups with
  | nil =>
    intro g hg
    rw [List.mem_singleton.mp hg]
    refine ⟨List.cons_ne_nil _ _, fun y hy => ?_⟩
    rw [List.mem_singleton.mp hy]
    exact hx
  | cons g0 rest ih =>
    obtain ⟨k, xs⟩ := g0
    have hRest := fun g hg => h g (List.mem_cons_of_mem _ hg)
    rw [pushGroup]
    split
    · rename_i hKey
      subst hKey
      intro g hg
      rcases List.mem_cons.mp hg with rfl | hg
      · refine ⟨by simp, fun y hy => ?_⟩
        rcases List.mem_append.mp hy with hy | hy
        · exact (h _ (List.mem_cons_self ..)).2 y hy
        · rw [List.mem_singleton.mp hy]
          exact hx
      · exact hRest g hg
    · intro g hg
      rcases List.mem_cons.mp hg with rfl | hg
      · exact h _ (List.mem_cons_self ..)
      · exact ih hRest g hg

/-- An allocation is taken for its donor. -/
theorem donorInfo_of_taken {a : EphAllocation} {d : DonorAllocation}
    (h : a.abandonOrTakeDonor.1 = some d) : a.donorInfo = some d := by
  unfold EphAllocation.abandonOrTakeDonor at h
  split at h
  · exact h
  · exact h
  · cases h
  · cases h

/-- What a return call still has to release is among what it was given. -/
theorem ReturnCall.For.unreleased {r : ReturnCall} (h : r.For P s) :
    ∀ x ∈ r.unreleased, P x ∧ x < s.nextId := by
  have hGroups : ∀ cons, ConsumerGroups P s cons → ∀ x ∈ groupIds cons, P x ∧ x < s.nextId := by
    intro cons hCons x hx
    obtain ⟨g, hg, hx⟩ := List.mem_flatMap.mp hx
    exact ⟨((hCons g hg).2 x hx).1, ((hCons g hg).2 x hx).2.1⟩
  obtain ⟨allocs, pc⟩ := r
  intro x hx
  cases pc with
  | organize todo cons dons =>
    rcases List.mem_append.mp hx with hx | hx
    · exact h.1 x hx
    · exact hGroups cons h.2.1 x hx
  | take y todo cons dons =>
    rcases List.mem_append.mp hx with hx | hx
    · exact h.1 x (List.mem_cons_of_mem _ hx)
    · exact hGroups cons h.2.1 x hx
  | check y d todo cons dons =>
    rcases List.mem_append.mp hx with hx | hx
    · exact h.2.1 x (List.mem_cons_of_mem _ hx)
    · exact hGroups cons h.2.2.1 x hx
  | release calls dons =>
    obtain ⟨c, hc, hx⟩ := List.mem_flatMap.mp hx
    have hFor := h.1 c hc
    have hIn := hFor.allocs x (hFor.unreleased x hx)
    exact ⟨hIn.1, hIn.2.1⟩
  | _ => cases hx

/-- A return looks up nothing it did not have before. -/
theorem ReturnCall.Step.unreleased {tid : Tid} {r r' : ReturnCall} {op : Op}
    (hs : ReturnCall.Step tid s r op r') (h : r.For P s)
    (hPlace : ∀ x ∈ r.unreleased, s.InPlace x) : ∀ x ∈ r'.unreleased, x ∈ r.unreleased := by
  cases hs with
  | @group allocs todo x cons dons _ =>
    intro y hy
    rcases List.mem_append.mp hy with hy | hy
    · exact List.mem_append_left _ (List.mem_cons_of_mem _ hy)
    rcases mem_groupIds_pushGroup.mp hy with rfl | hy
    · exact List.mem_append_left _ (List.mem_cons_self ..)
    · exact List.mem_append_right _ hy
  | consumerGone _ =>
    intro y hy
    rcases List.mem_append.mp hy with hy | hy
    · exact List.mem_append_left _ (List.mem_cons_of_mem _ hy)
    · exact List.mem_append_right _ hy
  | organized =>
    intro y hy
    obtain ⟨c, hc, hy⟩ := List.mem_flatMap.mp hy
    obtain ⟨g, hg, rfl⟩ := List.mem_map.mp hc
    exact List.mem_flatMap.mpr ⟨g, hg, hy⟩
  | @release allocs calls dons i c c' op hc hStep =>
    have hMem := List.mem_of_getElem? hc
    have hCall := hStep.unreleased (h.1 c hMem) fun x hx =>
      hPlace x (List.mem_flatMap.mpr ⟨c, hMem, hx⟩)
    intro y hy
    obtain ⟨c0, hc0, hIn⟩ := List.mem_flatMap.mp hy
    rcases List.mem_or_eq_of_mem_set hc0 with hc0 | rfl
    · exact List.mem_flatMap.mpr ⟨c0, hc0, hIn⟩
    · exact List.mem_flatMap.mpr ⟨c, hMem, hCall y hIn⟩
  | notTaken _ => exact fun y hy => hy
  | taken _ => exact fun y hy => hy
  | donorThere _ => exact fun y hy => hy
  | donorGone _ => exact fun y hy => hy
  | _ => exact nofun

/-- **Whom a return reaches.** Its steps keep to the consumers and the donors
of the allocations it was given, while these are in their places. -/
theorem ReturnCall.For.step {tid : Tid} {r r' : ReturnCall} {op : Op} (h : r.For P s)
    (hPlace : ∀ x ∈ r.unreleased, s.InPlace x) (hs : ReturnCall.Step tid s r op r') :
    r'.For P s := by
  cases hs with
  | group _ =>
    obtain ⟨hIds, hCons, hDons⟩ := h
    obtain ⟨hP, hLt⟩ := hIds _ (List.mem_cons_self ..)
    refine ⟨hIds, ?_, hDons⟩
    exact forall_pushGroup (R := fun c x => P x ∧ x < s.nextId ∧ (s.alloc x).consumerVm = c)
      hCons ⟨hP, hLt, rfl⟩
  | consumerGone _ => exact h
  | organized =>
    obtain ⟨-, hCons, hDons⟩ := h
    refine ⟨fun c hc => ?_, hDons⟩
    obtain ⟨g, hg, rfl⟩ := List.mem_map.mp hc
    exact ⟨(hCons g hg).1, (hCons g hg).2, fun x hx => hx⟩
  | notTaken _ => exact ⟨fun y hy => h.1 y (List.mem_cons_of_mem _ hy), h.2⟩
  | taken hTake => exact ⟨donorInfo_of_taken hTake, h⟩
  | donorThere _ =>
    obtain ⟨hDonor, hIds, hCons, hDons⟩ := h
    obtain ⟨hP, hLt⟩ := hIds _ (List.mem_cons_self ..)
    refine ⟨fun y hy => hIds y (List.mem_cons_of_mem _ hy), hCons, ?_⟩
    exact forall_pushGroup
      (R := fun d x => P x ∧ x < s.nextId ∧ (s.alloc x).donorInfo = some d) hDons
      ⟨hP, hLt, hDonor⟩
  | donorGone _ => exact ⟨fun y hy => h.2.1 y (List.mem_cons_of_mem _ hy), h.2.2⟩
  | @release allocs calls dons i c c' op hc hStep =>
    have hMem := List.mem_of_getElem? hc
    have hCall := (h.1 c hMem).step
      (fun x hx => hPlace x (List.mem_flatMap.mpr ⟨c, hMem, hx⟩)) hStep
    exact ⟨forall_set h.1 hCall, h.2⟩
  | released _ =>
    intro c hc
    obtain ⟨g, hg, rfl⟩ := List.mem_map.mp hc
    exact ⟨(h.2 g hg).1, (h.2 g hg).2, nofun⟩
  | giveBack hg hStep => exact forall_set h ((h _ (List.mem_of_getElem? hg)).step hStep)
  | returned _ => trivial

/-- A return is for what it is called with. -/
theorem ReturnCall.for_start {l : List AllocId} (h : ∀ x ∈ l, P x ∧ x < s.nextId) :
    (ReturnCall.start l).For P s := by
  refine ⟨h, ?_, ?_⟩
  · intro g hg
    cases hg
  · intro g hg
    cases hg

theorem ReturnCall.mem_unreleased_start {l : List AllocId} {x : AllocId} :
    x ∈ (ReturnCall.start l).unreleased ↔ x ∈ l := by
  simp [ReturnCall.start, ReturnCall.unreleased, groupIds]

end EphMemory.Orchestrator
