import EphMemory.Orchestrator.Books

/-!
# Orchestrator — the allocations a thread knows of

A thread only ever holds allocations that were created: it made them itself,
found them in a consumer's areas, or found them in a region's books. So the
guarantee of `Frame.lean` covers everything a thread relies on.

* `Task.ids` — the allocations a thread's local variables hold;
* `known_step` — a step adds only allocations that exist;
* `KnownInv` — in every reachable state all of them exist.
-/

namespace EphMemory.Orchestrator

open EphMemory.Lib

/-- The members of a list of groups. -/
def groupIds {κ : Type} (groups : List (κ × List AllocId)) : List AllocId :=
  groups.flatMap Prod.snd

theorem mem_groupIds_pushGroup {κ : Type} [DecidableEq κ] {key : κ} {x y : AllocId}
    {groups : List (κ × List AllocId)} :
    y ∈ groupIds (pushGroup key x groups) ↔ y = x ∨ y ∈ groupIds groups := by
  induction groups with
  | nil => simp [pushGroup, groupIds]
  | cons g rest ih =>
    obtain ⟨k, xs⟩ := g
    unfold groupIds at ih ⊢
    rw [pushGroup]
    split
    · simp only [List.flatMap_cons, List.mem_append, List.mem_singleton]
      tauto
    · simp only [List.flatMap_cons, List.mem_append, ih]
      tauto

def ReleaseCall.ids (r : ReleaseCall) : List AllocId :=
  r.allocs ++
    match r.pc with
    | .claim todo toRelease => todo ++ toRelease
    | .send toRelease => toRelease
    | .wait toRelease => toRelease
    | .manual toRelease => toRelease
    | _ => []

def GiveBack.known (g : GiveBack) : List AllocId :=
  g.ids ++
    match g.pc with
    | .book todo => todo
    | _ => []

def ReturnCall.ids (r : ReturnCall) : List AllocId :=
  match r.pc with
  | .organize todo consumerAllocs donorAllocs =>
    todo ++ groupIds consumerAllocs ++ groupIds donorAllocs
  | .take x todo consumerAllocs donorAllocs =>
    x :: todo ++ groupIds consumerAllocs ++ groupIds donorAllocs
  | .check x _ todo consumerAllocs donorAllocs =>
    x :: todo ++ groupIds consumerAllocs ++ groupIds donorAllocs
  | .release calls donorAllocs => calls.flatMap ReleaseCall.ids ++ groupIds donorAllocs
  | .giveBack calls => calls.flatMap GiveBack.known
  | .done => []

def AllocCall.ids (a : AllocCall) : List AllocId :=
  a.backed ++ a.rest ++
    match a.pc with
    | .commit _ _ abandoned => abandoned
    | .commitState _ x _ abandoned => x :: abandoned
    | .giveBack g => g.known
    | _ => []

def Request.ids (q : Request) : List AllocId :=
  match q.pc with
  | .start _ => []
  | .reserve _ rsvd => rsvd
  | .allocate call rsvd => call.ids ++ rsvd
  | .drop call rsvd => call.ids ++ rsvd
  | .retain todo kept => todo ++ kept
  | .add rsvd => rsvd
  | .wait rsvd => rsvd
  | .partition todo live dead => todo ++ live ++ dead
  | .returnDead call live => call.ids ++ live
  | .respond todo live => todo ++ live
  | .returnAll call => call.ids
  | .done _ => []
  | .returned => []

def Revoke.ids (v : Revoke) : List AllocId :=
  match v.pc with
  | .select todo claimed _ => todo ++ claimed
  | .giveBack call => call.ids
  | _ => []

def Detection.ids : Detection → List AllocId
  | .consumerReturn call _ _ => call.ids
  | .donorCollect todo allocs _ _ => todo ++ allocs
  | .donorReturn call _ _ => call.ids
  | _ => []

def Task.ids : Task → List AllocId
  | .events _ => []
  | .detection l => l.ids
  | .request q => q.ids
  | .revoke v => v.ids

-- ---------------------------------------------------------------------------
-- One step
-- ---------------------------------------------------------------------------

/-- What is found at an offset of a consumer exists. -/
theorem claimAt_toRelease {s : Shared} (hAreas : AreasOk s) {c : VmId} {x y : AllocId}
    (h : y ∈ (s.claimAt c x).toRelease) : y < s.nextId := by
  unfold Shared.claimAt at h
  split at h
  · cases h
  · rename_i z hz
    have hLt := (hAreas _ _ _ hz).1
    split at h
    · cases h
    · split at h
      · rw [List.mem_singleton.mp h]
        exact hLt
      · cases h

/-- A release comes to hold only what it finds in its consumer's areas. -/
theorem ReleaseCall.Step.ids_known {tid : Tid} {s : Shared} {r r' : ReleaseCall} {op : Op}
    (h : ReleaseCall.Step tid s r op r') (hAreas : AreasOk s) {x : AllocId}
    (hx : x ∈ r'.ids) : x ∈ r.ids ∨ x < s.nextId := by
  cases h with
  | claim =>
    simp only [ReleaseCall.ids, List.mem_append, List.mem_cons] at hx ⊢
    rcases hx with hx | hx | hx | hx
    · exact Or.inl (Or.inl hx)
    · exact Or.inl (Or.inr (Or.inl (Or.inr hx)))
    · exact Or.inl (Or.inr (Or.inr hx))
    · exact Or.inr (claimAt_toRelease hAreas hx)
  | _ =>
    simp only [ReleaseCall.ids, List.mem_append, List.not_mem_nil, or_false, false_or,
      or_self] at hx ⊢
    tauto

/-- A give-back comes to hold nothing new. -/
theorem GiveBack.Step.known_known {s : Shared} {g g' : GiveBack} {op : Op}
    (h : GiveBack.Step s g op g') {x : AllocId} (hx : x ∈ g'.known) : x ∈ g.known := by
  cases h <;> simp only [GiveBack.known, List.mem_append, List.mem_cons, List.not_mem_nil,
    or_false, or_self] at hx ⊢ <;> tauto

theorem mem_flatMap_set {α : Type} {f : α → List AllocId} {l : List α} {i : Nat} {a' : α}
    {x : AllocId} (hx : x ∈ (l.set i a').flatMap f) : x ∈ f a' ∨ x ∈ l.flatMap f := by
  obtain ⟨b, hb, hxb⟩ := List.mem_flatMap.mp hx
  rcases List.mem_or_eq_of_mem_set hb with hb | rfl
  · exact Or.inr (List.mem_flatMap.mpr ⟨b, hb, hxb⟩)
  · exact Or.inl hxb

theorem mem_flatMap_of_getElem? {α : Type} {f : α → List AllocId} {l : List α} {i : Nat} {a : α}
    {x : AllocId} (ha : l[i]? = some a) (hx : x ∈ f a) : x ∈ l.flatMap f :=
  List.mem_flatMap.mpr ⟨a, List.mem_of_getElem? ha, hx⟩

/-- A return comes to hold only what its releases find. -/
theorem ReturnCall.Step.ids_known {tid : Tid} {s : Shared} {r r' : ReturnCall} {op : Op}
    (h : ReturnCall.Step tid s r op r') (hAreas : AreasOk s) {x : AllocId}
    (hx : x ∈ r'.ids) : x ∈ r.ids ∨ x < s.nextId := by
  cases h with
  | group _ =>
    simp only [ReturnCall.ids, List.mem_append, List.mem_cons, mem_groupIds_pushGroup] at hx ⊢
    tauto
  | consumerGone _ =>
    simp only [ReturnCall.ids, List.mem_append, List.mem_cons] at hx ⊢
    tauto
  | organized =>
    left
    simp only [ReturnCall.ids, List.mem_append, List.mem_flatMap, List.mem_map] at hx ⊢
    rcases hx with ⟨c, ⟨g, hg, rfl⟩, hxc⟩ | hx
    · refine Or.inl (Or.inr ?_)
      simp only [ReleaseCall.ids, List.append_nil] at hxc
      exact List.mem_flatMap.mpr ⟨g, hg, hxc⟩
    · exact Or.inr hx
  | notTaken _ =>
    simp only [ReturnCall.ids, List.mem_append, List.mem_cons] at hx ⊢
    tauto
  | taken _ =>
    simp only [ReturnCall.ids, List.mem_append, List.mem_cons] at hx ⊢
    tauto
  | donorThere _ =>
    simp only [ReturnCall.ids, List.mem_append, List.mem_cons, mem_groupIds_pushGroup] at hx ⊢
    tauto
  | donorGone _ =>
    simp only [ReturnCall.ids, List.mem_append, List.mem_cons] at hx ⊢
    tauto
  | release hr hStep =>
    simp only [ReturnCall.ids, List.mem_append] at hx ⊢
    rcases hx with hx | hx
    · rcases mem_flatMap_set hx with hx | hx
      · rcases hStep.ids_known hAreas hx with hx | hx
        · exact Or.inl (Or.inl (mem_flatMap_of_getElem? hr hx))
        · exact Or.inr hx
      · exact Or.inl (Or.inl hx)
    · exact Or.inl (Or.inr hx)
  | released _ =>
    left
    simp only [ReturnCall.ids, List.mem_append, List.mem_flatMap, List.mem_map] at hx ⊢
    obtain ⟨c, ⟨g, hg, rfl⟩, hxc⟩ := hx
    refine Or.inr ?_
    simp only [GiveBack.known, List.append_nil] at hxc
    exact List.mem_flatMap.mpr ⟨g, hg, hxc⟩
  | giveBack hg hStep =>
    left
    simp only [ReturnCall.ids] at hx ⊢
    rcases mem_flatMap_set hx with hx | hx
    · exact mem_flatMap_of_getElem? hg (hStep.known_known hx)
    · exact hx
  | returned _ => cases hx

/-- A grant backs what was reserved for it. -/
theorem AllocCall.Step.ids_known {s : Shared} {a a' : AllocCall} {op : Op}
    (h : AllocCall.Step s a op a') {x : AllocId} (hx : x ∈ a'.ids) : x ∈ a.ids := by
  cases h with
  | giveBack hg =>
    simp only [AllocCall.ids, List.mem_append] at hx ⊢
    rcases hx with hx | hx
    · exact Or.inl hx
    · exact Or.inr (hg.known_known hx)
  | _ =>
    simp only [AllocCall.ids, GiveBack.known, List.mem_append, List.mem_cons, List.not_mem_nil,
      or_false, List.append_nil] at hx ⊢
    tauto

/-- A return starts with what it is called with. -/
theorem ReturnCall.mem_ids_start {l : List AllocId} {x : AllocId} :
    x ∈ (ReturnCall.start l).ids ↔ x ∈ l := by
  simp [ReturnCall.start, ReturnCall.ids, groupIds]

/-- A request holds what its reservation creates. -/
theorem Request.Step.ids_known {tid : Tid} {s : Shared} {q q' : Request} {op : Op}
    (h : Request.Step tid s q op q') (hAreas : AreasOk s) {x : AllocId} (hx : x ∈ q'.ids) :
    x ∈ q.ids ∨ x < (op.exec s).nextId := by
  have hDead : ∀ (c : VmId) (live : List AllocId),
      x ∈ Request.ids ⟨c, afterDead live⟩ → x ∈ live := by
    intro c live hMem
    unfold afterDead at hMem
    split at hMem
    · cases hMem
    · simpa [Request.ids] using hMem
  cases h with
  | @reserve c remaining rsvd _ _ =>
    simp only [Request.ids, List.mem_append] at hx ⊢
    exact hx.imp id fun hNew => (Shared.mem_newIds.mp hNew).2
  | reserved =>
    left
    simpa [Request.ids, AllocCall.start, AllocCall.ids] using hx
  | allocate hc =>
    left
    simp only [Request.ids, List.mem_append] at hx ⊢
    exact hx.imp_left hc.ids_known
  | allocated _ =>
    left
    simp only [Request.ids, AllocCall.ids, ReleaseCall.ids, List.mem_append, List.append_nil]
      at hx ⊢
    tauto
  | drop hr =>
    simp only [Request.ids, List.mem_append] at hx ⊢
    rcases hx with hx | hx
    · rcases hr.ids_known hAreas hx with hx | hx
      · exact Or.inl (Or.inl hx)
      · exact Or.inr (lt_of_lt_of_le hx (evolves_exec op s).nextId)
    · exact Or.inl (Or.inr hx)
  | allLive =>
    left
    simpa [Request.ids] using hDead _ _ hx
  | someDead =>
    left
    simp only [Request.ids, List.mem_append, ReturnCall.mem_ids_start] at hx ⊢
    tauto
  | returnDead hr =>
    simp only [Request.ids, List.mem_append] at hx ⊢
    rcases hx with hx | hx
    · rcases hr.ids_known hAreas hx with hx | hx
      · exact Or.inl (Or.inl hx)
      · exact Or.inr (lt_of_lt_of_le hx (evolves_exec op s).nextId)
    · exact Or.inl (Or.inr hx)
  | returnedDead _ =>
    left
    have := hDead _ _ hx
    simp only [Request.ids, List.mem_append]
    exact Or.inr this
  | addFailed =>
    left
    simpa [Request.ids, ReturnCall.mem_ids_start] using hx
  | respondFailed =>
    left
    simp only [Request.ids, ReturnCall.mem_ids_start, List.mem_append] at hx ⊢
    exact Or.inr hx
  | returnAll hr =>
    rcases hr.ids_known hAreas hx with hx | hx
    · exact Or.inl hx
    · exact Or.inr (lt_of_lt_of_le hx (evolves_exec op s).nextId)
  | _ =>
    left
    simp only [Request.ids, List.mem_append, List.mem_cons, List.not_mem_nil, or_false,
      false_or] at hx ⊢ <;> tauto

/-- Everything in a region's books exists. -/
def BooksKnown (s : Shared) : Prop :=
  ∀ d r, s.region? d = some r → ∀ x ∈ r.allocations.values, x < s.nextId

/-- A revoke comes to hold what it finds in the region's books. -/
theorem Revoke.Step.ids_known {tid : Tid} {s : Shared} {v v' : Revoke} {op : Op}
    (h : Revoke.Step tid s v op v') (hAreas : AreasOk s) (hBooks : BooksKnown s) {x : AllocId}
    (hx : x ∈ v'.ids) : x ∈ v.ids ∨ x < s.nextId := by
  cases h with
  | enter _ _ hr =>
    simp only [Revoke.ids, List.append_nil, List.mem_reverse] at hx
    exact Or.inr (hBooks _ _ hr x hx)
  | enough _ =>
    left
    simp only [Revoke.ids, ReturnCall.mem_ids_start, List.mem_append] at hx ⊢
    exact Or.inr hx
  | giveBack hr => exact hr.ids_known hAreas hx
  | _ =>
    left
    simp only [Revoke.ids, List.mem_append, List.mem_cons, List.not_mem_nil, or_false]
      at hx ⊢ <;> tauto

/-- The detection comes to hold what it finds in areas and books. -/
theorem Detection.Step.ids_known {tid : Tid} {s : Shared} {l l' : Detection} {op : Op}
    (h : Detection.Step tid s l op l') (hAreas : AreasOk s) (hBooks : BooksKnown s) {x : AllocId}
    (hx : x ∈ l'.ids) : x ∈ l.ids ∨ x < s.nextId := by
  cases h with
  | again _ =>
    right
    simp only [Detection.ids, ReturnCall.mem_ids_start, Detection.unrequested, List.mem_filter,
      OrdMap.mem_values_iff] at hx
    obtain ⟨⟨o, ho⟩, -⟩ := hx
    exact (hAreas _ _ _ ho).1
  | consumerReturn hr => exact hr.ids_known hAreas hx
  | @snapshot v vms _ =>
    right
    simp only [Detection.ids, List.append_nil, List.mem_flatMap] at hx
    obtain ⟨r, hr, hxr⟩ := hx
    exact hBooks ⟨v, r.path⟩ r (DonorState.findRegion_of_mem hr) x hxr
  | collected =>
    left
    simp only [Detection.ids, ReturnCall.mem_ids_start, List.nil_append] at hx ⊢
    exact hx
  | donorReturn hr => exact hr.ids_known hAreas hx
  | _ =>
    left
    simp only [Detection.ids, List.mem_append, List.mem_cons, List.not_mem_nil, or_false]
      at hx ⊢ <;> tauto

/-- **One step.** Whatever a thread holds after it exists by then. -/
theorem known_step {tid : Tid} {s : Shared} {t t' : Task} {op : Op} {started : List Task}
    (h : Task.Step tid s t op t' started) (hAreas : AreasOk s) (hBooks : BooksKnown s)
    (ht : ∀ x ∈ t.ids, x < s.nextId) :
    (∀ x ∈ t'.ids, x < (op.exec s).nextId) ∧
      ∀ u ∈ started, ∀ x ∈ u.ids, x < (op.exec s).nextId := by
  have hMono : ∀ x, x < s.nextId → x < (op.exec s).nextId := fun x hx =>
    lt_of_lt_of_le hx (evolves_exec op s).nextId
  cases h with
  | events hl =>
    refine ⟨nofun, fun u hu x hx => ?_⟩
    obtain ⟨v, hv, rfl⟩ := List.mem_map.mp hu
    cases hl with
    | revokeEvent _ _ =>
      rw [List.mem_singleton.mp hv] at hx
      cases hx
    | _ => cases hv
  | detection hl =>
    refine ⟨fun x hx => ?_, nofun⟩
    exact hMono x ((hl.ids_known hAreas hBooks hx).elim (ht x) id)
  | request hq =>
    refine ⟨fun x hx => ?_, nofun⟩
    exact (hq.ids_known hAreas hx).elim (fun h => hMono x (ht x h)) id
  | revoke hv =>
    refine ⟨fun x hx => ?_, nofun⟩
    exact hMono x ((hv.ids_known hAreas hBooks hx).elim (ht x) id)

-- ---------------------------------------------------------------------------
-- What an operation is about
-- ---------------------------------------------------------------------------

/-- The allocation an operation of the allocation's own state is about. -/
def Op.target : Op → Option AllocId
  | .setDonorInfo x _ => some x
  | .commitState x => some x
  | .tryClaim _ x => some x
  | .abandon x => some x
  | _ => none

/-- What an operation of a return is about, the return holds. -/
theorem ReturnCall.Step.target_mem {tid : Tid} {s : Shared} {r r' : ReturnCall} {op : Op}
    {x : AllocId} (h : ReturnCall.Step tid s r op r') (hx : op.target = some x) : x ∈ r.ids := by
  cases h with
  | notTaken _ =>
    cases hx
    simp [ReturnCall.ids]
  | taken _ =>
    cases hx
    simp [ReturnCall.ids]
  | release _ hr => cases hr <;> cases hx
  | giveBack _ hg => cases hg <;> cases hx
  | _ => cases hx

/-- What an operation is about, the thread that performs it holds. -/
theorem Task.Step.target_mem {tid : Tid} {s : Shared} {t t' : Task} {op : Op}
    {started : List Task} {x : AllocId} (h : Task.Step tid s t op t' started)
    (hx : op.target = some x) : x ∈ t.ids := by
  cases h with
  | events hl => cases hl <;> cases hx
  | detection hl =>
    cases hl with
    | consumerReturn hr => exact hr.target_mem hx
    | donorReturn hr => exact hr.target_mem hx
    | _ => cases hx
  | request hq =>
    cases hq with
    | allocate hc =>
      refine List.mem_append_left _ ?_
      cases hc with
      | setDonor _ =>
        cases hx
        simp [AllocCall.ids]
      | committedTwice _ =>
        cases hx
        simp [AllocCall.ids]
      | live _ =>
        cases hx
        simp [AllocCall.ids]
      | dead _ =>
        cases hx
        simp [AllocCall.ids]
      | giveBack hg => cases hg <;> cases hx
      | _ => cases hx
    | drop hr => cases hr <;> cases hx
    | returnDead hr => exact List.mem_append_left _ (hr.target_mem hx)
    | returnAll hr => exact hr.target_mem hx
    | _ => cases hx
  | revoke hv =>
    cases hv with
    | claim _ _ =>
      cases hx
      simp [Task.ids, Revoke.ids]
    | pass _ =>
      cases hx
      simp [Task.ids, Revoke.ids]
    | giveBack hr => exact hr.target_mem hx
    | _ => cases hx

/-- The thread that commits an allocation is the grant that has set its donor. -/
theorem Task.Step.commitsState {tid : Tid} {s : Shared} {t t' : Task} {started : List Task}
    {x : AllocId} (h : Task.Step tid s t (.commitState x) t' started) :
    ∃ v call l d n abandoned, t = .request ⟨v, .allocate call l⟩ ∧
      call.pc = .commitState d x n abandoned := by
  obtain ⟨c, call, call', rsvd, rfl, rfl, hc⟩ := h.grant rfl
  cases hc with
  | committedTwice _ => exact ⟨_, _, _, _, _, _, rfl, rfl⟩
  | live _ => exact ⟨_, _, _, _, _, _, rfl, rfl⟩
  | dead _ => exact ⟨_, _, _, _, _, _, rfl, rfl⟩
  | giveBack hg => cases hg

/-- An allocation is acknowledged when an extent covers its area. -/
theorem signalAddDc_covered {offsetOf : AllocId → Nat} {areas : OrdMap Nat AllocId}
    {extents : List Extent} {x : AllocId} (h : x ∈ (signalAddDc offsetOf areas extents).1) :
    ∃ e ∈ extents, ∃ o, areas.get? o = some x ∧ e.offset ≤ o ∧
      o + granularity ≤ e.offset + e.len := by
  induction extents with
  | nil => cases h
  | cons e rest ih =>
    rw [signalAddDc] at h
    rcases List.mem_append.mp h with h | h
    · obtain ⟨⟨o, y⟩, hMem, rfl⟩ := List.mem_map.mp h
      obtain ⟨hEntry, hIn⟩ := List.mem_filter.mp hMem
      rw [Bool.and_eq_true, decide_eq_true_eq, decide_eq_true_eq] at hIn
      exact ⟨e, List.mem_cons_self .., o, OrdMap.mem_entries_iff.mp hEntry, hIn.2.1, hIn.2.2⟩
    · obtain ⟨e', he', hCovered⟩ := ih h
      exact ⟨e', List.mem_cons_of_mem _ he', hCovered⟩

/-- Only allocations in a consumer's areas are acknowledged. -/
theorem signalAddDc_mem {offsetOf : AllocId → Nat} {areas : OrdMap Nat AllocId}
    {extents : List Extent} {x : AllocId} (h : x ∈ (signalAddDc offsetOf areas extents).1) :
    ∃ o, areas.get? o = some x := by
  obtain ⟨-, -, o, ho, -⟩ := signalAddDc_covered h
  exact ⟨o, ho⟩

/-- An allocation that is claimed lies at the offset and was not marked. -/
theorem claimAt_found {s : Shared} {c : VmId} {x y : AllocId}
    (h : s.claimAt c x = .release y ∨ s.claimAt c x = .drop y) :
    (s.allocatedAreas c).get? (s.offsetOf x) = some y ∧
      (s.alloc y).releaseRequested = false := by
  unfold Shared.claimAt at h
  split at h
  · rcases h with h | h <;> cases h
  · rename_i z hz
    split at h
    · rcases h with h | h <;> cases h
    · rename_i hReq
      rw [Bool.not_eq_true] at hReq
      split at h
      · rcases h with h | h <;> cases h
        exact ⟨hz, hReq⟩
      · rcases h with h | h <;> cases h
        exact ⟨hz, hReq⟩

-- ---------------------------------------------------------------------------
-- Every run
-- ---------------------------------------------------------------------------

/-- The invariants the later developments rest on. -/
structure CoreInv (s : System) : Prop where
  areas : AreasOk s.shared
  accounting : AccountingInv s
  tokens : TokenInv s
  known : ∀ (i : Nat) (t : Task), s.tasks[i]? = some t → ∀ x ∈ t.ids, x < s.shared.nextId
  untouched : ∀ x, ¬ x < s.shared.nextId → s.shared.alloc x = .new 0 0

/-- What is in a region's books exists. -/
theorem CoreInv.recorded_known {s : System} (h : CoreInv s) {d : DonorAllocation} {x : AllocId}
    (hRec : s.shared.recorded d x = true) : x < s.shared.nextId := by
  have hTotal := h.tokens.fresh d x
  have hNonneg := Machine.weigh_nonneg (freshWeights_nonneg d x) s.tasks
  by_contra hNot
  simp only [Machine.total, freshMeasure, ind_true hRec, ind_false hNot] at hTotal
  omega

/-- What a region lists is in its books under its own id. -/
theorem CoreInv.recorded_of_value {s : System} (h : CoreInv s) {d : DonorAllocation}
    {r : DonatableRegion} (hr : s.shared.region? d = some r) {x : AllocId}
    (hx : x ∈ r.allocations.values) : s.shared.recorded d x = true := by
  obtain ⟨k, hk⟩ := OrdMap.mem_values_iff.mp hx
  have hOwn := (h.accounting.books d r hr).own k x hk
  subst hOwn
  simp [Shared.recorded, hr, OrdMap.contains, hk]

theorem CoreInv.booksKnown {s : System} (h : CoreInv s) : BooksKnown s.shared :=
  fun _ _ hr _ hx => h.recorded_known (h.recorded_of_value hr hx)

/-- What a grant still has to back has no donor yet. -/
theorem CoreInv.rest_unset {s : System} (h : CoreInv s) {i : Nat} {v : VmId} {call : AllocCall}
    {l : List AllocId} (ht : s.tasks[i]? = some (.request ⟨v, .allocate call l⟩)) {x : AllocId}
    (hx : x ∈ call.rest) : (s.shared.alloc x).donorInfo = none := by
  have hLaw := h.tokens.rest.rest ht x
  have hOne := one_le_cnt_iff.mpr hx
  have hLe := ind_le_one (x < s.shared.nextId)
  by_contra hne
  rw [ind_true hne] at hLaw
  omega

/-- An operation on an allocation's own state is about one that exists. -/
theorem CoreInv.target_known {s s' : System} {op : Op} {x : AllocId} (h : CoreInv s)
    (hm : orchestrator.Move s op s') (hx : op.target = some x) : x < s.shared.nextId := by
  rcases move_cases hm with ⟨i, t, t', started, ht, hs, -⟩ | ⟨started, hs, -⟩
  · exact h.known i t ht x (hs.target_mem hx)
  · cases hs <;> cases hx

/-- An allocation that does not exist yet is as it was made. -/
theorem CoreInv.untouched_exec {s s' : System} {op : Op} (h : CoreInv s)
    (hm : orchestrator.Move s op s') {x : AllocId} (hx : ¬ x < (op.exec s.shared).nextId) :
    (op.exec s.shared).alloc x = .new 0 0 := by
  have hOld : ¬ x < s.shared.nextId := fun hlt =>
    hx (lt_of_lt_of_le hlt (evolves_exec op s.shared).nextId)
  have hTarget : op.target ≠ some x := fun hEq => hOld (h.target_known hm hEq)
  have hChange := allocChange_exec op s.shared x
  generalize (op.exec s.shared).alloc x = a at hChange ⊢
  cases hChange with
  | same _ _ _ _ _ => exact h.untouched x hOld
  | created hNew => exact absurd hNew.2 hx
  | requested hClaim => exact absurd (h.areas _ _ _ (claimAt_found hClaim).1).1 hOld
  | marked hMem =>
    obtain ⟨o, ho⟩ := signalAddDc_mem hMem
    exact absurd (h.areas _ _ _ ho).1 hOld
  | _ => exact absurd rfl hTarget

/-- Every operation keeps the invariants, each with the help of the others. -/
theorem CoreInv.move {s s' : System} {op : Op} (h : CoreInv s)
    (hm : orchestrator.Move s op s') : CoreInv s' where
  areas := by
    rw [hm.shared_eq]
    exact areasOk_exec h.areas op
  accounting := h.accounting.move hm
  tokens := h.tokens.move hm
  known := by
    refine forall_tasks (J := fun _ s t => ∀ x ∈ t.ids, x < s.nextId) hm h.known
      (fun i t t' started ht hs => ?_) (fun started hs j u hu => ?_) (fun j u _ hu x hx => ?_)
    · have hStep := known_step hs h.areas h.booksKnown (h.known i t ht)
      exact ⟨hStep.1, fun _ => hStep.2⟩
    · cases hs with
      | request => rw [List.mem_singleton.mp hu]; nofun
      | _ => cases hu
    · exact lt_of_lt_of_le (hu x hx) (evolves_exec op s.shared).nextId
  untouched := by
    intro x hx
    rw [hm.shared_eq] at hx ⊢
    exact h.untouched_exec hm hx

theorem coreInv_init {vm : VmId → Vm} {donor : VmId → DonorState} (hFresh : FreshDonors donor) :
    CoreInv (initSystem vm donor) where
  areas := by
    intro c o x hx
    cases hx
  accounting := accountingInv_init hFresh
  tokens := tokenInv_init hFresh
  known := by
    intro i t ht
    have hMem := List.mem_of_getElem? ht
    simp only [initSystem, List.mem_cons, List.not_mem_nil, or_false] at hMem
    rcases hMem with rfl | rfl <;>
    · intro x hx
      cases hx
  untouched := fun _ _ => rfl

theorem coreInv_steps {allow : System → Op → Prop} {vm : VmId → Vm} {donor : VmId → DonorState}
    {s : System} (hFresh : FreshDonors donor)
    (h : orchestrator.Steps allow (initSystem vm donor) s) : CoreInv s :=
  h.invariant (fun _ _ _ hInv hm _ => hInv.move hm) (coreInv_init hFresh)

end EphMemory.Orchestrator
