import EphMemory.Orchestrator.Known

/-!
# Orchestrator — one region for each allocation

An allocation that was offered to several regions is in the books of one of
them at most: a region that does not back it strikes it before the next one is
asked. So what a region has in its books it backs, or a grant under way is
about to say whether it does.

* `AllocCall.placing` — what a grant under way has put in the books of a
  region and not yet given that region as its donor;
* `PlacedInv` — the books of a region hold these and the allocations it backs;
* `PlacedInv.region_unique` — a backed allocation is in the books of its donor
  only.
-/

namespace EphMemory.Orchestrator

open EphMemory.Lib

def AllocCall.placing (d : DonorAllocation) (a : AllocCall) : List AllocId :=
  match a.pc with
  | .donate d' size => if d' = d then a.rest.take (size / granularity) else []
  | .confirm d' size _ => if d' = d then a.rest.take (size / granularity) else []
  | .handBack d' n _ => if d' = d then a.rest.take n else []
  | .commit d' n _ => if d' = d then a.rest.take n else []
  | .commitState d' _ n _ => if d' = d then a.rest.take n else []
  | _ => []

def Task.placing (d : DonorAllocation) : Task → List AllocId
  | .request ⟨_, .allocate call _⟩ => call.placing d
  | _ => []

theorem mem_ite_nil {p : Prop} [Decidable p] {l : List AllocId} {x : AllocId} :
    x ∈ (if p then l else []) ↔ p ∧ x ∈ l := by
  split
  · rename_i hp
    exact ⟨fun h => ⟨hp, h⟩, fun h => h.2⟩
  · rename_i hp
    exact ⟨nofun, fun h => absurd h.1 hp⟩

/-- What a grant puts in the books it still has to back. -/
theorem AllocCall.placing_subset {d : DonorAllocation} {a : AllocCall} {x : AllocId}
    (h : x ∈ a.placing d) : x ∈ a.rest := by
  unfold placing at h
  split at h
  · exact List.mem_of_mem_take (mem_ite_nil.mp h).2
  · exact List.mem_of_mem_take (mem_ite_nil.mp h).2
  · exact List.mem_of_mem_take (mem_ite_nil.mp h).2
  · exact List.mem_of_mem_take (mem_ite_nil.mp h).2
  · exact List.mem_of_mem_take (mem_ite_nil.mp h).2
  · cases h

-- ---------------------------------------------------------------------------
-- One step
-- ---------------------------------------------------------------------------

/-- What a confirmation does with an allocation it was given. -/
theorem kept_or_struck {rest : List AllocId} {n k : Nat} {x : AllocId}
    (hk : k ≤ (rest.take n).length) (hx : x ∈ rest.take n) :
    x ∈ rest.take k ∨ x ∈ (rest.take n).drop k := by
  rw [← List.take_append_drop k (rest.take n), List.mem_append] at hx
  rcases hx with hx | hx
  · left
    rw [List.take_take, Nat.min_eq_left (le_trans hk (List.length_take_le _ _))] at hx
    exact hx
  · exact Or.inr hx

/-- An allocation a grant is placing stays so until its donor is set or the
confirmation strikes it. -/
theorem AllocCall.Step.placing {s : Shared} {a a' : AllocCall} {op : Op}
    (h : AllocCall.Step s a op a') (hRange : a.InRange)
    (hRest : ∀ y ∈ a.rest, (s.alloc y).donorInfo = none)
    (hFirst : ∀ d y n ab, a.pc = .commitState d y n ab → (s.alloc y).parked = false)
    {d : DonorAllocation} {x : AllocId} (hx : x ∈ a.placing d) :
    x ∈ a'.placing d ∨ op = .setDonorInfo x d ∨
      ∃ ids n m, op = .handleReservedAlloc d ids n m ∧ x ∈ ids.drop (s.keeps d n m) := by
  cases h with
  | donate => exact Or.inl hx
  | refused _ =>
    obtain ⟨rfl, hIn⟩ := mem_ite_nil.mp hx
    refine Or.inr (Or.inr ⟨_, _, _, rfl, ?_⟩)
    rw [Shared.keeps_refused]
    exact hIn
  | regionGone hNone =>
    obtain ⟨rfl, hIn⟩ := mem_ite_nil.mp hx
    refine Or.inr (Or.inr ⟨_, _, _, rfl, ?_⟩)
    unfold Shared.keeps
    rw [hNone]
    exact hIn
  | owing _ hr hLe =>
    obtain ⟨rfl, hIn⟩ := mem_ite_nil.mp hx
    rcases kept_or_struck hLe hIn with hIn | hIn
    · exact Or.inl (mem_ite_nil.mpr ⟨rfl, hIn⟩)
    · refine Or.inr (Or.inr ⟨_, _, _, rfl, ?_⟩)
      rw [Shared.keeps_of_region hr]
      exact hIn
  | confirmed _ hr hLe _ =>
    obtain ⟨rfl, hIn⟩ := mem_ite_nil.mp hx
    rcases kept_or_struck hLe hIn with hIn | hIn
    · exact Or.inl (mem_ite_nil.mpr ⟨rfl, hIn⟩)
    · refine Or.inr (Or.inr ⟨_, _, _, rfl, ?_⟩)
      rw [Shared.keeps_of_region hr]
      exact hIn
  | @confirmOut backed rest last d' size granted r hLt =>
    have hLen : (rest.take (size / granularity)).length = size / granularity :=
      List.length_take_of_le hRange
    have hFinal := Nat.div_le_div_right (c := granularity) (finalSize_le r size granted)
    rw [hLen] at hLt
    exact absurd hFinal (Nat.not_le.mpr hLt)
  | handBack => exact Or.inl hx
  | setDonor _ =>
    obtain ⟨rfl, hIn⟩ := mem_ite_nil.mp hx
    rw [List.take_succ_cons, List.mem_cons] at hIn
    rcases hIn with rfl | hIn
    · exact Or.inr (Or.inl rfl)
    · exact Or.inl (mem_ite_nil.mpr ⟨rfl, hIn⟩)
  | donorSet hne => exact absurd (hRest _ (List.mem_cons_self ..)) hne
  | committedTwice hParked =>
    rw [hFirst _ _ _ _ rfl] at hParked
    cases hParked
  | live _ => exact Or.inl hx
  | dead _ => exact Or.inl hx
  | allLive => exact absurd (mem_ite_nil.mp hx).2 (by simp)
  | someAbandoned => exact absurd (mem_ite_nil.mp hx).2 (by simp)
  | commitOut => exact absurd (mem_ite_nil.mp hx).2 (by simp)
  | _ => cases hx

/-- What a reservation puts in the books, the grant that made it is placing. -/
theorem Task.Step.reserve_placing {tid : Tid} {s : Shared} {t t' : Task} {d : DonorAllocation}
    {size : Nat} {ids : List AllocId} {started : List Task}
    (h : Task.Step tid s t (.reserveFromRegion d size ids) t' started) {x : AllocId}
    (hx : x ∈ ids) : x ∈ t'.placing d := by
  obtain ⟨c, call, call', rsvd, rfl, rfl, hc⟩ := h.grant rfl
  cases hc with
  | reserve _ _ _ _ _ => exact mem_ite_nil.mpr ⟨rfl, hx⟩
  | giveBack hg => cases hg

-- ---------------------------------------------------------------------------
-- Every run
-- ---------------------------------------------------------------------------

def PlacedInv (s : System) : Prop :=
  ∀ d x, s.shared.recorded d x = true → (s.shared.alloc x).donorInfo = some d ∨
    ∃ (i : Nat) (t : Task), s.tasks[i]? = some t ∧ x ∈ t.placing d

/-- A backed allocation is in the books of its donor only. -/
theorem PlacedInv.region_unique {s : System} (h : PlacedInv s) (hCore : CoreInv s)
    {d d' : DonorAllocation} {x : AllocId} (hRec : s.shared.recorded d x = true)
    (hDonor : (s.shared.alloc x).donorInfo = some d') : d = d' := by
  rcases h d x hRec with hOwn | ⟨i, t, ht, hx⟩
  · exact Option.some.inj (hOwn.symm.trans hDonor)
  · match t, hx with
    | .request ⟨v, .allocate call l⟩, hx =>
      have hNone := hCore.rest_unset ht (AllocCall.placing_subset hx)
      rw [hDonor] at hNone
      cases hNone

/-- A grant is about to commit what nobody has parked. -/
theorem CoreInv.not_parked_of_commitState {s : System} (h : CoreInv s) {i : Nat} {v : VmId}
    {call : AllocCall} {l : List AllocId} {d : DonorAllocation} {x : AllocId} {n : Nat}
    {abandoned : List AllocId} (ht : s.tasks[i]? = some (.request ⟨v, .allocate call l⟩))
    (hpc : call.pc = .commitState d x n abandoned) : (s.shared.alloc x).parked = false := by
  by_contra hParked
  have hOne := h.tokens.parked x (by simpa using hParked)
  have hZero := (h.tokens.commit.first ht hpc).1
  omega

/-- The thread that was placing `x` still is, or `x` has its donor, or it is
no longer in the books. -/
theorem Task.Step.placing {s : System} {i : Nat} {t t' : Task} {op : Op} {started : List Task}
    (hCore : CoreInv s) (ht : s.tasks[i]? = some t) (h : Task.Step i s.shared t op t' started)
    {d : DonorAllocation} {x : AllocId} (hx : x ∈ t.placing d) :
    x ∈ t'.placing d ∨ ((op.exec s.shared).alloc x).donorInfo = some d ∨
      (op.exec s.shared).recorded d x = false := by
  match t, hx with
  | .request ⟨v, .allocate call l⟩, hx =>
    cases h with
    | request hq =>
      cases hq with
      | allocate hc =>
        have hRange : call.InRange := hCore.accounting.inRange i _ ht
        rcases hc.placing hRange (fun y hy => hCore.rest_unset ht hy)
          (fun d y n ab hpc => hCore.not_parked_of_commitState ht hpc) hx with hx' | rfl | hx'
        · exact Or.inl hx'
        · refine Or.inr (Or.inl ?_)
          have hNone := hCore.rest_unset ht (AllocCall.placing_subset hx)
          simp [Op.exec, Shared.setAlloc, hNone]
        · obtain ⟨ids, n, m, rfl, hDrop⟩ := hx'
          refine Or.inr (Or.inr ?_)
          rw [recorded_exec]
          simp [recordedAfter, hDrop]
      | allocated hDone =>
        obtain ⟨backed, rest, last, pc⟩ := call
        cases hDone
        cases hx

/-- What a grant has put in the books stays there, whoever moves. -/
theorem PlacedInv.move {s s' : System} {op : Op} (h : PlacedInv s) (hCore : CoreInv s)
    (hm : orchestrator.Move s op s') : PlacedInv s' := by
  intro d x hRec'
  have hShared : s'.shared = op.exec s.shared := hm.shared_eq
  rw [hShared] at hRec' ⊢
  cases hRec : s.shared.recorded d x with
  | true =>
    have hLt := hCore.recorded_known hRec
    rcases h d x hRec with hOwn | ⟨j, u, hu, hx⟩
    · exact Or.inl (((evolves_exec op s.shared).alloc x hLt).donor d hOwn)
    · cases hm with
      | @task i t t' ch started ht hn =>
        by_cases hij : i = j
        · subst hij
          cases Option.some.inj (hu.symm.trans ht)
          have hStep : Task.Step i s.shared u op t' started := Task.step_of_next hn
          rcases hStep.placing hCore hu hx with hx' | hDonor | hGone
          · exact Or.inr ⟨i, t', Machine.getElem?_set_append_self hu, hx'⟩
          · exact Or.inl hDonor
          · rw [hGone] at hRec'
            cases hRec'
        · exact Or.inr ⟨j, u, Machine.getElem?_set_append_ne hij hu, hx⟩
      | @outside started hs =>
        have hLtTasks := (List.getElem?_eq_some_iff.mp hu).1
        exact Or.inr ⟨j, u, by rw [List.getElem?_append_left hLtTasks, hu], hx⟩
  | false =>
    -- only a reservation adds to the books
    rw [recorded_exec] at hRec'
    cases op with
    | reserveFromRegion d' size ids =>
      simp only [recordedAfter, hRec, Bool.false_or, Bool.and_eq_true, decide_eq_true_eq]
        at hRec'
      obtain ⟨⟨rfl, -⟩, hx⟩ := hRec'
      cases hm with
      | @task i t t' ch started ht hn =>
        have hStep : Task.Step i s.shared t (.reserveFromRegion d' size ids) t' started :=
          Task.step_of_next hn
        exact Or.inr ⟨i, t', Machine.getElem?_set_append_self ht, hStep.reserve_placing hx⟩
      | outside hs => cases hs
    | _ => simp [recordedAfter, hRec] at hRec'

theorem placedInv_init {vm : VmId → Vm} {donor : VmId → DonorState} (hFresh : FreshDonors donor) :
    PlacedInv (initSystem vm donor) := by
  intro d x hRec
  unfold Shared.recorded at hRec
  split at hRec
  · cases hRec
  · rename_i r hr
    have hNew : r = .new r.size r.path := hFresh d.donorVm r (region?_mem hr)
    rw [hNew] at hRec
    cases hRec

end EphMemory.Orchestrator
