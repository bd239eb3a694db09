import EphMemory.Orchestrator.Selecting

/-!
# Orchestrator — what backs a revocation debt

A revoke that finds too few Committed allocations books the rest as a debt, on
the view that grants must be under way which the region has not confirmed yet:
the next confirmations hand the debt back. Allocations are missing for other
reasons too (nothing was ever donated, a return has taken them, they are
confirmed but not committed), and then the debt waits for grants nobody has
asked for.

* `unconfirmed` — the region's recorded allocations that are PendingCommit
  with their grant not yet confirmed;
* `Backed` — when a region may be asked for a grant, a grant confirmed, a revoke
  begun and an allocation abandoned;
* `debt_backed` — then the unconfirmed allocations cover every debt, and a grant
  only ever pays for a revoke that came after it was asked for.
-/

namespace EphMemory.Orchestrator

open EphMemory.Lib

-- ---------------------------------------------------------------------------
-- Unconfirmed grants
-- ---------------------------------------------------------------------------

/-- The region a grant under way has asked and not yet confirmed. -/
def AllocCall.asked (a : AllocCall) : Option (DonorAllocation × Nat) :=
  match a.pc with
  | .donate d size => some (d, size)
  | .confirm d size _ => some (d, size)
  | _ => none

/-- The allocations it has asked `d` for. -/
def AllocCall.asking (d : DonorAllocation) (a : AllocCall) : List AllocId :=
  match a.asked with
  | some (d', size) => if d' = d then a.rest.take (size / granularity) else []
  | none => []

def Task.asked : Task → Option DonorAllocation
  | .request ⟨_, .allocate call _⟩ => call.asked.map Prod.fst
  | _ => none

def Task.asking (d : DonorAllocation) : Task → List AllocId
  | .request ⟨_, .allocate call _⟩ => call.asking d
  | _ => []

def pending (s : Shared) (x : AllocId) : Bool := decide ((s.alloc x).state = .pendingCommit)

def unconfirmed (s : System) (d : DonorAllocation) : List AllocId :=
  match s.shared.region? d with
  | none => []
  | some r => r.allocations.values.filter fun x =>
      pending s.shared x && s.tasks.any fun t => decide (x ∈ t.asking d)

/-- What each step may do. A region is asked for a grant only while it owes
nothing. A grant is confirmed only if its usable bytes are at least the debt, or
at least as many as the debt and the pending allocations it confirms have beyond
the unconfirmed ones. A revoke begins only if the debt and what the Committed
allocations lack of its size fit into the unconfirmed ones. An allocation is
abandoned only if, without it, they still hold what each revoke at work will
book, and the debt of a region that was asked for it. -/
def Backed (s : System) : Op → Prop
  | .reserveFromRegion d _ _ => ∀ r ∈ s.shared.region? d, r.revokedOwed = 0
  | .handleReservedAlloc d ids requested granted =>
    ∀ r ∈ s.shared.region? d,
      r.revokedOwed ≤ DonatableRegion.usableGrant requested granted ∨
      r.revokedOwed + granularity * (ids.filter (pending s.shared)).length ≤
        DonatableRegion.usableGrant requested granted + granularity * (unconfirmed s d).length
  | .beginRevoke d size _ =>
    ∀ r ∈ s.shared.region? d, r.revokedOwed + lack s.shared r.allocations.values size ≤
      granularity * (unconfirmed s d).length
  | .abandon x =>
    (∀ t ∈ s.tasks, t.DebtWithout s.shared x fun d =>
      granularity * ((unconfirmed s d).erase x).length) ∧
    ∀ t ∈ s.tasks, ∀ d ∈ t.asked, x ∈ t.asking d → ∀ r ∈ s.shared.region? d,
      r.revokedOwed ≤ granularity * ((unconfirmed s d).erase x).length
  | _ => True

-- ---------------------------------------------------------------------------
-- How the list changes
-- ---------------------------------------------------------------------------

/-- What a region has been asked for is in its books, pending, and in the hands
of a grant. -/
theorem mem_unconfirmed {s : System} (hCore : CoreInv s) {d : DonorAllocation} {x : AllocId} :
    x ∈ unconfirmed s d ↔
      s.shared.recorded d x = true ∧ (s.shared.alloc x).state = .pendingCommit ∧
        ∃ (i : Nat) (t : Task), s.tasks[i]? = some t ∧ x ∈ t.asking d := by
  unfold unconfirmed
  cases hr : s.shared.region? d with
  | none => simp [Shared.recorded, hr]
  | some r =>
    simp only [List.mem_filter, Bool.and_eq_true, List.any_eq_true, decide_eq_true_eq, pending]
    constructor
    · rintro ⟨hMem, hState, t, ht, hx⟩
      obtain ⟨i, hi⟩ := List.getElem?_of_mem ht
      exact ⟨hCore.recorded_of_value hr hMem, hState, i, t, hi, hx⟩
    · rintro ⟨hRec, hState, i, t, ht, hx⟩
      refine ⟨?_, hState, t, List.mem_of_getElem? ht, hx⟩
      simp only [Shared.recorded, hr, OrdMap.contains] at hRec
      obtain ⟨y, hy⟩ := Option.isSome_iff_exists.mp hRec
      have hOwn := (hCore.accounting.books d r hr).own x y hy
      rw [hOwn] at hy
      exact OrdMap.mem_values_iff.mpr ⟨x, hy⟩

/-- Each allocation covers a debt once. -/
theorem unconfirmed_nodup {s : System} (hCore : CoreInv s) (d : DonorAllocation) :
    (unconfirmed s d).Nodup := by
  unfold unconfirmed
  split
  · exact List.nodup_nil
  · rename_i r hr
    exact (values_nodup (hCore.accounting.books d r hr)).filter _

/-- What a grant has asked for it still has to back. -/
theorem AllocCall.asking_subset {d : DonorAllocation} {a : AllocCall} {x : AllocId}
    (h : x ∈ a.asking d) : x ∈ a.rest := by
  unfold asking at h
  split at h
  · exact List.mem_of_mem_take (mem_ite_nil.mp h).2
  · cases h

/-- The allocations a region is asked for are the first that are left. -/
theorem AllocCall.asking_eq {d : DonorAllocation} {a : AllocCall} {x : AllocId}
    (h : x ∈ a.asking d) :
    ∃ size, a.asked = some (d, size) ∧ a.asking d = a.rest.take (size / granularity) := by
  unfold asking at h ⊢
  split at h
  · rename_i d' size hAsked
    obtain ⟨rfl, -⟩ := mem_ite_nil.mp h
    exact ⟨size, hAsked, if_pos rfl⟩
  · cases h

/-- What a grant has asked a region for it goes on to ask, until it confirms. -/
theorem AllocCall.Step.asking {s : Shared} {a a' : AllocCall} {op : Op}
    (h : AllocCall.Step s a op a') (hRange : a.InRange) {d : DonorAllocation} {x : AllocId}
    (hx : x ∈ a.asking d) :
    x ∈ a'.asking d ∨ ∃ n m, op = .handleReservedAlloc d (a.asking d) n m := by
  cases h with
  | donate => exact Or.inl hx
  | refused _ =>
    obtain ⟨size, hAsked, hEq⟩ := AllocCall.asking_eq hx
    cases hAsked
    rw [hEq]
    exact Or.inr ⟨_, _, rfl⟩
  | regionGone _ =>
    obtain ⟨size, hAsked, hEq⟩ := AllocCall.asking_eq hx
    cases hAsked
    rw [hEq]
    exact Or.inr ⟨_, _, rfl⟩
  | owing _ _ _ =>
    obtain ⟨size, hAsked, hEq⟩ := AllocCall.asking_eq hx
    cases hAsked
    rw [hEq]
    exact Or.inr ⟨_, _, rfl⟩
  | confirmed _ _ _ _ =>
    obtain ⟨size, hAsked, hEq⟩ := AllocCall.asking_eq hx
    cases hAsked
    rw [hEq]
    exact Or.inr ⟨_, _, rfl⟩
  | @confirmOut backed rest last d' size granted r hLt =>
    have hLen : (rest.take (size / granularity)).length = size / granularity :=
      List.length_take_of_le hRange
    have hFinal := Nat.div_le_div_right (c := granularity) (finalSize_le r size granted)
    rw [hLen] at hLt
    exact absurd hFinal (Nat.not_le.mpr hLt)
  | _ => cases hx

/-- What a thread has asked a region for it goes on to ask, until it confirms. -/
theorem Task.Step.asking {s : System} {i : Nat} {t t' : Task} {op : Op} {started : List Task}
    (hCore : CoreInv s) (ht : s.tasks[i]? = some t) (h : Task.Step i s.shared t op t' started)
    {d : DonorAllocation} {x : AllocId} (hx : x ∈ t.asking d) :
    x ∈ t'.asking d ∨ ∃ n m, op = .handleReservedAlloc d (t.asking d) n m := by
  match t, hx with
  | .request ⟨v, .allocate call l⟩, hx =>
    cases h with
    | request hq =>
      cases hq with
      | allocate hc => exact hc.asking (hCore.accounting.inRange i _ ht) hx
      | allocated hDone =>
        obtain ⟨backed, rest, last, pc⟩ := call
        cases hDone
        cases hx

/-- Who asks a region for an allocation is going to strike it or park it. -/
theorem one_le_tokens_of_asking {t : Task} {d : DonorAllocation} {x : AllocId}
    (hx : x ∈ t.asking d) : 1 ≤ (bookWeights d x).task t := by
  match t, hx with
  | .request ⟨v, .allocate ⟨backed, rest, last, .donate d' size⟩ l⟩, hx =>
    obtain ⟨rfl, hIn⟩ := mem_ite_nil.mp hx
    show 1 ≤ (if d' = d' then cnt x (rest.take (size / granularity)) else 0)
    rw [if_pos rfl]
    exact one_le_cnt_iff.mpr hIn
  | .request ⟨v, .allocate ⟨backed, rest, last, .confirm d' size granted⟩ l⟩, hx =>
    obtain ⟨rfl, hIn⟩ := mem_ite_nil.mp hx
    show 1 ≤ (if d' = d' then cnt x (rest.take (size / granularity)) else 0)
    rw [if_pos rfl]
    exact one_le_cnt_iff.mpr hIn

/-- Who strikes an allocation was going to. -/
theorem GiveBack.Step.one_le_tokens {s : Shared} {g g' : GiveBack} {d : DonorAllocation}
    {x : AllocId} (h : GiveBack.Step s g (.bookkeep d x) g') : 1 ≤ g.tokens d x := by
  cases h with
  | @book _ ids todo _ _ =>
    show 1 ≤ (if d = d then cnt x (x :: todo) else 0)
    rw [if_pos rfl]
    exact one_le_cnt_iff.mpr (List.mem_cons_self ..)

/-- An allocation that a return strikes was grouped by it. -/
theorem ReturnCall.Step.one_le_tokens {tid : Tid} {s : Shared} {r r' : ReturnCall}
    {d : DonorAllocation} {x : AllocId} (h : ReturnCall.Step tid s r (.bookkeep d x) r') :
    1 ≤ r.tokens d x := by
  cases h with
  | release _ hr => cases hr
  | giveBack hg hStep =>
    exact le_trans hStep.one_le_tokens (Machine.le_weigh (GiveBack.tokens_nonneg d x) hg)

/-- Who strikes an allocation from the books was going to. -/
theorem Task.Step.one_le_tokens {tid : Tid} {s : Shared} {t t' : Task} {d : DonorAllocation}
    {x : AllocId} {started : List Task} (h : Task.Step tid s t (.bookkeep d x) t' started) :
    1 ≤ (bookWeights d x).task t ∧ x ∉ t.asking d := by
  cases h with
  | events hl => cases hl
  | detection hl =>
    cases hl with
    | consumerReturn hr => exact ⟨hr.one_le_tokens, nofun⟩
    | donorReturn hr => exact ⟨hr.one_le_tokens, nofun⟩
  | revoke hv =>
    cases hv with
    | giveBack hr => exact ⟨hr.one_le_tokens, nofun⟩
  | request hq =>
    cases hq with
    | drop hr => cases hr
    | returnDead hr => exact ⟨hr.one_le_tokens, nofun⟩
    | returnAll hr => exact ⟨hr.one_le_tokens, nofun⟩
    | allocate hc =>
      cases hc with
      | giveBack hg => exact ⟨hg.one_le_tokens, nofun⟩

/-- What a grant asks for no return strikes, since it has no donor to be taken for. -/
theorem CoreInv.not_booked_of_asking {s s' : System} (h : CoreInv s) {d : DonorAllocation}
    {x : AllocId} (hm : orchestrator.Move s (.bookkeep d x) s') {j : Nat} {u : Task}
    (hu : s.tasks[j]? = some u) : x ∉ u.asking d := by
  intro hx
  rcases move_cases hm with ⟨i, t, t', started, ht, hs, -⟩ | ⟨started, hs, -⟩
  · obtain ⟨hToken, hNot⟩ := hs.one_le_tokens
    have hij : i ≠ j := by
      rintro rfl
      cases Option.some.inj (ht.symm.trans hu)
      exact hNot hx
    have hBoth := Machine.add_le_weigh (bookWeights_nonneg d x) hij ht hu
    have hAsk := one_le_tokens_of_asking hx
    have hTotal := h.tokens.book d x
    have hRec := ind_le_one (s.shared.recorded d x = true)
    have hPark := ind_nonneg ((s.shared.alloc x).parkedAt d = true)
    simp only [Machine.total, bookMeasure] at hTotal
    omega
  · cases hs

/-- What a grant asks for has no donor yet. -/
theorem CoreInv.unset_of_asking {s : System} (h : CoreInv s) {i : Nat} {t : Task}
    (ht : s.tasks[i]? = some t) {d : DonorAllocation} {x : AllocId} (hx : x ∈ t.asking d) :
    (s.shared.alloc x).donorInfo = none := by
  match t, ht, hx with
  | .request ⟨v, .allocate call l⟩, ht, hx => exact h.rest_unset ht (AllocCall.asking_subset hx)

/-- An unconfirmed allocation stays so until it is abandoned or confirmed. -/
theorem unconfirmed_kept {s s' : System} {op : Op} (hCore : CoreInv s)
    (hm : orchestrator.Move s op s') {d : DonorAllocation} {x : AllocId}
    (hx : x ∈ unconfirmed s d) (hAbandon : op ≠ .abandon x)
    (hConfirm : ∀ ids n m, op = .handleReservedAlloc d ids n m → x ∉ ids) :
    x ∈ unconfirmed s' d := by
  obtain ⟨hRec, hState, j, u, hu, hAsk⟩ := (mem_unconfirmed hCore).mp hx
  refine (mem_unconfirmed (hCore.move hm)).mpr ?_
  rw [hm.shared_eq]
  refine ⟨?_, ?_, ?_⟩
  · show (op.exec s.shared).recorded d x = true
    rw [recorded_exec]
    cases op with
    | reserveFromRegion d' size ids => simp [recordedAfter, hRec]
    | handleReservedAlloc d' ids n m =>
      simp only [recordedAfter, hRec, Bool.true_and, Bool.not_eq_true', Bool.and_eq_false_iff,
        decide_eq_false_iff_not]
      by_cases hd : d' = d
      · subst hd
        exact Or.inr fun hDrop => hConfirm ids n m rfl (List.mem_of_mem_drop hDrop)
      · exact Or.inl hd
    | bookkeep d' y =>
      simp only [recordedAfter, hRec, Bool.true_and, Bool.not_eq_true', Bool.and_eq_false_iff,
        decide_eq_false_iff_not]
      by_cases hd : d' = d
      · subst hd
        refine Or.inr ?_
        rintro rfl
        exact hCore.not_booked_of_asking hm hu hAsk
      · exact Or.inl hd
    | _ => exact hRec
  · have hLt := hCore.recorded_known hRec
    have hChange := allocChange_exec op s.shared x
    show ((op.exec s.shared).alloc x).state = .pendingCommit
    generalize (op.exec s.shared).alloc x = a at hChange ⊢
    cases hChange with
    | same _ _ _ _ _ => exact hState
    | created hNew => exact absurd hLt (Nat.not_lt.mpr hNew.1)
    | donorSet => exact hState
    | committed _ =>
      exfalso
      rcases move_cases hm with ⟨i, t, t', started, ht, hs, -⟩ | ⟨started, hs, -⟩
      · obtain ⟨v, call, l, d', n, abandoned, rfl, hpc⟩ := hs.commitsState
        exact (hCore.tokens.commit.first ht hpc).2 (hCore.unset_of_asking hu hAsk)
      · cases hs
    | claimed hs =>
      rw [hState] at hs
      cases hs
    | abandoned => exact absurd rfl hAbandon
    | requested _ => exact hState
    | marked _ => exact hState
  · cases hm with
    | @task i t t' ch started ht hn =>
      by_cases hij : i = j
      · subst hij
        cases Option.some.inj (hu.symm.trans ht)
        have hStep : Task.Step i s.shared u op t' started := Task.step_of_next hn
        rcases hStep.asking hCore hu hAsk with hAsk' | ⟨n, m, hop⟩
        · exact ⟨i, t', Machine.getElem?_set_append_self hu, hAsk'⟩
        · exact absurd hAsk (hConfirm _ n m hop)
      · exact ⟨j, u, Machine.getElem?_set_append_ne hij hu, hAsk⟩
    | @outside started hs =>
      have hLt := (List.getElem?_eq_some_iff.mp hu).1
      exact ⟨j, u, by rw [List.getElem?_append_left hLt, hu], hAsk⟩

theorem length_le_of_subset {l l' : List AllocId} (hNodup : l.Nodup) (h : ∀ x ∈ l, x ∈ l') :
    l.length ≤ l'.length :=
  (List.subperm_of_subset hNodup h).length_le

/-- The cover of a region shrinks only when it is confirmed or abandoned. -/
theorem length_unconfirmed_le {s s' : System} {op : Op} (hCore : CoreInv s)
    (hm : orchestrator.Move s op s') {d : DonorAllocation} (hAbandon : ∀ x, op ≠ .abandon x)
    (hConfirm : ∀ ids n m, op ≠ .handleReservedAlloc d ids n m) :
    (unconfirmed s d).length ≤ (unconfirmed s' d).length := by
  refine length_le_of_subset (unconfirmed_nodup hCore d) fun x hx => ?_
  exact unconfirmed_kept hCore hm hx (hAbandon x) fun ids n m hop => absurd hop (hConfirm ids n m)

/-- A confirmation takes away the pending allocations it confirms and no others. -/
theorem length_unconfirmed_confirm {s s' : System} {d : DonorAllocation} {ids : List AllocId}
    {n m : Nat} (hCore : CoreInv s)
    (hm : orchestrator.Move s (.handleReservedAlloc d ids n m) s') :
    (unconfirmed s d).length ≤
      (ids.filter (pending s.shared)).length + (unconfirmed s' d).length := by
  rw [← List.length_append]
  refine length_le_of_subset (unconfirmed_nodup hCore d) fun x hx => ?_
  rw [List.mem_append]
  by_cases hIn : x ∈ ids
  · have hState := ((mem_unconfirmed hCore).mp hx).2.1
    exact Or.inl (List.mem_filter.mpr ⟨hIn, decide_eq_true hState⟩)
  · refine Or.inr (unconfirmed_kept hCore hm hx nofun fun ids' n' m' hop => ?_)
    cases hop
    exact hIn

/-- Abandoning an allocation takes away that one and no other. -/
theorem length_unconfirmed_abandon {s s' : System} {x : AllocId} (hCore : CoreInv s)
    (hm : orchestrator.Move s (.abandon x) s') (d : DonorAllocation) :
    ((unconfirmed s d).erase x).length ≤ (unconfirmed s' d).length := by
  have hNodup := unconfirmed_nodup hCore d
  refine length_le_of_subset (hNodup.erase x) fun y hy => ?_
  have hne : y ≠ x := fun heq => hNodup.not_mem_erase (heq ▸ hy)
  exact unconfirmed_kept hCore hm (List.mem_of_mem_erase hy) (by simp [hne.symm]) nofun

-- ---------------------------------------------------------------------------
-- Every run
-- ---------------------------------------------------------------------------

/-- What covers the debt of a region. -/
def cover (s : System) (d : DonorAllocation) : Nat := granularity * (unconfirmed s d).length

structure BackedInv (s : System) : Prop where
  revoke : RevokeInv s
  owed : ∀ d r, s.shared.region? d = some r → r.revokedOwed ≤ cover s d
  debt : ∀ (i : Nat) (t : Task), s.tasks[i]? = some t → t.DebtWithin s.shared (cover s)

/-- Apart from confirmations and abandonments, what covers a debt only grows. -/
theorem cover_le {s s' : System} {op : Op} (hCore : CoreInv s) (hm : orchestrator.Move s op s')
    {d : DonorAllocation} (hAbandon : ∀ x, op ≠ .abandon x)
    (hConfirm : ∀ ids n m, op ≠ .handleReservedAlloc d ids n m) : cover s d ≤ cover s' d :=
  Nat.mul_le_mul_left _ (length_unconfirmed_le hCore hm hAbandon hConfirm)

/-- While a revoke goes through a region's list, nobody confirms a grant of
that region. -/
theorem RevokeInv.not_confirmed {s s' : System} (h : RevokeInv s) {d : DonorAllocation}
    {ids : List AllocId} {n m : Nat}
    (hm : orchestrator.Move s (.handleReservedAlloc d ids n m) s') {j : Nat} {u : Task}
    (hu : s.tasks[j]? = some u) (hHolds : u.holdsDonor d.donorVm) : s.shared.region? d = none := by
  rcases move_cases hm with ⟨i, t, t', started, ht, hs, -⟩ | ⟨started, hs, -⟩
  · rcases hs.books_locked rfl with hFree | hOwn | hNone
    · have hLock := h.lock j u hu _ hHolds
      rw [hFree] at hLock
      cases hLock
    · -- a confirmation is a step of a request, which holds no donor's mutex
      match t, hOwn with
      | .revoke ⟨d', .select todo claimed remaining⟩, _ =>
        cases hs with
        | revoke hv => cases hv
      | .detection (.donorCollect todo allocs w vms), _ =>
        cases hs with
        | detection hl => cases hl
    · exact hNone
  · cases hs

theorem Task.DebtWithout.mono {s : Shared} {x : AllocId} {b b' : DonorAllocation → Nat} {t : Task}
    (h : t.DebtWithout s x b) (hb : ∀ d, b d ≤ b' d) : t.DebtWithout s x b' := by
  match t, h with
  | .revoke ⟨d, .select todo claimed remaining⟩, h => exact fun r hr => le_trans (h r hr) (hb d)
  | .revoke ⟨d, .start size⟩, _ => trivial
  | .revoke ⟨d, .giveBack call⟩, _ => trivial
  | .revoke ⟨d, .done⟩, _ => trivial
  | .events _, _ => trivial
  | .detection _, _ => trivial
  | .request _, _ => trivial

/-- What a revoke at work will book stays covered. -/
theorem BackedInv.debt_move {s s' : System} {op : Op} (h : BackedInv s)
    (hm : orchestrator.Move s op s') (hOp : Backed s op) :
    ∀ (i : Nat) (t : Task), s'.tasks[i]? = some t → t.DebtWithin s'.shared (cover s') := by
  have hCore := h.revoke.core
  refine h.revoke.debtWithin_move hm h.debt ?_ ?_ ?_
  · rintro d size tid rfl r hr
    exact le_trans (hOp r hr) (cover_le hCore hm nofun nofun)
  · rintro x rfl t ht
    exact (hOp.1 t ht).mono fun d =>
      Nat.mul_le_mul_left _ (length_unconfirmed_abandon hCore hm d)
  · intro hNot j u hu d hHolds
    by_cases hConfirm : ∃ ids n m, op = .handleReservedAlloc d ids n m
    · obtain ⟨ids, n, m, rfl⟩ := hConfirm
      have hNone := h.revoke.not_confirmed hm hu hHolds
      have hZero : cover s d = 0 := by simp [cover, unconfirmed, hNone]
      rw [hZero]
      exact Nat.zero_le _
    · exact cover_le hCore hm hNot fun ids n m hop => hConfirm ⟨ids, n, m, hop⟩

/-- What a confirmation leaves of a debt. -/
theorem owed_confirmed (r : DonatableRegion) (ids : List AllocId) (requested granted : Nat) :
    (r.handleReservedAlloc ids requested granted).1.revokedOwed =
      r.revokedOwed - DonatableRegion.usableGrant requested granted := by
  show r.revokedOwed - r.toRevoke requested granted = _
  unfold DonatableRegion.toRevoke
  split
  · omega
  · omega

/-- The thread that books a debt is a revoke that has gone through its list. -/
theorem Task.Step.booksDebt {tid : Tid} {s : Shared} {t t' : Task} {d : DonorAllocation}
    {n : Nat} {started : List Task} (h : Task.Step tid s t (.bookDebt d n) t' started) :
    ∃ todo claimed, t = .revoke ⟨d, .select todo claimed n⟩ ∧ (todo = [] ∨ n = 0) := by
  obtain ⟨v, v', rfl, rfl, hv⟩ := h.ofRevoke rfl
  cases hv with
  | enough hLast => exact ⟨_, _, rfl, hLast⟩
  | giveBack hr => cases hr.performer

/-- What a region owes stays covered. -/
theorem BackedInv.owed_move {s s' : System} {op : Op} (h : BackedInv s)
    (hm : orchestrator.Move s op s') (hOp : Backed s op) :
    ∀ d r, s'.shared.region? d = some r → r.revokedOwed ≤ cover s' d := by
  intro d r' hr'
  have hCore := h.revoke.core
  have hShared : s'.shared = op.exec s.shared := hm.shared_eq
  rw [hShared] at hr'
  cases hr : s.shared.region? d with
  | none =>
    rw [region?_exec_none op hr] at hr'
    cases hr'
  | some r =>
    obtain ⟨r'', hr'', hChange⟩ := regionChange_exec op hr
    rw [hr''] at hr'
    cases hr'
    have hOld := h.owed d r hr
    cases hChange with
    | same _ hConfirm _ _ =>
      by_cases hAbandon : ∃ x, op = .abandon x
      · obtain ⟨x, rfl⟩ := hAbandon
        refine le_trans ?_ (Nat.mul_le_mul_left _ (length_unconfirmed_abandon hCore hm d))
        by_cases hx : x ∈ unconfirmed s d
        · obtain ⟨-, -, i, t, ht, hAsk⟩ := (mem_unconfirmed hCore).mp hx
          have hAsked : d ∈ t.asked := by
            match t, hAsk with
            | .request ⟨v, .allocate call l⟩, hAsk =>
              obtain ⟨size, hAsked, -⟩ := AllocCall.asking_eq hAsk
              show d ∈ call.asked.map Prod.fst
              rw [hAsked]
              rfl
          exact hOp.2 t (List.mem_of_getElem? ht) d hAsked hAsk _ hr
        · rw [List.erase_of_not_mem hx]
          exact hOld
      · exact le_trans hOld (cover_le hCore hm (fun x hx => hAbandon ⟨x, hx⟩) hConfirm)
    | reserved =>
      have hZero : r.revokedOwed = 0 := hOp r hr
      show r.revokedOwed ≤ _
      rw [hZero]
      exact Nat.zero_le _
    | @confirmed ids n m =>
      have hCover := Nat.mul_le_mul_left granularity (length_unconfirmed_confirm hCore hm)
      rw [owed_confirmed]
      rw [Nat.mul_add] at hCover
      unfold cover at hOld ⊢
      rcases hOp r hr with hPaid | hPart
      · omega
      · omega
    | booked =>
      refine le_trans ?_ (cover_le hCore hm nofun nofun)
      unfold DonatableRegion.bookkeep
      split <;> exact hOld
    | @debt n =>
      refine le_trans ?_ (cover_le hCore hm nofun nofun)
      show r.revokedOwed + n ≤ cover s d
      rcases move_cases hm with ⟨i, t, t', started, ht, hs, -⟩ | ⟨started, hs, -⟩
      · obtain ⟨todo, claimed, rfl, hLast⟩ := hs.booksDebt
        have hDebt : r.revokedOwed + lack s.shared todo n ≤ cover s d := h.debt i _ ht r hr
        have hLe : n ≤ lack s.shared todo n := by
          rcases hLast with rfl | rfl
          · exact Nat.le_refl _
          · exact Nat.zero_le _
        omega
      · cases hs

/-- The debts that are booked and those that will be stay covered together. -/
theorem BackedInv.move {s s' : System} {op : Op} (h : BackedInv s)
    (hm : orchestrator.Move s op s') (hOp : Backed s op) : BackedInv s' where
  revoke := h.revoke.move hm
  owed := h.owed_move hm hOp
  debt := h.debt_move hm hOp

theorem backedInv_init {vm : VmId → Vm} {donor : VmId → DonorState} (hFresh : FreshDonors donor) :
    BackedInv (initSystem vm donor) where
  revoke := revokeInv_init hFresh
  owed := by
    intro d r hr
    rw [hFresh d.donorVm r (region?_mem hr)]
    exact Nat.zero_le _
  debt := by
    intro i t ht
    have hMem := List.mem_of_getElem? ht
    simp only [initSystem, List.mem_cons, List.not_mem_nil, or_false] at hMem
    rcases hMem with rfl | rfl <;> trivial

/-- Every debt is covered in every state of such a run. -/
theorem ReachableBy.backedInv {s : System} (h : ReachableBy Backed s) : BackedInv s := by
  obtain ⟨vm, donor, hFresh, hRun⟩ := h
  exact hRun.invariant (fun _ _ _ hs hm hOp => hs.move hm hOp) (backedInv_init hFresh)

-- ---------------------------------------------------------------------------
-- Whose debt a grant pays
-- ---------------------------------------------------------------------------

/-- Since `log`, the region `d` has been asked to revoke, or it owes nothing
and no revoke is going through its list. -/
def DebtSince (log : List Output) (d : DonorAllocation) (s : System) : Prop :=
  (∃ new n, s.shared.log = new ++ log ∧ .revokeAsked d n ∈ new) ∨
  log <:+ s.shared.log ∧ (∀ r, s.shared.region? d = some r → r.revokedOwed = 0) ∧
    ∀ (i : Nat) todo claimed remaining,
      s.tasks[i]? ≠ some (.revoke ⟨d, .select todo claimed remaining⟩)

/-- A revoke goes through the list of `d` only after it was asked to. -/
theorem Task.Step.selecting {tid : Tid} {s : Shared} {t t' : Task} {op : Op}
    {started : List Task} (h : Task.Step tid s t op t' started) {d : DonorAllocation}
    {todo claimed : List AllocId} {remaining : Nat}
    (ht' : t' = .revoke ⟨d, .select todo claimed remaining⟩) :
    (∃ n, op = .beginRevoke d n tid) ∨
      ∃ todo claimed remaining, t = .revoke ⟨d, .select todo claimed remaining⟩ := by
  cases h with
  | revoke hv =>
    cases hv with
    | enter _ _ _ =>
      cases ht'
      exact Or.inl ⟨_, rfl⟩
    | claim _ _ =>
      cases ht'
      exact Or.inr ⟨_, _, _, rfl⟩
    | pass _ =>
      cases ht'
      exact Or.inr ⟨_, _, _, rfl⟩
    | _ => cases ht'
  | _ => cases ht'

/-- A debt comes after a revoke was asked for, which the log keeps. -/
theorem DebtSince.move {s s' : System} {op : Op} {log : List Output} {d : DonorAllocation}
    (h : DebtSince log d s) (hm : orchestrator.Move s op s') : DebtSince log d s' := by
  have hShared : s'.shared = op.exec s.shared := hm.shared_eq
  obtain ⟨new', hNew'⟩ := (evolves_exec op s.shared).log
  rcases h with ⟨new, n, hLog, hMem⟩ | ⟨⟨new, hLog⟩, hOwed, hNone⟩
  · refine Or.inl ⟨new' ++ new, n, ?_, List.mem_append_right _ hMem⟩
    rw [hShared, ← hNew', hLog, List.append_assoc]
  · by_cases hBegin : ∃ n tid, op = .beginRevoke d n tid
    · obtain ⟨n, tid, rfl⟩ := hBegin
      refine Or.inl ⟨.revokeAsked d n :: new, n, ?_, List.mem_cons_self ..⟩
      rw [hShared]
      show Output.revokeAsked d n :: s.shared.log = _
      rw [← hLog]
      rfl
    · refine Or.inr ⟨⟨new' ++ new, ?_⟩, fun r' hr' => ?_, fun i todo claimed remaining hi => ?_⟩
      · rw [hShared, ← hNew', ← hLog, List.append_assoc]
      · rw [hShared] at hr'
        cases hr : s.shared.region? d with
        | none =>
          rw [region?_exec_none op hr] at hr'
          cases hr'
        | some r =>
          obtain ⟨r'', hr'', hChange⟩ := regionChange_exec op hr
          rw [hr''] at hr'
          cases hr'
          have hZero := hOwed r hr
          cases hChange with
          | same _ _ _ _ => exact hZero
          | reserved => exact hZero
          | confirmed =>
            rw [owed_confirmed, hZero]
            exact Nat.zero_sub _
          | booked =>
            unfold DonatableRegion.bookkeep
            split <;> exact hZero
          | debt =>
            rcases move_cases hm with ⟨i, t, t', started, ht, hs, -⟩ | ⟨started, hs, -⟩
            · obtain ⟨todo, claimed, rfl, -⟩ := hs.booksDebt
              exact absurd ht (hNone i _ _ _)
            · cases hs
      · refine forall_tasks_ne (J := fun _ _ t => ∀ todo claimed remaining,
          t ≠ .revoke ⟨d, .select todo claimed remaining⟩) hm ?_ ?_ i _ hi todo claimed remaining rfl
        · intro i t t' started ht hs
          refine ⟨fun todo claimed remaining heq => ?_, fun _ u hu todo claimed remaining heq => ?_,
            fun j u _ hu todo claimed remaining heq => hNone j _ _ _ (heq ▸ hu)⟩
          · rcases hs.selecting heq with ⟨n, hop⟩ | ⟨todo, claimed, remaining, rfl⟩
            · exact hBegin ⟨n, i, hop⟩
            · exact hNone i _ _ _ ht
          · subst heq
            exact hs.not_holdsDonor_started hu d.donorVm rfl
        · intro started hs
          refine ⟨fun _ u hu todo claimed remaining heq => ?_,
            fun j u hu todo claimed remaining heq => hNone j _ _ _ (heq ▸ hu)⟩
          cases hs with
          | request =>
            rw [List.mem_singleton.mp hu] at heq
            cases heq
          | _ => cases hu

/-- The thread that asks a region for a grant found its donor's mutex free. -/
theorem Task.Step.reserve_free {tid : Tid} {s : Shared} {t t' : Task} {d : DonorAllocation}
    {size : Nat} {ids : List AllocId} {started : List Task}
    (h : Task.Step tid s t (.reserveFromRegion d size ids) t' started) :
    s.donorLock d.donorVm = none := by
  obtain ⟨c, call, call', rsvd, rfl, rfl, hc⟩ := h.grant rfl
  cases hc with
  | reserve hFree _ _ _ _ => exact hFree
  | giveBack hg => cases hg

/-- When a region is asked for a grant it owes nothing. -/
theorem debtSince_asked {s s1 : System} {d : DonorAllocation} {size : Nat} {ids : List AllocId}
    (h : LockInv s) (hm : orchestrator.Move s (.reserveFromRegion d size ids) s1)
    (hOp : Backed s (.reserveFromRegion d size ids)) : DebtSince s1.shared.log d s1 := by
  refine Or.inr ⟨List.suffix_refl _, fun r1 hr1 => ?_, fun j todo claimed remaining hj => ?_⟩
  · rw [hm.shared_eq] at hr1
    cases hr : s.shared.region? d with
    | none =>
      have hNone := region?_exec_none (.reserveFromRegion d size ids) hr
      exact absurd (hr1.symm.trans hNone) nofun
    | some r =>
      obtain ⟨r', hr', hChange⟩ := regionChange_exec (.reserveFromRegion d size ids) hr
      cases Option.some.inj (hr'.symm.trans hr1)
      cases hChange with
      | same hNot _ _ _ => exact absurd rfl (hNot size ids)
      | reserved => exact hOp r hr
  · have hLock : s1.shared.donorLock d.donorVm = some j := h.move hm j _ hj _ rfl
    rcases move_cases hm with ⟨i, t, t', started, ht, hs, -⟩ | ⟨started, hs, -⟩
    · rw [hm.shared_eq] at hLock
      have hFree : ((Op.reserveFromRegion d size ids).exec s.shared).donorLock d.donorVm = none :=
        hs.reserve_free
      exact absurd (hLock.symm.trans hFree) nofun
    · cases hs

/-- **Debts are backed.** In every run in which regions are asked, grants
confirmed, revokes begun and allocations abandoned only when `Backed` has it: in
every state reached, a region owes no more than its unconfirmed allocations; and
when it owes anything after it was asked for a grant, it has been asked to revoke
since, so a grant never pays for an earlier revoke. -/
theorem debt_backed {s : System} (h : ReachableBy Backed s) :
    (∀ d r, s.shared.region? d = some r →
      r.revokedOwed ≤ granularity * (unconfirmed s d).length) ∧
    ∀ s1 s2 d size ids, orchestrator.Move s (.reserveFromRegion d size ids) s1 →
      Backed s (.reserveFromRegion d size ids) → orchestrator.Steps Backed s1 s2 →
      ∀ r, s2.shared.region? d = some r → 0 < r.revokedOwed →
        ∃ new n, s2.shared.log = new ++ s1.shared.log ∧ .revokeAsked d n ∈ new := by
  refine ⟨h.backedInv.owed, fun s1 s2 d size ids hm hOp hRun r hr hPos => ?_⟩
  have hStart := debtSince_asked h.backedInv.revoke.lock hm hOp
  have hSince : DebtSince s1.shared.log d s2 :=
    hRun.invariant (fun _ _ _ hs hm _ => hs.move hm) hStart
  rcases hSince with hAsked | ⟨-, hOwed, -⟩
  · exact hAsked
  · rw [hOwed r hr] at hPos
    exact absurd hPos (Nat.lt_irrefl 0)

instance (s : System) (op : Op) : Decidable (Backed s op) := by
  induction op using Op.casesOn <;> dsimp only [Backed] <;> infer_instance

/-- VM 1 asks for one chunk and looks for a donor. -/
def demoLooking : List (Label Op Choice) :=
  [.task 1 (.register 0), .task 1 (.register 1), .outside (.startRequest 1 granularity),
    .task 2 .go, .task 2 .go, .task 2 .go, .task 2 .go]

/-- Before VM 0 has granted the chunk, it asks for one back. -/
def demoOwing : List (Label Op Choice) :=
  [.outside (.emitRevoke 0 7 granularity), .task 0 .go, .task 3 .go, .task 3 .go, .task 3 .go]

theorem demoLooking_backed : (orchestrator.runIf (fun s op => decide (Backed s op)) demo
    demoLooking).isSome = true := by decide +kernel

theorem demoOwing_backed : (orchestrator.runIf (fun s op => decide (Backed s op))
    (demoAfter (demoLooking ++ [.task 2 .go])) demoOwing).isSome = true := by decide +kernel

/-- The state the grant is asked for in, and the one VM 0 owes in. -/
def demoAskedFor : System := demoAfter (demoLooking ++ [.task 2 .go])

def demoOwes : System := orchestrator.after demoAskedFor demoOwing

/-- The request asks the region for one granule. -/
theorem demoAskedFor_move :
    orchestrator.Move (demoAfter demoLooking) (.reserveFromRegion ⟨0, 7⟩ granularity [1])
      demoAskedFor := by
  have hOp : orchestrator.opOf (demoAfter demoLooking) (.task 2 .go) =
      some (.reserveFromRegion ⟨0, 7⟩ granularity [1]) := by decide +kernel
  have hFire : orchestrator.fire (demoAfter demoLooking) (.task 2 .go) = some demoAskedFor :=
    Machine.fire_after (by decide +kernel)
  exact Machine.move_of_opOf hOp hFire

/-- The region owes nothing when it is asked. -/
theorem demoAskedFor_backed :
    Backed (demoAfter demoLooking) (.reserveFromRegion ⟨0, 7⟩ granularity [1]) := by
  decide +kernel

theorem demoOwes_reachable : ReachableBy Backed demoOwes := by
  obtain ⟨vm, donor, hFresh, hRun⟩ := demo_reachableBy demoLooking_backed
  have hAsked := Machine.Steps.tail hRun demoAskedFor_move demoAskedFor_backed
  exact ⟨vm, donor, hFresh, hAsked.trans (Machine.steps_afterIf demoOwing_backed)⟩

theorem debt_backed_owing :
    ∃ r, demoOwes.shared.region? ⟨0, 7⟩ = some r ∧ r.revokedOwed = granularity ∧
      r.revokedOwed ≤ granularity * (unconfirmed demoOwes ⟨0, 7⟩).length ∧
      ∃ new n, demoOwes.shared.log = new ++ demoAskedFor.shared.log ∧
        .revokeAsked ⟨0, 7⟩ n ∈ new := by
  have hOwed : (demoOwes.shared.region? ⟨0, 7⟩).map DonatableRegion.revokedOwed =
      some granularity := by decide +kernel
  obtain ⟨r, hr, hEq⟩ := Option.map_eq_some_iff.mp hOwed
  refine ⟨r, hr, hEq, (debt_backed demoOwes_reachable).1 _ _ hr, ?_⟩
  refine (debt_backed (demo_reachableBy demoLooking_backed)).2 _ _ _ _ _ demoAskedFor_move
    demoAskedFor_backed (Machine.steps_afterIf demoOwing_backed) r hr ?_
  rw [hEq]
  exact granularity_pos

/-- VM 0 asks for a chunk back although it has donated none. -/
def demoUnbacked : List (Label Op Choice) :=
  [.task 1 (.register 0), .outside (.emitRevoke 0 7 granularity), .task 0 .go, .task 2 .go,
    .task 2 .go]

/-- Then VM 1 asks for a chunk, and VM 0 grants it. -/
def demoConfiscated : List (Label Op Choice) :=
  demoUnbacked ++
    [.task 1 (.register 1), .outside (.startRequest 1 granularity),
      .task 3 .go, .task 3 .go, .task 3 .go, .task 3 .go, .task 3 .go,
      .task 3 (.granted (some granularity)), .task 3 .go]

theorem demoUnbacked_runs : (orchestrator.run demo demoUnbacked).isSome = true := by
  decide +kernel

theorem demoConfiscated_runs : (orchestrator.run demo demoConfiscated).isSome = true := by
  decide +kernel

/-- A region that has nothing in its books owes a chunk, and the grant that is
asked for afterwards pays for it. -/
theorem debt_unbacked :
    (∃ s r, Reachable s ∧ s.shared.region? ⟨0, 7⟩ = some r ∧
      ¬ r.revokedOwed ≤ granularity * (unconfirmed s ⟨0, 7⟩).length ∧ s.shared.nextId = 1) ∧
    ∃ s, Reachable s ∧ .confirmed ⟨0, 7⟩ [] granularity ∈ s.shared.log := by
  have hOwed : ((demoAfter demoUnbacked).shared.region? ⟨0, 7⟩).map DonatableRegion.revokedOwed =
      some granularity := by decide +kernel
  have hNone : unconfirmed (demoAfter demoUnbacked) ⟨0, 7⟩ = [] := by decide +kernel
  obtain ⟨r, hr, hEq⟩ := Option.map_eq_some_iff.mp hOwed
  refine ⟨⟨_, r, demo_reachable demoUnbacked_runs, hr, ?_, by decide +kernel⟩,
    ⟨_, demo_reachable demoConfiscated_runs, by decide +kernel⟩⟩
  rw [hEq, hNone]
  exact Nat.not_le.mpr granularity_pos

end EphMemory.Orchestrator
