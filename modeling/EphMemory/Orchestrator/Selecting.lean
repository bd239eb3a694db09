import EphMemory.Orchestrator.Debt
import EphMemory.Orchestrator.Placed

/-!
# Orchestrator — a revoke that is selecting

`revoke_eph_memory` holds the donor's mutex while it goes through a region's
allocations, but not the allocations' own: others may commit or abandon them
meanwhile. What it will book as debt is what the Committed allocations it has
not looked at yet cannot cover.

* `committedIn`, `lack` — the Committed allocations of a list, and what they
  leave uncovered of a size;
* `RevokeInv` — along every run, the list a revoke goes through is in the
  region's books, which nobody else changes;
* `RevokeInv.committed_kept` — what is Committed in the list stays so until the
  revoke comes to it, unless a return takes it;
* `RevokeInv.debtWithin_move` — so the debt it will book stays within a bound.
-/

namespace EphMemory.Orchestrator

open EphMemory.Lib

-- ---------------------------------------------------------------------------
-- Who changes a region's books
-- ---------------------------------------------------------------------------

/-- The region whose books a section of the donor changes. -/
def Op.books? : Op → Option DonorAllocation
  | .reserveFromRegion d _ _ => some d
  | .handleReservedAlloc d _ _ _ => some d
  | .bookkeep d _ => some d
  | .bookDebt d _ => some d
  | _ => none

/-- An operation on the books of one region leaves the other regions. -/
theorem region?_exec_of_books {op : Op} {s : Shared} {d : DonorAllocation}
    (h : op.books? ≠ some d) : (op.exec s).region? d = s.region? d := by
  cases hr : s.region? d with
  | none => exact region?_exec_none op hr
  | some r =>
    obtain ⟨r', hr', hChange⟩ := regionChange_exec op hr
    rw [hr']
    cases hChange with
    | same _ _ _ _ => rfl
    | _ => exact absurd rfl h

/-- A give-back strikes while no thread holds the donor's mutex. -/
theorem GiveBack.Step.books_locked {s : Shared} {g g' : GiveBack} {op : Op}
    {d : DonorAllocation} (h : GiveBack.Step s g op g') (hop : op.books? = some d) :
    s.donorLock d.donorVm = none := by
  cases h with
  | book hFree =>
    cases hop
    exact hFree
  | _ => cases hop

/-- A return touches a donor's books while no thread holds the donor's mutex. -/
theorem ReturnCall.Step.books_locked {tid : Tid} {s : Shared} {r r' : ReturnCall} {op : Op}
    {d : DonorAllocation} (h : ReturnCall.Step tid s r op r') (hop : op.books? = some d) :
    s.donorLock d.donorVm = none := by
  cases h with
  | release _ hr => cases hr <;> cases hop
  | giveBack _ hg => exact hg.books_locked hop
  | _ => cases hop

/-- A section of a donor runs while its mutex is free, or in the thread that
holds it, or finds no region. -/
theorem Task.Step.books_locked {tid : Tid} {s : Shared} {t t' : Task} {op : Op}
    {started : List Task} {d : DonorAllocation} (h : Task.Step tid s t op t' started)
    (hop : op.books? = some d) :
    s.donorLock d.donorVm = none ∨ t.holdsDonor d.donorVm ∨ s.region? d = none := by
  cases h with
  | events hl => cases hl <;> cases hop
  | detection hl =>
    cases hl with
    | consumerReturn hr => exact Or.inl (hr.books_locked hop)
    | donorReturn hr => exact Or.inl (hr.books_locked hop)
    | _ => cases hop
  | request hq =>
    cases hq with
    | allocate hc =>
      cases hc with
      | reserve hFree _ _ _ _ =>
        cases hop
        exact Or.inl hFree
      | refused hFree =>
        cases hop
        exact Or.inl hFree
      | regionGone hNone =>
        cases hop
        exact Or.inr (Or.inr hNone)
      | owing hFree _ _ =>
        cases hop
        exact Or.inl hFree
      | confirmed hFree _ _ _ =>
        cases hop
        exact Or.inl hFree
      | giveBack hg => exact Or.inl (hg.books_locked hop)
      | _ => cases hop
    | drop hr => cases hr <;> cases hop
    | returnDead hr => exact Or.inl (hr.books_locked hop)
    | returnAll hr => exact Or.inl (hr.books_locked hop)
    | _ => cases hop
  | revoke hv =>
    cases hv with
    | enough _ =>
      cases hop
      exact Or.inr (Or.inl rfl)
    | giveBack hr => exact Or.inl (hr.books_locked hop)
    | _ => cases hop

/-- While a thread is inside a section of a donor, the others leave the books
of that donor's regions alone. -/
theorem LockInv.region_kept {s : System} {op : Op} (h : LockInv s) {i j : Nat} {t t' u : Task}
    {started : List Task} (ht : s.tasks[i]? = some t) (hs : Task.Step i s.shared t op t' started)
    (hne : j ≠ i) (hu : s.tasks[j]? = some u) {d : DonorAllocation}
    (hHolds : u.holdsDonor d.donorVm) : (op.exec s.shared).region? d = s.shared.region? d := by
  by_cases hop : op.books? = some d
  · have hLock := h j u hu _ hHolds
    rcases hs.books_locked hop with hFree | hOwn | hNone
    · rw [hFree] at hLock
      cases hLock
    · exact absurd (Option.some.inj (hLock.symm.trans (h i t ht _ hOwn))) hne
    · rw [hNone]
      exact region?_exec_none op hNone
  · exact region?_exec_of_books hop

-- ---------------------------------------------------------------------------
-- What Committed allocations leave uncovered
-- ---------------------------------------------------------------------------

/-- The number of Committed allocations in a list. -/
def committedIn (s : Shared) (l : List AllocId) : Nat :=
  l.countP fun x => (s.alloc x).isCommitted

/-- What they leave uncovered of a size. -/
def lack (s : Shared) (l : List AllocId) (size : Nat) : Nat :=
  size - granularity * committedIn s l

theorem isCommitted_iff {a : EphAllocation} : a.isCommitted = true ↔ a.state = .committed :=
  decide_eq_true_iff

theorem committedIn_cons (s : Shared) (x : AllocId) (l : List AllocId) :
    committedIn s (x :: l) =
      committedIn s l + if (s.alloc x).state = .committed then 1 else 0 := by
  unfold committedIn
  rw [List.countP_cons]
  simp only [isCommitted_iff]

theorem committedIn_reverse (s : Shared) (l : List AllocId) :
    committedIn s l.reverse = committedIn s l := List.countP_reverse

/-- Allocations that stay Committed count on. -/
theorem committedIn_mono {s s' : Shared} {l : List AllocId}
    (h : ∀ x ∈ l, (s.alloc x).state = .committed → (s'.alloc x).state = .committed) :
    committedIn s l ≤ committedIn s' l :=
  List.countP_mono_left fun x hx hc => isCommitted_iff.mpr (h x hx (isCommitted_iff.mp hc))

theorem lack_mono {s s' : Shared} {l l' : List AllocId}
    (h : committedIn s l ≤ committedIn s' l') (size : Nat) : lack s' l' size ≤ lack s l size := by
  unfold lack
  have := Nat.mul_le_mul_left granularity h
  omega

/-- What the revoke does to an allocation that is Committed is what it takes
off the size: nothing changes. -/
theorem lack_claim {s s' : Shared} {x : AllocId} {todo : List AllocId} {remaining : Nat}
    (hWhole : granularity ∣ remaining) (hne : remaining ≠ 0) (hx : (s.alloc x).state = .committed)
    (hRest : committedIn s todo ≤ committedIn s' todo) :
    lack s' todo (remaining - granularity) ≤ lack s (x :: todo) remaining := by
  have hLe : granularity ≤ remaining := Nat.le_of_dvd (Nat.pos_of_ne_zero hne) hWhole
  have hMul := Nat.mul_le_mul_left granularity hRest
  unfold lack
  rw [committedIn_cons, if_pos hx, Nat.mul_add, Nat.mul_one]
  omega

/-- Passing an allocation that cannot be claimed leaves what is lacking. -/
theorem lack_pass {s s' : Shared} {x : AllocId} {todo : List AllocId} {remaining : Nat}
    (hx : (s.alloc x).state ≠ .committed) (hRest : committedIn s todo ≤ committedIn s' todo) :
    lack s' todo remaining ≤ lack s (x :: todo) remaining := by
  have hMul := Nat.mul_le_mul_left granularity hRest
  unfold lack
  rw [committedIn_cons, if_neg hx, Nat.add_zero]
  omega

-- ---------------------------------------------------------------------------
-- The list a revoke goes through
-- ---------------------------------------------------------------------------

/-- The revoke thread, with the list it goes through in the books of its
region. -/
def Task.Selects (s : Shared) : Task → Prop
  | .revoke ⟨d, .select todo _ _⟩ =>
    todo.Nodup ∧ (∃ r, s.region? d = some r) ∧ ∀ x ∈ todo, s.recorded d x = true
  | _ => True

structure RevokeInv (s : System) : Prop where
  core : CoreInv s
  placed : PlacedInv s
  whole : WholeInv s
  lock : LockInv s
  select : ∀ (i : Nat) (t : Task), s.tasks[i]? = some t → t.Selects s.shared

/-- A revoke that selects looks at its region only. -/
theorem Task.Selects.of_region {s s' : Shared} {d : DonorAllocation} {todo claimed : List AllocId}
    {remaining : Nat} (h : (Task.revoke ⟨d, .select todo claimed remaining⟩).Selects s)
    (hRegion : s'.region? d = s.region? d) :
    (Task.revoke ⟨d, .select todo claimed remaining⟩).Selects s' := by
  obtain ⟨hNodup, hr, hRec⟩ := h
  unfold Shared.recorded at hRec
  refine ⟨hNodup, by rw [hRegion]; exact hr, ?_⟩
  unfold Shared.recorded
  rw [hRegion]
  exact hRec

theorem values_nodup {r : DonatableRegion} (h : RegionOk r) : r.allocations.values.Nodup := by
  have hEq : r.allocations.values = r.allocations.keys := by
    unfold OrdMap.values OrdMap.keys
    refine List.map_congr_left fun e he => ?_
    exact h.own e.1 e.2 (OrdMap.mem_entries_iff.mp he)
  rw [hEq]
  exact OrdMap.keys_nodup _

/-- A step of the selecting revoke. -/
theorem Revoke.Step.selects {tid : Tid} {s : System} {v v' : Revoke} {op : Op} (h : CoreInv s)
    (hs : Revoke.Step tid s.shared v op v') (hv : (Task.revoke v).Selects s.shared) :
    (Task.revoke v').Selects (op.exec s.shared) := by
  cases hs with
  | @enter d size aligned r _ _ hr =>
    refine Task.Selects.of_region (s := s.shared) ?_ (region?_exec_of_books nofun)
    refine ⟨List.nodup_reverse.mpr (values_nodup (h.accounting.books d r hr)), ⟨r, hr⟩, ?_⟩
    exact fun x hx => h.recorded_of_value hr (List.mem_reverse.mp hx)
  | claim _ _ =>
    obtain ⟨hNodup, hr, hRec⟩ := hv
    refine Task.Selects.of_region (s := s.shared) ?_ (region?_exec_of_books nofun)
    exact ⟨(List.nodup_cons.mp hNodup).2, hr, fun y hy => hRec y (List.mem_cons_of_mem _ hy)⟩
  | pass _ =>
    obtain ⟨hNodup, hr, hRec⟩ := hv
    refine Task.Selects.of_region (s := s.shared) ?_ (region?_exec_of_books nofun)
    exact ⟨(List.nodup_cons.mp hNodup).2, hr, fun y hy => hRec y (List.mem_cons_of_mem _ hy)⟩
  | _ => trivial

/-- Threads other than revokes select nothing. -/
theorem selects_of_not_revoke {s : Shared} {t : Task} (h : ∀ v, t ≠ .revoke v) : t.Selects s := by
  cases t with
  | revoke v => exact absurd rfl (h v)
  | _ => trivial

/-- While a revoke selects, its region keeps what it still has to look at. -/
theorem RevokeInv.selects_move {s s' : System} {op : Op} (h : RevokeInv s)
    (hm : orchestrator.Move s op s') :
    ∀ (i : Nat) (t : Task), s'.tasks[i]? = some t → t.Selects s'.shared := by
  refine forall_tasks_ne (J := fun _ s t => t.Selects s) hm (fun i t t' started ht hs => ?_)
    (fun started hs => ?_)
  · refine ⟨?_, fun _ u hu => ?_, fun j u hne hu => ?_⟩
    · cases hs with
      | revoke hv => exact hv.selects h.core (h.select i _ ht)
      | _ => exact selects_of_not_revoke nofun
    · cases hs with
      | events hl =>
        obtain ⟨v, hv, rfl⟩ := List.mem_map.mp hu
        cases hl with
        | revokeEvent _ _ => rw [List.mem_singleton.mp hv]; trivial
        | _ => cases hv
      | _ => cases hu
    · match u, hu with
      | .revoke ⟨d, .select todo claimed remaining⟩, hu =>
        exact (h.select j _ hu).of_region (h.lock.region_kept ht hs hne hu rfl)
      | .revoke ⟨d, .start size⟩, _ => trivial
      | .revoke ⟨d, .giveBack call⟩, _ => trivial
      | .revoke ⟨d, .done⟩, _ => trivial
      | .events _, _ => trivial
      | .detection _, _ => trivial
      | .request _, _ => trivial
  · have hBooks : ∀ d, op.books? ≠ some d := by cases hs <;> exact nofun
    refine ⟨fun _ u hu => ?_, fun j u hu => ?_⟩
    · cases hs with
      | request => rw [List.mem_singleton.mp hu]; trivial
      | _ => cases hu
    · match u, hu with
      | .revoke ⟨d, .select todo claimed remaining⟩, hu =>
        exact (h.select j _ hu).of_region (region?_exec_of_books (hBooks d))
      | .revoke ⟨d, .start size⟩, _ => trivial
      | .revoke ⟨d, .giveBack call⟩, _ => trivial
      | .revoke ⟨d, .done⟩, _ => trivial
      | .events _, _ => trivial
      | .detection _, _ => trivial
      | .request _, _ => trivial

/-- The invariant of the revokes holds on, whoever moves. -/
theorem RevokeInv.move {s s' : System} {op : Op} (h : RevokeInv s)
    (hm : orchestrator.Move s op s') : RevokeInv s' where
  core := h.core.move hm
  placed := h.placed.move h.core hm
  whole := h.whole.move hm
  lock := h.lock.move hm
  select := h.selects_move hm

theorem revokeInv_init {vm : VmId → Vm} {donor : VmId → DonorState} (hFresh : FreshDonors donor) :
    RevokeInv (initSystem vm donor) where
  core := coreInv_init hFresh
  placed := placedInv_init hFresh
  whole := wholeInv_init hFresh
  lock := lockInv_init vm donor
  select := by
    intro i t ht
    have hMem := List.mem_of_getElem? ht
    simp only [initSystem, List.mem_cons, List.not_mem_nil, or_false] at hMem
    rcases hMem with rfl | rfl <;> trivial

-- ---------------------------------------------------------------------------
-- What the others do meanwhile
-- ---------------------------------------------------------------------------

/-- The thread that tries to claim `x` for `d` is a revoke that goes through a
list of `d` and has come to `x`. -/
theorem Task.Step.claims {tid : Tid} {s : Shared} {t t' : Task} {d : DonorAllocation}
    {x : AllocId} {started : List Task} (h : Task.Step tid s t (.tryClaim d x) t' started) :
    ∃ todo claimed remaining, t = .revoke ⟨d, .select (x :: todo) claimed remaining⟩ := by
  obtain ⟨v, v', rfl, rfl, hv⟩ := h.ofRevoke rfl
  cases hv with
  | claim _ _ => exact ⟨_, _, _, rfl⟩
  | pass _ => exact ⟨_, _, _, rfl⟩
  | giveBack hr => cases hr.performer

/-- What a revoke finds Committed in its list, its region backs. -/
theorem RevokeInv.selected_donor {s : System} (h : RevokeInv s) {i : Nat} {d : DonorAllocation}
    {todo claimed : List AllocId} {remaining : Nat}
    (hi : s.tasks[i]? = some (.revoke ⟨d, .select todo claimed remaining⟩)) {x : AllocId}
    (hx : x ∈ todo) (hState : (s.shared.alloc x).state = .committed) :
    (s.shared.alloc x).donorInfo = some d := by
  have hRec := (h.select i _ hi).2.2 x hx
  have hParked : (s.shared.alloc x).parked = true := by simp [EphAllocation.parked, hState]
  obtain ⟨d', hd'⟩ := Option.ne_none_iff_exists'.mp (h.core.tokens.parked_donorInfo hParked)
  rw [h.placed.region_unique h.core hRec hd']
  exact hd'

/-- A Committed allocation in the list of a revoke stays so until the revoke
comes to it or a return takes it: no other revoke has it in its list. -/
theorem RevokeInv.committed_kept {s : System} {op : Op} (h : RevokeInv s) {i j : Nat}
    {t t' : Task} {started : List Task} (ht : s.tasks[j]? = some t)
    (hs : Task.Step j s.shared t op t' started) (hne : i ≠ j) {d : DonorAllocation}
    {todo claimed : List AllocId} {remaining : Nat}
    (hi : s.tasks[i]? = some (.revoke ⟨d, .select todo claimed remaining⟩)) {x : AllocId}
    (hx : x ∈ todo) (hState : (s.shared.alloc x).state = .committed)
    (hAbandon : op ≠ .abandon x) : ((op.exec s.shared).alloc x).state = .committed := by
  have hRec := (h.select i _ hi).2.2 x hx
  have hLt := h.core.recorded_known hRec
  have hChange := allocChange_exec op s.shared x
  generalize (op.exec s.shared).alloc x = a at hChange ⊢
  cases hChange with
  | same _ _ _ _ _ => exact hState
  | created hNew => exact absurd hLt (Nat.not_lt.mpr hNew.1)
  | donorSet => exact hState
  | committed _ => rfl
  | @claimed d' _ =>
    exfalso
    obtain ⟨todo', claimed', remaining', rfl⟩ := hs.claims
    have hSame : d' = d := Option.some.inj
      ((h.selected_donor ht (List.mem_cons_self ..) hState).symm.trans
        (h.selected_donor hi hx hState))
    subst hSame
    have h1 := h.lock i _ hi d'.donorVm rfl
    have h2 := h.lock j _ ht d'.donorVm rfl
    exact hne (Option.some.inj (h1.symm.trans h2))
  | abandoned => exact absurd rfl hAbandon
  | requested _ => exact hState
  | marked _ => exact hState

-- ---------------------------------------------------------------------------
-- The debt a revoke is heading for
-- ---------------------------------------------------------------------------

/-- The region's debt, with what the revoke will add to it as things stand, is
within a bound. -/
def Task.DebtWithin (s : Shared) (bound : DonorAllocation → Nat) : Task → Prop
  | .revoke ⟨d, .select todo _ remaining⟩ =>
    ∀ r ∈ s.region? d, r.revokedOwed + lack s todo remaining ≤ bound d
  | _ => True

/-- The same once a return has taken `x`. -/
def Task.DebtWithout (s : Shared) (x : AllocId) (bound : DonorAllocation → Nat) : Task → Prop
  | .revoke ⟨d, .select todo _ remaining⟩ =>
    ∀ r ∈ s.region? d, r.revokedOwed + lack s (todo.erase x) remaining ≤ bound d
  | _ => True

instance (s : Shared) (x : AllocId) (b : DonorAllocation → Nat) (t : Task) :
    Decidable (t.DebtWithout s x b) := by
  unfold Task.DebtWithout
  split <;> infer_instance

/-- Threads other than revokes book no debt. -/
theorem debtWithin_of_not_revoke {s : Shared} {b : DonorAllocation → Nat} {t : Task}
    (h : ∀ v, t ≠ .revoke v) : t.DebtWithin s b := by
  cases t with
  | revoke v => exact absurd rfl (h v)
  | _ => trivial

/-- Claiming one allocation leaves the others committed. -/
theorem committedIn_tryClaim {s : Shared} {d : DonorAllocation} {x : AllocId} {l : List AllocId}
    (hx : x ∉ l) : committedIn s l ≤ committedIn ((Op.tryClaim d x).exec s) l := by
  refine committedIn_mono fun y hy hState => ?_
  have hne : x ≠ y := by
    rintro rfl
    exact hx hy
  have hChange := allocChange_exec (.tryClaim d x) s y
  generalize ((Op.tryClaim d x).exec s).alloc y = a at hChange ⊢
  cases hChange with
  | same _ _ _ _ _ => exact hState
  | claimed _ => exact absurd rfl hne

/-- Abandoning one allocation leaves the others committed. -/
theorem committedIn_abandon {s : Shared} {x : AllocId} {l : List AllocId} (hNodup : l.Nodup) :
    committedIn s (l.erase x) ≤ committedIn ((Op.abandon x).exec s) l := by
  have hKept : committedIn s (l.erase x) ≤ committedIn ((Op.abandon x).exec s) (l.erase x) := by
    refine committedIn_mono fun y hy hState => ?_
    have hne : x ≠ y := by
      rintro rfl
      exact (List.Nodup.not_mem_erase hNodup) hy
    have hChange := allocChange_exec (.abandon x) s y
    generalize ((Op.abandon x).exec s).alloc y = a at hChange ⊢
    cases hChange with
    | same _ _ _ _ _ => exact hState
    | abandoned => exact absurd rfl hne
  exact le_trans hKept (List.Sublist.countP_le List.erase_sublist)

/-- A step of the selecting revoke itself. -/
theorem Revoke.Step.debtWithin {tid : Tid} {s : Shared} {b b' : DonorAllocation → Nat}
    {v v' : Revoke} {op : Op} (h : Revoke.Step tid s v op v') (hSelects : (Task.revoke v).Selects s)
    (hWhole : (Task.revoke v).Whole) (hv : (Task.revoke v).DebtWithin s b)
    (hBegin : ∀ d size, op = .beginRevoke d size tid →
      ∀ r ∈ s.region? d, r.revokedOwed + lack s r.allocations.values size ≤ b' d)
    (hBound : (∀ x, op ≠ .abandon x) → ∀ d, (Task.revoke v).holdsDonor d.donorVm → b d ≤ b' d) :
    (Task.revoke v').DebtWithin (op.exec s) b' := by
  cases h with
  | @enter d size aligned r _ _ hr =>
    intro r' hr'
    have hRegion : ((Op.beginRevoke d aligned tid).exec s).region? d = s.region? d := rfl
    rw [hRegion, hr] at hr'
    cases hr'
    have hLack : lack ((Op.beginRevoke d aligned tid).exec s) r.allocations.values.reverse aligned =
        lack s r.allocations.values aligned := by
      unfold lack
      rw [committedIn_reverse]
      rfl
    rw [hLack]
    exact hBegin d aligned rfl r hr
  | @claim d todo claimed x remaining hne hState =>
    intro r hr
    have hRegion : ((Op.tryClaim d x).exec s).region? d = s.region? d := region?_exec_of_books nofun
    rw [hRegion] at hr
    have hOld := hv r hr
    have hRest := committedIn_tryClaim (d := d) (s := s) (List.nodup_cons.mp hSelects.1).1
    have hStep := lack_claim hWhole hne hState hRest
    exact le_trans (Nat.add_le_add_left hStep _) (le_trans hOld (hBound nofun d rfl))
  | @pass d todo claimed x remaining hState =>
    intro r hr
    have hRegion : ((Op.tryClaim d x).exec s).region? d = s.region? d := region?_exec_of_books nofun
    rw [hRegion] at hr
    have hOld := hv r hr
    have hRest := committedIn_tryClaim (d := d) (s := s) (List.nodup_cons.mp hSelects.1).1
    have hStep : lack ((Op.tryClaim d x).exec s) todo remaining ≤ lack s (x :: todo) remaining :=
      lack_pass hState hRest
    exact le_trans (Nat.add_le_add_left hStep _) (le_trans hOld (hBound nofun d rfl))
  | _ => trivial

/-- **The debts to come stay within a bound**, when a revoke begins within it
and a return that takes an allocation from under a revoke leaves it within. -/
theorem RevokeInv.debtWithin_move {s s' : System} {op : Op} {b b' : DonorAllocation → Nat}
    (h : RevokeInv s) (hm : orchestrator.Move s op s')
    (hOld : ∀ (i : Nat) (t : Task), s.tasks[i]? = some t → t.DebtWithin s.shared b)
    (hBegin : ∀ d size tid, op = .beginRevoke d size tid →
      ∀ r ∈ s.shared.region? d, r.revokedOwed + lack s.shared r.allocations.values size ≤ b' d)
    (hAbandon : ∀ x, op = .abandon x → ∀ t ∈ s.tasks, t.DebtWithout s.shared x b')
    (hBound : (∀ x, op ≠ .abandon x) → ∀ (i : Nat) (t : Task), s.tasks[i]? = some t →
      ∀ d, t.holdsDonor d.donorVm → b d ≤ b' d) :
    ∀ (i : Nat) (t : Task), s'.tasks[i]? = some t → t.DebtWithin s'.shared b' := by
  refine forall_tasks_ne (J := fun _ s t => t.DebtWithin s b') hm
    (fun i t t' started ht hs => ?_) (fun started hs => ?_)
  · refine ⟨?_, fun _ u hu => ?_, fun j u hne hu => ?_⟩
    · cases hs with
      | revoke hv =>
        exact hv.debtWithin (h.select i _ ht) (h.whole.tasks i _ ht) (hOld i _ ht)
          (fun d size => hBegin d size i) (fun hop => hBound hop i _ ht)
      | _ => exact debtWithin_of_not_revoke nofun
    · cases hs with
      | events hl =>
        obtain ⟨v, hv, rfl⟩ := List.mem_map.mp hu
        cases hl with
        | revokeEvent _ _ => rw [List.mem_singleton.mp hv]; trivial
        | _ => cases hv
      | _ => cases hu
    · match u, hu with
      | .revoke ⟨d, .select todo claimed remaining⟩, hu =>
        intro r hr
        rw [h.lock.region_kept ht hs hne hu rfl] at hr
        by_cases hop : ∃ x, op = .abandon x
        · obtain ⟨x, rfl⟩ := hop
          have hWithout := hAbandon x rfl _ (List.mem_of_getElem? hu) r hr
          have hLack := lack_mono (committedIn_abandon (x := x) (s := s.shared)
            (h.select j _ hu).1) remaining
          exact le_trans (Nat.add_le_add_left hLack _) hWithout
        · have hNot : ∀ x, op ≠ .abandon x := fun x hx => hop ⟨x, hx⟩
          have hKept : committedIn s.shared todo ≤ committedIn (op.exec s.shared) todo :=
            committedIn_mono fun x hx hState =>
              h.committed_kept ht hs hne hu hx hState (hNot x)
          exact le_trans (Nat.add_le_add_left (lack_mono hKept _) _)
            (le_trans (hOld j _ hu r hr) (hBound hNot j _ hu d rfl))
      | .revoke ⟨d, .start size⟩, _ => trivial
      | .revoke ⟨d, .giveBack call⟩, _ => trivial
      | .revoke ⟨d, .done⟩, _ => trivial
      | .events _, _ => trivial
      | .detection _, _ => trivial
      | .request _, _ => trivial
  · have hNot : ∀ x, op ≠ .abandon x := by cases hs <;> exact nofun
    have hBooks : ∀ d, op.books? ≠ some d := by cases hs <;> exact nofun
    have hAlloc : (op.exec s.shared).alloc = s.shared.alloc := by cases hs <;> rfl
    refine ⟨fun _ u hu => ?_, fun j u hu => ?_⟩
    · cases hs with
      | request => rw [List.mem_singleton.mp hu]; trivial
      | _ => cases hu
    · match u, hu with
      | .revoke ⟨d, .select todo claimed remaining⟩, hu =>
        intro r hr
        rw [region?_exec_of_books (hBooks d)] at hr
        have hSame : lack (op.exec s.shared) todo remaining = lack s.shared todo remaining := by
          unfold lack committedIn
          rw [hAlloc]
        rw [hSame]
        exact le_trans (hOld j _ hu r hr) (hBound hNot j _ hu d rfl)
      | .revoke ⟨d, .start size⟩, _ => trivial
      | .revoke ⟨d, .giveBack call⟩, _ => trivial
      | .revoke ⟨d, .done⟩, _ => trivial
      | .events _, _ => trivial
      | .detection _, _ => trivial
      | .request _, _ => trivial

end EphMemory.Orchestrator
