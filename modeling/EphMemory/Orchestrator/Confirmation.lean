import EphMemory.Orchestrator.Ledger

/-!
# Orchestrator — what becomes of a grant

`handle_reserved_alloc` takes a grant apart: it clamps it to the request,
rounds it down, settles the region's debt with a part of it and leaves the
rest to be used. It returns what is usable and what has to go back.

* `ConfirmsExactly` — every byte of the grant is usable or goes back, the
  debt falls by what goes back for it, and exactly the usable part of the
  allocations stays in the books;
* `confirmation_exact_iff` — that is so exactly when the donor granted no more
  than it was asked for: what a grant exceeds the request by is neither used
  nor returned;
* `grant_confirmed_exactly` — which goes for the allocations a grant confirms.
-/

namespace EphMemory.Orchestrator

open EphMemory.Lib

/-- The outcome of `handle_reserved_alloc`: the region after it and the two
sizes it returns. -/
structure Confirmation where
  region : DonatableRegion
  usable : Nat
  handBack : Nat

def DonatableRegion.confirm (r : DonatableRegion) (ids : List AllocId)
    (requested granted : Nat) : Confirmation :=
  let result := r.handleReservedAlloc ids requested granted
  ⟨result.1, result.2.1, result.2.2⟩

/-- No byte of the grant is dropped. What goes back is the rounding, what the
grant exceeds the request by, and the part that settles the debt. -/
structure ConfirmsExactly (r : DonatableRegion) (ids : List AllocId)
    (requested granted : Nat) : Prop where
  total : (r.confirm ids requested granted).usable + (r.confirm ids requested granted).handBack =
    granted
  aligned : granularity ∣ (r.confirm ids requested granted).usable
  within : (r.confirm ids requested granted).usable ≤ requested
  debt : ∃ settled,
    (r.confirm ids requested granted).handBack =
      settled + min granted requested % granularity + (granted - requested) ∧
    r.revokedOwed = (r.confirm ids requested granted).region.revokedOwed + settled
  kept : ∀ i x, ids[i]? = some x →
    ((r.confirm ids requested granted).region.allocations.contains x = true ↔
      i < (r.confirm ids requested granted).usable / granularity)
  others : ∀ x, x ∉ ids → (r.confirm ids requested granted).region.allocations.get? x =
    r.allocations.get? x

/-- No more of a grant settles the debt than there is debt. -/
theorem toRevoke_le_owed (r : DonatableRegion) (requested granted : Nat) :
    r.toRevoke requested granted ≤ r.revokedOwed := by
  unfold DonatableRegion.toRevoke
  split
  · exact min_le_left _ _
  · exact Nat.zero_le _

/-- No more of a grant settles the debt than is usable. -/
theorem toRevoke_le_usableGrant (r : DonatableRegion) (requested granted : Nat) :
    r.toRevoke requested granted ≤ DonatableRegion.usableGrant requested granted := by
  unfold DonatableRegion.toRevoke
  split
  · exact min_le_right _ _
  · exact Nat.zero_le _

/-- What the code accounts for is the grant clamped to the request. -/
theorem confirm_total (r : DonatableRegion) (ids : List AllocId) (requested granted : Nat) :
    (r.confirm ids requested granted).usable + (r.confirm ids requested granted).handBack =
      min granted requested := by
  have hLe := toRevoke_le_usableGrant r requested granted
  have hMod := Nat.mod_le (min granted requested) granularity
  show r.finalSize requested granted + (r.toRevoke requested granted +
    DonatableRegion.excess requested granted) = _
  unfold DonatableRegion.finalSize DonatableRegion.excess
  unfold DonatableRegion.usableGrant at hLe ⊢
  omega

/-- Of distinct allocations in the books a confirmation strikes those past the
usable part. -/
theorem confirm_kept {r : DonatableRegion} {ids : List AllocId} (hNodup : ids.Nodup)
    (hIn : ∀ x ∈ ids, r.allocations.contains x = true) (requested granted : Nat) {i : Nat}
    {x : AllocId} (hi : ids[i]? = some x) :
    ((r.confirm ids requested granted).region.allocations.contains x = true ↔
      i < (r.confirm ids requested granted).usable / granularity) := by
  obtain ⟨hLt, hGet⟩ := List.getElem?_eq_some_iff.mp hi
  have hx := hIn x (hGet ▸ List.getElem_mem hLt)
  show (r.allocations.eraseAll (ids.drop (r.finalSize requested granted / granularity))).contains x
    = true ↔ i < r.finalSize requested granted / granularity
  generalize r.finalSize requested granted / granularity = n
  have hDrop : x ∈ ids.drop n ↔ n ≤ i := by
    rw [List.mem_drop_iff_getElem]
    constructor
    · rintro ⟨j, hj, hEq⟩
      have hSame : ids[n + j] = ids[i] := hEq.trans hGet.symm
      have := (hNodup.getElem_inj_iff).mp hSame
      omega
    · intro hLe
      refine ⟨i - n, by omega, ?_⟩
      have hIdx : n + (i - n) = i := by omega
      simp only [hIdx]
      exact hGet
  unfold OrdMap.contains at hx ⊢
  rw [OrdMap.get?_eraseAll]
  split
  · rename_i hMem
    have := hDrop.mp hMem
    simp only [Option.isSome_none, Bool.false_eq_true, false_iff]
    omega
  · rename_i hMem
    have := mt hDrop.mpr hMem
    simp only [hx, true_iff]
    omega

/-- A confirmation leaves the entries it was not given. -/
theorem confirm_others (r : DonatableRegion) (ids : List AllocId) (requested granted : Nat)
    {x : AllocId} (hx : x ∉ ids) :
    (r.confirm ids requested granted).region.allocations.get? x = r.allocations.get? x := by
  show (r.allocations.eraseAll (ids.drop _)).get? x = _
  rw [OrdMap.get?_eraseAll, if_neg fun hMem => hx (List.mem_of_mem_drop hMem)]

/-- In every reachable state sizes and debts are whole granules. -/
theorem Reachable.wholeInv {s : System} (h : Reachable s) : WholeInv s := by
  obtain ⟨vm, donor, hFresh, hRun⟩ := h
  exact hRun.invariant (fun _ _ _ hInv hm _ => hInv.move hm) (wholeInv_init hFresh)

/-- On a region whose debt is a whole number of chunks. -/
theorem confirmsExactly_iff_le {r : DonatableRegion} (hOwed : granularity ∣ r.revokedOwed)
    {ids : List AllocId} (hNodup : ids.Nodup) (hIn : ∀ x ∈ ids, r.allocations.contains x = true)
    (requested granted : Nat) :
    ConfirmsExactly r ids requested granted ↔ granted ≤ requested := by
  have hTotal := confirm_total r ids requested granted
  constructor
  · intro hExact
    have := hExact.total
    omega
  · intro hLe
    refine ⟨by omega, ?_, finalSize_le r requested granted, ?_, fun i x hi => ?_, fun x hx => ?_⟩
    · exact dvd_finalSize hOwed requested granted
    · refine ⟨r.toRevoke requested granted, ?_, ?_⟩
      · show _ + _ = _
        rw [Nat.sub_eq_zero_of_le hLe]
        rfl
      · have := toRevoke_le_owed r requested granted
        show r.revokedOwed = r.revokedOwed - r.toRevoke requested granted + _
        omega
    · exact confirm_kept hNodup hIn requested granted hi
    · exact confirm_others r ids requested granted hx

/-- The allocations a grant confirms are distinct and in the books of the region
it asked. -/
theorem confirmed_recorded {s : System} (h : Reachable s) {i : Nat} {c : VmId}
    {backed rest l : List AllocId} {last : Option SocketPath} {d : DonorAllocation}
    {requested : Nat} {granted : Option Nat} {r : DonatableRegion}
    (ht : s.tasks[i]? =
      some (.request ⟨c, .allocate ⟨backed, rest, last, .confirm d requested granted⟩ l⟩))
    (hr : s.shared.region? d = some r) :
    (rest.take (requested / granularity)).Nodup ∧
      ∀ x ∈ rest.take (requested / granularity), r.allocations.contains x = true := by
  obtain ⟨vm, donor, hFresh, hRun⟩ := h
  have hHeld : ∀ x, cnt x (rest.take (requested / granularity)) ≤
      ind (s.shared.recorded d x = true) := by
    intro x
    have hx : AllocCall.tokens d x ⟨backed, rest, last, .confirm d requested granted⟩ ≤ _ :=
      bookWeights_le (coreInv_steps hFresh hRun) ht d x
    simpa [AllocCall.tokens] using hx
  refine ⟨nodup_of_cnt_le_one fun x => le_trans (hHeld x) (ind_le_one _), fun x hx => ?_⟩
  have hRec := recorded_of_cnt_le hHeld hx
  simpa [Shared.recorded, hr] using hRec

/-- **No granted byte is dropped, up to the request.** In every reachable
state, a confirmation for distinct allocations in the books of a region
accounts for every byte of the grant exactly when the grant is at most what
was asked for. -/
theorem confirmation_exact_iff {s : System} (h : Reachable s) {d : DonorAllocation}
    {r : DonatableRegion} (hr : s.shared.region? d = some r) {ids : List AllocId}
    (hNodup : ids.Nodup) (hIn : ∀ x ∈ ids, r.allocations.contains x = true)
    (requested granted : Nat) :
    ConfirmsExactly r ids requested granted ↔ granted ≤ requested :=
  confirmsExactly_iff_le (h.wholeInv.owed d r hr) hNodup hIn requested granted

/-- So the allocations that a grant is about to confirm are accounted for. -/
theorem grant_confirmed_exactly {s : System} (h : Reachable s) {i : Nat} {c : VmId}
    {backed rest l : List AllocId} {last : Option SocketPath} {d : DonorAllocation}
    {requested granted : Nat} {r : DonatableRegion}
    (ht : s.tasks[i]? =
      some (.request ⟨c, .allocate ⟨backed, rest, last, .confirm d requested (some granted)⟩ l⟩))
    (hr : s.shared.region? d = some r) :
    ConfirmsExactly r (rest.take (requested / granularity)) requested granted ↔
      granted ≤ requested := by
  obtain ⟨hNodup, hIn⟩ := confirmed_recorded h ht hr
  exact confirmsExactly_iff_le (h.wholeInv.owed d r hr) hNodup hIn requested granted

-- ---------------------------------------------------------------------------
-- Two short runs
-- ---------------------------------------------------------------------------

/-- VM 1 asks for one chunk, VM 0 is asked for it and answers with `granted`
bytes. -/
def demoAnswered (granted : Nat) : List (Label Op Choice) :=
  demoCommit.take 8 ++ [.task 2 (.granted (some granted))]

theorem demoAnswered_twice_runs :
    (orchestrator.run demo (demoAnswered (2 * granularity))).isSome = true := by decide +kernel

/-- VM 1 asks for three chunks. Before VM 0 answers it asks for one back, of which
the books cover nothing; then it grants a byte less than three. -/
def demoShort : List (Label Op Choice) :=
  demoDonate 3 ++ [.outside (.emitRevoke 0 7 granularity), .task 0 .go] ++
    List.replicate 5 (.task 3 .go) ++ [.task 2 (.granted (some (3 * granularity - 1)))]

theorem demoShort_runs : (orchestrator.run demo demoShort).isSome = true := by decide +kernel

theorem confirmation_exact_iff_owing :
    ∃ r, (demoAfter demoShort).shared.region? ⟨0, 7⟩ = some r ∧ r.revokedOwed = granularity ∧
      (r.confirm [1, 2, 3] (3 * granularity) (3 * granularity - 1)).usable = granularity ∧
      (r.confirm [1, 2, 3] (3 * granularity) (3 * granularity - 1)).handBack =
        2 * granularity - 1 ∧
      ConfirmsExactly r [1, 2, 3] (3 * granularity) (3 * granularity - 1) := by
  have hRegion : ((demoAfter demoShort).shared.region? ⟨0, 7⟩).any (fun r =>
      decide (r.revokedOwed = granularity ∧
        (r.confirm [1, 2, 3] (3 * granularity) (3 * granularity - 1)).usable = granularity ∧
        (r.confirm [1, 2, 3] (3 * granularity) (3 * granularity - 1)).handBack =
          2 * granularity - 1 ∧
        ∀ x ∈ ([1, 2, 3] : List AllocId), r.allocations.contains x = true)) = true := by decide +kernel
  obtain ⟨r, hr, hAll⟩ := (Option.any_eq_true _ _).mp hRegion
  obtain ⟨hOwed, hUsable, hBack, hIn⟩ := of_decide_eq_true hAll
  exact ⟨r, hr, hOwed, hUsable, hBack, (confirmation_exact_iff (demo_reachable demoShort_runs) hr
    (by decide) hIn _ _).mpr (Nat.sub_le _ _)⟩

/-- VM 0 is asked for one chunk and grants two. One is used, nothing goes
back. -/
theorem overage_dropped :
    ∃ s r, Reachable s ∧
      .request ⟨1, .allocate ⟨[], [1], none,
        .confirm ⟨0, 7⟩ granularity (some (2 * granularity))⟩ [1]⟩ ∈ s.tasks ∧
      s.shared.region? ⟨0, 7⟩ = some r ∧
      (r.confirm [1] granularity (2 * granularity)).usable = granularity ∧
      (r.confirm [1] granularity (2 * granularity)).handBack = 0 ∧
      ¬ ConfirmsExactly r [1] granularity (2 * granularity) := by
  have hTask : .request ⟨1, .allocate ⟨[], [1], none,
      .confirm ⟨0, 7⟩ granularity (some (2 * granularity))⟩ [1]⟩ ∈
        (demoAfter (demoAnswered (2 * granularity))).tasks := by decide +kernel
  have hRegion : ((demoAfter (demoAnswered (2 * granularity))).shared.region? ⟨0, 7⟩).any
      (fun r => decide ((r.confirm [1] granularity (2 * granularity)).usable = granularity ∧
        (r.confirm [1] granularity (2 * granularity)).handBack = 0)) = true := by
    decide +kernel
  obtain ⟨r, hr, hSizes⟩ := (Option.any_eq_true _ _).mp hRegion
  obtain ⟨hUsable, hBack⟩ := of_decide_eq_true hSizes
  refine ⟨_, r, demo_reachable demoAnswered_twice_runs, hTask, hr, hUsable, hBack, ?_⟩
  intro hExact
  have hTotal := hExact.total
  rw [hUsable, hBack] at hTotal
  exact absurd hTotal (by decide)

end EphMemory.Orchestrator
