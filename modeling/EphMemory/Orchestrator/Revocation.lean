import EphMemory.Lib.Alone
import EphMemory.Orchestrator.Overflow

/-!
# Orchestrator — what a revoke selects

`revoke_eph_memory` walks over the region's allocations from the newest to the
oldest, claims the Committed ones until the size is covered and books the rest
of it as a debt. The region's map is keyed by the allocations' ids, so newest
means largest id.

* `selectLoop`, `revokeSection` — the section under the donor's mutex, with
  the addition that can overflow;
* `selectLoop_eq` — the loop claims the first Committed allocations of its
  list;
* `revokeSection_alone` — the section is what a revoke thread does that runs
  alone;
* `revoke_exact_iff` — the selection is exact when the debt fits into a `u64`.
-/

namespace EphMemory.Orchestrator

open EphMemory.Lib

-- ---------------------------------------------------------------------------
-- The section
-- ---------------------------------------------------------------------------

/-- The loop of `revoke_eph_memory`: the state after it, the allocations
claimed and the size that is left. -/
def selectLoop (d : DonorAllocation) :
    Shared → List AllocId → List AllocId → Nat → Shared × List AllocId × Nat
  | s, [], claimed, remaining => (s, claimed, remaining)
  | s, x :: todo, claimed, remaining =>
    if remaining = 0 then (s, claimed, remaining)
    else if (s.alloc x).tryClaimForRevoke.1 then
      selectLoop d ((Op.tryClaim d x).exec s) todo (claimed ++ [x]) (remaining - granularity)
    else selectLoop d s todo claimed remaining

inductive RevokeOutcome where
  /-- An error exit. -/
  | failed
  /-- `region.revoked_owed += remaining_revoke_size` overflows. -/
  | overflowed
  | selected (s' : Shared) (claimed : List AllocId)

def RevokeOutcome.isOverflowed : RevokeOutcome → Bool
  | .overflowed => true
  | _ => false

/-- `revoke_eph_memory` up to the end of its section. -/
def revokeSection (tid : Tid) (s : Shared) (d : DonorAllocation) (revokeSize : Nat) :
    RevokeOutcome :=
  match checkedNextMultipleOf revokeSize with
  | none => .failed
  | some revokeSize =>
    match s.region? d with
    | none => .failed
    | some r =>
      let p := selectLoop d ((Op.beginRevoke d revokeSize tid).exec s)
        r.allocations.values.reverse [] revokeSize
      match bookDebt64 r p.2.2 with
      | none => .overflowed
      | some _ => .selected ((Op.bookDebt d p.2.2).exec p.1) p.2.1

-- ---------------------------------------------------------------------------
-- Whole chunks
-- ---------------------------------------------------------------------------

/-- The chunks a revoke asks for, `revokeSize / granularity` rounded up. -/
def wantedChunks (revokeSize : Nat) : Nat := (revokeSize + (granularity - 1)) / granularity

theorem mul_add_div_of_lt {g k j : Nat} (hj : j < g) : (g * k + j) / g = k := by
  have hg : 0 < g := Nat.lt_of_le_of_lt (Nat.zero_le j) hj
  rw [Nat.mul_add_div hg, Nat.div_eq_of_lt hj, Nat.add_zero]

/-- Rounding up leaves a multiple. -/
theorem roundUp_of_dvd {g n : Nat} (hg : 0 < g) (h : n % g = 0) : (n + (g - 1)) / g * g = n := by
  obtain ⟨k, rfl⟩ := Nat.dvd_of_mod_eq_zero h
  rw [mul_add_div_of_lt (by omega), Nat.mul_comm]

/-- Rounding up adds what is missing to the next multiple. -/
theorem roundUp_of_not_dvd {g n : Nat} (hg : 0 < g) (h : n % g ≠ 0) :
    (n + (g - 1)) / g * g = n + (g - n % g) := by
  have hLt := Nat.mod_lt n hg
  have hDiv := Nat.div_add_mod n g
  have hRest : n % g - 1 < g := by omega
  have hSucc : g * (n / g + 1) = g * (n / g) + g := Nat.mul_succ ..
  have hSplit : n + (g - 1) = g * (n / g + 1) + (n % g - 1) := by omega
  rw [hSplit, mul_add_div_of_lt hRest, Nat.mul_comm]
  omega

/-- The size is rounded up to whole chunks, unless they do not fit. -/
theorem checkedNextMultipleOf_eq {revokeSize : Nat} (h : revokeSize < 2 ^ 64) :
    checkedNextMultipleOf revokeSize =
      if wantedChunks revokeSize * granularity < 2 ^ 64 then
        some (wantedChunks revokeSize * granularity)
      else none := by
  unfold checkedNextMultipleOf wantedChunks
  by_cases hMod : revokeSize % granularity = 0
  · rw [if_pos hMod, roundUp_of_dvd granularity_pos hMod, if_pos h]
  · rw [if_neg hMod, roundUp_of_not_dvd granularity_pos hMod]

-- ---------------------------------------------------------------------------
-- The loop
-- ---------------------------------------------------------------------------

/-- The Committed allocations of a list. -/
def committedOf (s : Shared) (l : List AllocId) : List AllocId :=
  l.filter fun x => (s.alloc x).isCommitted

theorem length_committedOf (s : Shared) (l : List AllocId) :
    (committedOf s l).length = committedIn s l := List.countP_eq_length_filter.symm

theorem committedOf_cons_of_committed {s : Shared} {x : AllocId} (l : List AllocId)
    (h : (s.alloc x).state = .committed) : committedOf s (x :: l) = x :: committedOf s l :=
  List.filter_cons_of_pos (p := fun x => (s.alloc x).isCommitted) (isCommitted_iff.mpr h)

theorem committedOf_cons_of_not {s : Shared} {x : AllocId} (l : List AllocId)
    (h : (s.alloc x).state ≠ .committed) : committedOf s (x :: l) = committedOf s l :=
  List.filter_cons_of_neg (p := fun x => (s.alloc x).isCommitted)
    fun hc => h (isCommitted_iff.mp hc)

theorem committedOf_congr {s s' : Shared} {l : List AllocId}
    (h : ∀ x ∈ l, s'.alloc x = s.alloc x) : committedOf s' l = committedOf s l :=
  List.filter_congr fun x hx => by rw [h x hx]

/-- The allocations after the ones in `new` were claimed. -/
def claimAll (s : Shared) (new : List AllocId) (x : AllocId) : EphAllocation :=
  if x ∈ new then { s.alloc x with state := .pendingRelease } else s.alloc x

/-- A committed allocation is claimed, and the log has it. -/
theorem tryClaim_exec_of_committed {s : Shared} {x : AllocId}
    (h : (s.alloc x).state = .committed) (d : DonorAllocation) :
    (Op.tryClaim d x).exec s =
      (s.setAlloc x { s.alloc x with state := .pendingRelease }).emit (.claimed d x) := by
  simp [Op.exec, EphAllocation.tryClaimForRevoke, h]

/-- With `m` chunks to go, the loop claims the first `m` Committed allocations
of its list, or all there are. -/
theorem selectLoop_eq {d : DonorAllocation} {todo : List AllocId} (hNodup : todo.Nodup)
    (s : Shared) (claimed : List AllocId) (m : Nat) :
    ∃ s', selectLoop d s todo claimed (m * granularity) =
        (s', claimed ++ (committedOf s todo).take m,
          (m - ((committedOf s todo).take m).length) * granularity) ∧
      s'.alloc = claimAll s ((committedOf s todo).take m) ∧
      { s' with alloc := s.alloc, log := s.log } = s := by
  induction todo generalizing s claimed m with
  | nil =>
    refine ⟨s, ?_, ?_, rfl⟩
    · simp [selectLoop, committedOf]
    · funext x
      simp [claimAll, committedOf]
  | cons x todo ih =>
    obtain ⟨hx, hTodo⟩ := List.nodup_cons.mp hNodup
    cases m with
    | zero =>
      refine ⟨s, ?_, ?_, rfl⟩
      · simp [selectLoop]
      · funext y
        simp [claimAll]
    | succ m =>
      have hPos : (m + 1) * granularity ≠ 0 :=
        Nat.mul_ne_zero (Nat.succ_ne_zero m) (Nat.ne_of_gt granularity_pos)
      rw [selectLoop, if_neg hPos]
      by_cases hc : (s.alloc x).state = .committed
      · have hClaim : (s.alloc x).tryClaimForRevoke.1 = true := by
          rw [EphAllocation.tryClaimForRevoke, if_pos hc]
        have hLess : (m + 1) * granularity - granularity = m * granularity := by
          rw [Nat.succ_mul, Nat.add_sub_cancel]
        rw [if_pos hClaim, hLess, tryClaim_exec_of_committed hc]
        obtain ⟨s', hLoop, hAlloc, hRest⟩ := ih hTodo
          ((s.setAlloc x { s.alloc x with state := .pendingRelease }).emit (.claimed d x))
          (claimed ++ [x]) m
        -- claiming `x` leaves the allocations after it alone
        have hOthers : ∀ y, y ≠ x → ((s.setAlloc x { s.alloc x with
            state := .pendingRelease }).emit (.claimed d x)).alloc y = s.alloc y :=
          fun y hy => Function.update_of_ne hy _ _
        have hTail := committedOf_congr fun y hy => hOthers y fun heq => hx (heq ▸ hy)
        have hHead : (committedOf s (x :: todo)).take (m + 1) =
            x :: (committedOf s todo).take m := by
          rw [committedOf_cons_of_committed todo hc, List.take_succ_cons]
        have hNotTail : x ∉ (committedOf s todo).take m := fun hMem =>
          hx (List.mem_filter.mp (List.mem_of_mem_take hMem)).1
        rw [hTail] at hLoop hAlloc
        refine ⟨s', ?_, ?_, ?_⟩
        · rw [hLoop, hHead, List.append_assoc, List.singleton_append, List.length_cons,
            Nat.add_sub_add_right]
        · rw [hAlloc, hHead]
          funext y
          unfold claimAll
          by_cases hy : y = x
          · subst hy
            rw [if_neg hNotTail, if_pos (List.mem_cons_self ..)]
            exact Function.update_self ..
          · simp only [List.mem_cons, hy, false_or, hOthers y hy]
        · exact congrArg (fun t : Shared => { t with alloc := s.alloc, log := s.log }) hRest
      · have hClaim : (s.alloc x).tryClaimForRevoke.1 = false := by
          rw [EphAllocation.tryClaimForRevoke, if_neg hc]
        rw [hClaim, if_neg Bool.false_ne_true, committedOf_cons_of_not todo hc]
        exact ih hTodo s claimed (m + 1)

-- ---------------------------------------------------------------------------
-- The thread
-- ---------------------------------------------------------------------------

theorem tryClaim_exec_of_not {s : Shared} {x : AllocId} (h : (s.alloc x).tryClaimForRevoke.1 = false)
    (d : DonorAllocation) : (Op.tryClaim d x).exec s = s := by
  simp [Op.exec, h]

/-- The loop of the source is what the thread does when it runs alone. -/
theorem selectLoop_alone (tid : Tid) (d : DonorAllocation) (todo : List AllocId) (s : Shared)
    (claimed : List AllocId) (remaining : Nat) :
    ∃ n, ∀ chs : List Choice, chs.length = n →
      alone Op.exec (Revoke.next tid) chs (s, ⟨d, .select todo claimed remaining⟩) =
        some ((Op.bookDebt d (selectLoop d s todo claimed remaining).2.2).exec
            (selectLoop d s todo claimed remaining).1,
          ⟨d, .giveBack (.start (selectLoop d s todo claimed remaining).2.1)⟩) := by
  induction todo generalizing s claimed remaining with
  | nil =>
    refine ⟨1, fun chs hLen => ?_⟩
    obtain ⟨ch, rfl⟩ := List.length_eq_one_iff.mp hLen
    rfl
  | cons x todo ih =>
    by_cases hZero : remaining = 0
    · refine ⟨1, fun chs hLen => ?_⟩
      obtain ⟨ch, rfl⟩ := List.length_eq_one_iff.mp hLen
      subst hZero
      rfl
    · cases hClaim : (s.alloc x).tryClaimForRevoke.1 with
      | true =>
        obtain ⟨n, hn⟩ := ih ((Op.tryClaim d x).exec s) (claimed ++ [x]) (remaining - granularity)
        refine ⟨n + 1, fun chs hLen => ?_⟩
        obtain ⟨ch, rest, rfl⟩ := List.exists_cons_of_length_eq_add_one hLen
        have hNext : Revoke.next tid s ⟨d, .select (x :: todo) claimed remaining⟩ ch =
            some (.tryClaim d x,
              ⟨d, .select todo (claimed ++ [x]) (remaining - granularity)⟩) := by
          simp only [Revoke.next, hZero, hClaim, if_true, if_false]
        rw [alone_cons hNext, selectLoop, if_neg hZero, if_pos hClaim]
        exact hn rest (by simpa using hLen)
      | false =>
        obtain ⟨n, hn⟩ := ih s claimed remaining
        refine ⟨n + 1, fun chs hLen => ?_⟩
        obtain ⟨ch, rest, rfl⟩ := List.exists_cons_of_length_eq_add_one hLen
        have hNext : Revoke.next tid s ⟨d, .select (x :: todo) claimed remaining⟩ ch =
            some (.tryClaim d x, ⟨d, .select todo claimed remaining⟩) := by
          simp only [Revoke.next, hZero, hClaim, if_false, Bool.false_eq_true]
        have hStay := tryClaim_exec_of_not hClaim d
        rw [alone_cons hNext, hStay, selectLoop, if_neg hZero, hClaim, if_neg Bool.false_ne_true]
        exact hn rest (by simpa using hLen)

/-- A revoke thread that runs alone goes through `revokeSection`. -/
theorem revokeSection_alone {s : Shared} {d : DonorAllocation}
    (hLock : s.donorLock d.donorVm = none) (tid : Tid) (revokeSize : Nat) :
    match revokeSection tid s d revokeSize with
    | .failed => ∀ ch : Choice,
      alone Op.exec (Revoke.next tid) [ch] (s, ⟨d, .start revokeSize⟩) = some (s, ⟨d, .done⟩)
    | .overflowed => True
    | .selected s' claimed => ∃ n, ∀ chs : List Choice, chs.length = n →
      alone Op.exec (Revoke.next tid) chs (s, ⟨d, .start revokeSize⟩) =
        some (s', ⟨d, .giveBack (.start claimed)⟩) := by
  unfold revokeSection
  cases hSize : checkedNextMultipleOf revokeSize with
  | none =>
    intro ch
    simp only [alone, Revoke.next, hSize, Op.exec]
  | some aligned =>
    simp only
    cases hr : s.region? d with
    | none =>
      intro ch
      simp only [alone, Revoke.next, hSize, hLock, if_true, hr, Op.exec]
    | some r =>
      cases hBook : bookDebt64 r (selectLoop d ((Op.beginRevoke d aligned tid).exec s)
          r.allocations.values.reverse [] aligned).2.2 with
      | none =>
        simp only [hBook]
      | some r' =>
        simp only [hBook]
        obtain ⟨n, hn⟩ := selectLoop_alone tid d r.allocations.values.reverse
          ((Op.beginRevoke d aligned tid).exec s) [] aligned
        refine ⟨n + 1, fun chs hLen => ?_⟩
        obtain ⟨ch, rest, rfl⟩ := List.exists_cons_of_length_eq_add_one hLen
        have hNext : Revoke.next tid s ⟨d, .start revokeSize⟩ ch =
            some (.beginRevoke d aligned tid,
              ⟨d, .select r.allocations.values.reverse [] aligned⟩) := by
          simp only [Revoke.next, hSize, hLock, if_true, hr]
        rw [alone_cons hNext]
        exact hn rest (by simpa using hLen)

-- ---------------------------------------------------------------------------
-- Exactly enough, newest first
-- ---------------------------------------------------------------------------

/-- The map is keyed by the allocations' ids. -/
def DonatableRegion.Keyed (r : DonatableRegion) : Prop :=
  ∀ k x, r.allocations.get? k = some x → x = k

/-- The books list allocations in the order they were made. -/
theorem DonatableRegion.Keyed.sorted {r : DonatableRegion} (h : r.Keyed) :
    r.allocations.values.Pairwise (· < ·) := by
  have hEq : r.allocations.values = r.allocations.keys := by
    unfold OrdMap.values OrdMap.keys
    refine List.map_congr_left fun e he => ?_
    exact h e.1 e.2 (OrdMap.mem_entries_iff.mp he)
  rw [hEq]
  exact OrdMap_keys_sorted _

/-- What the section has done to the state `s`: it claimed the newest
Committed allocations of the region, as many as the size asks for, booked the
rest, and changed nothing else. -/
structure Selected (s : Shared) (d : DonorAllocation) (r : DonatableRegion) (revokeSize : Nat)
    (s' : Shared) (claimed : List AllocId) : Prop where
  count : claimed.length = min (wantedChunks revokeSize) (committedIn s r.allocations.values)
  distinct : claimed.Nodup
  committed : ∀ x ∈ claimed, x ∈ r.allocations.values ∧ (s.alloc x).state = .committed
  newest : ∀ x ∈ claimed, ∀ y ∈ r.allocations.values, (s.alloc y).state = .committed →
    y ∉ claimed → y < x
  claims : ∀ x ∈ claimed, s'.alloc x = { s.alloc x with state := .pendingRelease }
  keeps : ∀ x, x ∉ claimed → s'.alloc x = s.alloc x
  debt : s'.region? d = some { r with
    revokedOwed := r.revokedOwed + (wantedChunks revokeSize - claimed.length) * granularity }
  otherRegions : ∀ d', d' ≠ d → s'.region? d' = s.region? d'
  others : { s' with alloc := s.alloc, donor := s.donor, log := s.log } = s

/-- `revoke_eph_memory` fails without a change, or selects as it should. -/
def RevokesExactly (tid : Tid) (s : Shared) (d : DonorAllocation) (revokeSize : Nat) : Prop :=
  match revokeSection tid s d revokeSize with
  | .failed =>
    (s.region? d = none ∨ ¬ wantedChunks revokeSize * granularity < 2 ^ 64) ∧
      ∀ ch : Choice, alone Op.exec (Revoke.next tid) [ch] (s, ⟨d, .start revokeSize⟩) =
        some (s, ⟨d, .done⟩)
  | .overflowed => False
  | .selected s' claimed =>
    (∃ r, s.region? d = some r ∧ Selected s d r revokeSize s' claimed) ∧
      ∃ n, ∀ chs : List Choice, chs.length = n →
        alone Op.exec (Revoke.next tid) chs (s, ⟨d, .start revokeSize⟩) =
          some (s', ⟨d, .giveBack (.start claimed)⟩)

/-- The first `m` Committed allocations of the reversed list are the newest. -/
theorem take_committed_newest {s : Shared} {l : List AllocId} (hSorted : l.Pairwise (· < ·))
    (m : Nat) {x y : AllocId} (hx : x ∈ (committedOf s l.reverse).take m) (hy : y ∈ l)
    (hc : (s.alloc y).state = .committed) (hNot : y ∉ (committedOf s l.reverse).take m) :
    y < x := by
  have hDesc : (committedOf s l.reverse).Pairwise fun a b => b < a :=
    (List.pairwise_reverse.mpr hSorted).filter _
  have hMem : y ∈ committedOf s l.reverse :=
    List.mem_filter.mpr ⟨List.mem_reverse.mpr hy, isCommitted_iff.mpr hc⟩
  rw [← List.take_append_drop m (committedOf s l.reverse)] at hDesc hMem
  rcases List.mem_append.mp hMem with h | h
  · exact absurd h hNot
  · exact (List.pairwise_append.mp hDesc).2.2 x hx y h

/-- Booking a debt adds to one region's. -/
theorem bookDebt_exec_region {s : Shared} {d : DonorAllocation} {r : DonatableRegion}
    (hr : s.region? d = some r) (amount : Nat) (d' : DonorAllocation) :
    ((Op.bookDebt d amount).exec s).region? d' =
      if d' = d then some { r with revokedOwed := r.revokedOwed + amount } else s.region? d' := by
  have hEq : ((Op.bookDebt d amount).exec s).region? d' =
      (s.modifyRegion d fun r => { r with revokedOwed := r.revokedOwed + amount }).region? d' := rfl
  rw [hEq, Shared.region?_modifyRegion]
  by_cases hd : d' = d
  · subst hd
    rw [hr, if_pos rfl, Option.map_some, if_pos rfl]
  · simp only [hd, if_false, Option.map_id']

/-- The section on a region that exists, for a size that fits. -/
theorem revokeSection_selects {s : Shared} {d : DonorAllocation} {r : DonatableRegion}
    (hLock : s.donorLock d.donorVm = none) (hr : s.region? d = some r) (hKeyed : r.Keyed)
    {revokeSize : Nat} (hSize : revokeSize < 2 ^ 64)
    (hFits : wantedChunks revokeSize * granularity < 2 ^ 64) (tid : Tid) :
    ∃ s' claimed, Selected s d r revokeSize s' claimed ∧
      revokeSection tid s d revokeSize =
        match bookDebt64 r ((wantedChunks revokeSize - claimed.length) * granularity) with
        | none => .overflowed
        | some _ => .selected s' claimed := by
  have hNodup : r.allocations.values.reverse.Nodup :=
    List.nodup_reverse.mpr (hKeyed.sorted.imp fun h => ne_of_lt h)
  obtain ⟨aligned, hAligned⟩ : ∃ n, n = wantedChunks revokeSize * granularity := ⟨_, rfl⟩
  obtain ⟨s2, hLoop, hAlloc, hRest⟩ := @selectLoop_eq d r.allocations.values.reverse hNodup
    ((Op.beginRevoke d aligned tid).exec s) [] (wantedChunks revokeSize)
  have hSame : committedOf ((Op.beginRevoke d aligned tid).exec s)
      r.allocations.values.reverse = committedOf s r.allocations.values.reverse :=
    committedOf_congr fun _ _ => rfl
  rw [hSame] at hLoop hAlloc
  rw [List.nil_append, ← hAligned] at hLoop
  generalize hClaimed : (committedOf s r.allocations.values.reverse).take
    (wantedChunks revokeSize) = claimed at hLoop hAlloc
  obtain ⟨left, hLeft⟩ : ∃ n, n = (wantedChunks revokeSize - claimed.length) * granularity :=
    ⟨_, rfl⟩
  rw [← hLeft] at hLoop
  have hDonor := congrArg Shared.donor hRest
  have hDonor : s2.donor = s.donor := hDonor
  have hr2 : ∀ d', s2.region? d' = s.region? d' := fun d' => by
    rw [Shared.region?, hDonor, Shared.region?]
  refine ⟨(Op.bookDebt d left).exec s2, claimed, ?_, ?_⟩
  · refine ⟨?_, ?_, ?_, ?_, ?_, ?_, ?_, ?_, ?_⟩
    · rw [← hClaimed, List.length_take, length_committedOf, committedIn_reverse]
    · rw [← hClaimed]
      exact (hNodup.filter _).sublist (List.take_sublist ..)
    · intro x hx
      rw [← hClaimed] at hx
      obtain ⟨hIn, hc⟩ := List.mem_filter.mp (List.mem_of_mem_take hx)
      exact ⟨List.mem_reverse.mp hIn, isCommitted_iff.mp hc⟩
    · intro x hx y hy hc hNot
      rw [← hClaimed] at hx hNot
      exact take_committed_newest hKeyed.sorted _ hx hy hc hNot
    · intro x hx
      show s2.alloc x = _
      rw [hAlloc, claimAll, if_pos hx]
      rfl
    · intro x hx
      show s2.alloc x = _
      rw [hAlloc, claimAll, if_neg hx]
      rfl
    · rw [bookDebt_exec_region ((hr2 d).trans hr), if_pos rfl, ← hLeft]
    · intro d' hd
      rw [bookDebt_exec_region ((hr2 d).trans hr), if_neg hd, hr2]
    · have hUnlock : Function.update (Function.update s.donorLock d.donorVm (some tid)) d.donorVm
          none = s.donorLock := by
        rw [Function.update_idem, ← hLock, Function.update_eq_self]
      have hOthers := congrArg (fun t : Shared => { t with
        alloc := s.alloc, donor := s.donor, log := s.log,
        donorLock := Function.update t.donorLock d.donorVm none }) hRest
      refine hOthers.trans ?_
      simp only [Op.exec, Shared.emit, hUnlock]
  · rw [revokeSection, checkedNextMultipleOf_eq hSize, if_pos hFits, ← hAligned, ← hLeft]
    simp only [hr, hLoop]

/-- **Revocation selects exactly enough and newest first**, exactly when the
region's debt fits into a `u64` with what is booked on top of it. -/
theorem revoke_exact_iff {s : Shared} {d : DonorAllocation}
    (hLock : s.donorLock d.donorVm = none) (hKeyed : ∀ r, s.region? d = some r → r.Keyed)
    {revokeSize : Nat} (hSize : revokeSize < 2 ^ 64) (tid : Tid) :
    RevokesExactly tid s d revokeSize ↔
      ∀ r, s.region? d = some r → wantedChunks revokeSize * granularity < 2 ^ 64 →
        r.revokedOwed + (wantedChunks revokeSize -
          committedIn s r.allocations.values) * granularity < 2 ^ 64 := by
  have hAlone := revokeSection_alone hLock tid revokeSize
  unfold RevokesExactly
  by_cases hFits : wantedChunks revokeSize * granularity < 2 ^ 64
  · cases hr : s.region? d with
    | none =>
      have hFailed : revokeSection tid s d revokeSize = .failed := by
        rw [revokeSection, checkedNextMultipleOf_eq hSize, if_pos hFits]
        simp only [hr]
      rw [hFailed] at hAlone ⊢
      exact ⟨fun _ r hr => (by cases hr), fun _ => ⟨Or.inl rfl, hAlone⟩⟩
    | some r =>
      obtain ⟨s', claimed, hSelected, hSection⟩ :=
        revokeSection_selects hLock hr (hKeyed r hr) hSize hFits tid
      have hLeft : wantedChunks revokeSize - claimed.length =
          wantedChunks revokeSize - committedIn s r.allocations.values := by
        rw [hSelected.count]
        omega
      rw [hLeft] at hSection
      have hIff : (∀ r', some r = some r' → wantedChunks revokeSize * granularity < 2 ^ 64 →
          r'.revokedOwed + (wantedChunks revokeSize -
            committedIn s r'.allocations.values) * granularity < 2 ^ 64) ↔
          r.revokedOwed + (wantedChunks revokeSize -
            committedIn s r.allocations.values) * granularity < 2 ^ 64 := by
        refine ⟨fun h => h r rfl hFits, fun h r' hr' _ => ?_⟩
        cases hr'
        exact h
      rw [hIff]
      by_cases hDebt : r.revokedOwed + (wantedChunks revokeSize -
          committedIn s r.allocations.values) * granularity < 2 ^ 64
      · rw [bookDebt64, add64_of_lt hDebt] at hSection
        simp only [Option.map_some] at hSection
        rw [hSection] at hAlone ⊢
        exact ⟨fun _ => hDebt, fun _ => ⟨⟨r, rfl, hSelected⟩, hAlone⟩⟩
      · rw [bookDebt64, add64_eq_none.mpr hDebt] at hSection
        simp only [Option.map_none] at hSection
        rw [hSection]
        exact ⟨False.elim, hDebt⟩
  · have hFailed : revokeSection tid s d revokeSize = .failed := by
      rw [revokeSection, checkedNextMultipleOf_eq hSize, if_neg hFits]
    rw [hFailed] at hAlone ⊢
    exact ⟨fun _ _ _ h => absurd h hFits, fun _ => ⟨Or.inr hFits, hAlone⟩⟩

/-- In every reachable state the maps are keyed by the ids. -/
theorem Reachable.keyed {s : System} (h : Reachable s) {d : DonorAllocation}
    {r : DonatableRegion} (hr : s.shared.region? d = some r) : r.Keyed := by
  obtain ⟨vm, donor, hFresh, hRun⟩ := h
  exact ((coreInv_steps hFresh hRun).accounting.books d r hr).own

/-- VM 0 asks for two chunks back, one of which it has granted. -/
theorem revoke_exact_committed :
    RevokesExactly 3 (demoAfter demoCommit).shared ⟨0, 7⟩ (2 * granularity) := by
  refine (revoke_exact_iff (by decide +kernel)
    (fun r hr => (demo_reachable demoCommit_runs).keyed hr) (by decide) 3).mpr fun r hr _ => ?_
  have hOwed : ((demoAfter demoCommit).shared.region? ⟨0, 7⟩).map DonatableRegion.revokedOwed =
      some 0 := by decide +kernel
  rw [hr, Option.map_some, Option.some.injEq] at hOwed
  rw [hOwed, Nat.zero_add]
  refine Nat.lt_of_le_of_lt (Nat.mul_le_mul_right _ (Nat.sub_le ..)) ?_
  decide

/-- VM 0 asks for all there is below `2 ^ 64` although it has donated
nothing. -/
def demoAsksAll : List (Label Op Choice) :=
  [.task 1 (.register 0), .outside (.emitRevoke 0 7 (2 ^ 64 - granularity)), .task 0 .go,
    .task 2 .go, .task 2 .go]

theorem demoAsksAll_runs : (orchestrator.run demo demoAsksAll).isSome = true := by
  decide +kernel

/-- A revoke of one more chunk overflows the debt. -/
theorem debt_overflows :
    ∃ s d revokeSize, Reachable s ∧ s.shared.donorLock d.donorVm = none ∧
      revokeSize < 2 ^ 64 ∧ ¬ RevokesExactly 0 s.shared d revokeSize := by
  have hOverflows : (revokeSection 0 (demoAfter demoAsksAll).shared ⟨0, 7⟩
      granularity).isOverflowed = true := by decide +kernel
  refine ⟨demoAfter demoAsksAll, ⟨0, 7⟩, granularity, demo_reachable demoAsksAll_runs,
    by decide +kernel, by decide, ?_⟩
  unfold RevokesExactly
  split
  · rename_i hOut
    rw [hOut] at hOverflows
    cases hOverflows
  · exact id
  · rename_i hOut
    rw [hOut] at hOverflows
    cases hOverflows

end EphMemory.Orchestrator
