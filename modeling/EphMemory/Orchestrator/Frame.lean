import EphMemory.Orchestrator.Tasks
import EphMemory.Orchestrator.Reserve

/-!
# Orchestrator — what an operation can change

The guarantee every thread gives the others. Whatever operation is performed,
an allocation only moves forward through its states, its flags and its donor
are set once, an area that has lost its allocation never gets it back, a VM
that exited stays so and the log only grows (`evolves_exec`). Facts a thread
has learnt of this kind survive the other threads' steps.

* `AllocState.rank` — the order in which an allocation goes through its states;
* `Shared.entry` — the allocation is the one at its offset in its consumer's
  map;
* `Shared.recorded` — the allocation is in the books of a region;
* `Evolves`, `evolves_exec` — the guarantee;
* `AreasOk`, `areasOk_reachable` — every area is filed under its allocation's
  own offset, so a reservation only ever takes free offsets.
-/

namespace EphMemory.Orchestrator

open EphMemory.Lib

-- ---------------------------------------------------------------------------
-- Regions
-- ---------------------------------------------------------------------------

namespace DonorState

theorem find?_map_path (path path' : QomPath) (f : DonatableRegion → DonatableRegion)
    (l : List DonatableRegion) :
    (l.map fun r => if r.path = path then { f r with path := r.path } else r).find?
        (fun r => decide (r.path = path')) =
      (l.find? fun r => decide (r.path = path')).map fun r =>
        if path' = path then { f r with path := r.path } else r := by
  induction l with
  | nil => rfl
  | cons r rest ih =>
    rw [List.map_cons]
    by_cases hp : r.path = path'
    · rw [List.find?_cons_of_pos (by split <;> simp [hp]), List.find?_cons_of_pos (by simp [hp])]
      simp [hp]
    · rw [List.find?_cons_of_neg (by split <;> simp [hp]), List.find?_cons_of_neg (by simp [hp])]
      exact ih

/-- A lookup after a change finds the changed region, or another as it was. -/
theorem findRegion_modifyRegion (d : DonorState) (path path' : QomPath)
    (f : DonatableRegion → DonatableRegion) :
    (d.modifyRegion path f).findRegion path' = (d.findRegion path').map fun r =>
      if path' = path then { f r with path := r.path } else r :=
  find?_map_path path path' f d.donatableRegions

/-- Every region is the one found under its path. -/
theorem findRegion_of_mem {d : DonorState} {r : DonatableRegion}
    (h : r ∈ d.donatableRegions) : d.findRegion r.path = some r := by
  obtain ⟨l, hNodup⟩ := d
  simp only [findRegion] at h ⊢
  induction l with
  | nil => cases h
  | cons x rest ih =>
    rw [List.map_cons, List.nodup_cons] at hNodup
    rcases List.mem_cons.mp h with rfl | h
    · rw [List.find?_cons_of_pos (by simp)]
    · have hne : x.path ≠ r.path := fun heq =>
        hNodup.1 (heq ▸ List.mem_map.mpr ⟨r, h, rfl⟩)
      rw [List.find?_cons_of_neg (by simpa using hne)]
      exact ih hNodup.2 h

end DonorState

namespace Shared

/-- A change to one region leaves the regions of all donors where they are found. -/
theorem region?_modifyRegion (s : Shared) (d d' : DonorAllocation)
    (f : DonatableRegion → DonatableRegion) :
    (s.modifyRegion d f).region? d' =
      (s.region? d').map fun r => if d' = d then { f r with path := r.path } else r := by
  obtain ⟨v, p⟩ := d
  obtain ⟨v', p'⟩ := d'
  simp only [region?, modifyRegion]
  by_cases hv : v' = v
  · subst hv
    rw [Function.update_self, DonorState.findRegion_modifyRegion]
    simp
  · rw [Function.update_of_ne hv]
    simp [hv]

/-- The region `d` records the allocation `x`. -/
def recorded (s : Shared) (d : DonorAllocation) (x : AllocId) : Bool :=
  match s.region? d with
  | none => false
  | some r => r.allocations.contains x

/-- The allocation is the one at its offset in its consumer's map. -/
def entry (s : Shared) (x : AllocId) : Prop :=
  (s.allocatedAreas (s.alloc x).consumerVm).get? (s.offsetOf x) = some x

theorem recorded_congr {s s' : Shared} (h : s'.donor = s.donor) (d : DonorAllocation)
    (x : AllocId) : s'.recorded d x = s.recorded d x := by
  unfold recorded region?
  rw [h]

end Shared

-- ---------------------------------------------------------------------------
-- The order of states
-- ---------------------------------------------------------------------------

def AllocState.rank : AllocState → Nat
  | .pendingCommit => 0
  | .committed => 1
  | .pendingRelease => 2
  | .abandoned => 3

/-- `Abandoned` is the last state. -/
theorem AllocState.eq_abandoned_of_rank {st : AllocState} (h : 3 ≤ st.rank) :
    st = .abandoned := by
  cases st <;> simp [rank] at h ⊢

/-- The allocation is backed and no one has taken it yet. -/
def EphAllocation.parked (a : EphAllocation) : Bool :=
  a.state = .committed || a.state = .pendingRelease

-- ---------------------------------------------------------------------------
-- The guarantee
-- ---------------------------------------------------------------------------

/-- How the state of one allocation may change. -/
structure AllocEvolves (a a' : EphAllocation) : Prop where
  offset : a'.consumerOffset = a.consumerOffset
  consumer : a'.consumerVm = a.consumerVm
  rank : a.state.rank ≤ a'.state.rank
  donor : ∀ d, a.donorInfo = some d → a'.donorInfo = some d
  dcdSet : a.dcdSet = true → a'.dcdSet = true
  requested : a.releaseRequested = true → a'.releaseRequested = true

theorem AllocEvolves.refl (a : EphAllocation) : AllocEvolves a a :=
  ⟨rfl, rfl, le_refl _, fun _ h => h, id, id⟩

/-- How the shared state may change, seen by a thread that is not moving. -/
structure Evolves (s s' : Shared) : Prop where
  nextId : s.nextId ≤ s'.nextId
  alloc : ∀ x < s.nextId, AllocEvolves (s.alloc x) (s'.alloc x)
  gone : ∀ x < s.nextId, s'.entry x → s.entry x
  exited : ∀ v, s.exited v = true → s'.exited v = true
  vm : s'.vm = s.vm
  log : s.log <:+ s'.log
  region : ∀ d, (s'.region? d).isSome = (s.region? d).isSome

/-- An operation that leaves the allocations and the areas alone. -/
theorem Evolves.of_frame {s s' : Shared} (hAlloc : s'.alloc = s.alloc)
    (hNext : s'.nextId = s.nextId) (hAreas : s'.allocatedAreas = s.allocatedAreas)
    (hExited : ∀ v, s.exited v = true → s'.exited v = true) (hVm : s'.vm = s.vm)
    (hLog : s.log <:+ s'.log) (hRegion : ∀ d, (s'.region? d).isSome = (s.region? d).isSome) :
    Evolves s s' where
  nextId := by rw [hNext]
  alloc x _ := by rw [hAlloc]; exact .refl _
  gone x _ h := by
    simp only [Shared.entry, Shared.offsetOf, hAlloc, hAreas] at h ⊢
    exact h
  exited := hExited
  vm := hVm
  log := hLog
  region := hRegion

/-- No region comes or goes. -/
theorem region?_isSome_modifyRegion (s : Shared) (d d' : DonorAllocation)
    (f : DonatableRegion → DonatableRegion) :
    ((s.modifyRegion d f).region? d').isSome = (s.region? d').isSome := by
  rw [Shared.region?_modifyRegion, Option.isSome_map]

/-- Changing one allocation, with the areas only losing entries. -/
theorem Evolves.of_setAlloc {s s' : Shared} {x : AllocId} {a : EphAllocation}
    (ha : AllocEvolves (s.alloc x) a) (hAlloc : s'.alloc = Function.update s.alloc x a)
    (hNext : s'.nextId = s.nextId)
    (hAreas : ∀ c o y, (s'.allocatedAreas c).get? o = some y →
      (s.allocatedAreas c).get? o = some y)
    (hExited : s'.exited = s.exited) (hVm : s'.vm = s.vm) (hLog : s.log <:+ s'.log)
    (hDonor : s'.donor = s.donor) : Evolves s s' := by
  have hOne : ∀ y, AllocEvolves (s.alloc y) (s'.alloc y) := by
    intro y
    rw [hAlloc]
    by_cases hy : y = x
    · subst hy; rw [Function.update_self]; exact ha
    · rw [Function.update_of_ne hy]; exact .refl _
  refine ⟨by rw [hNext], fun y _ => hOne y, fun y _ h => ?_, fun v h => ?_, hVm, hLog, fun d => ?_⟩
  · have h' := hAreas _ _ _ h
    simp only [Shared.entry, Shared.offsetOf, (hOne y).consumer, (hOne y).offset] at h' ⊢
    exact h'
  · rw [hExited]; exact h
  · unfold Shared.region?; rw [hDonor]

/-- Only the areas change, and they only lose entries. -/
theorem Evolves.of_areas {s s' : Shared} (hAlloc : s'.alloc = s.alloc)
    (hNext : s'.nextId = s.nextId)
    (hAreas : ∀ c o y, (s'.allocatedAreas c).get? o = some y →
      (s.allocatedAreas c).get? o = some y)
    (hExited : s'.exited = s.exited) (hVm : s'.vm = s.vm) (hLog : s.log <:+ s'.log)
    (hDonor : s'.donor = s.donor) : Evolves s s' := by
  refine ⟨by rw [hNext], fun y _ => ?_, fun y _ h => ?_, fun v h => ?_, hVm, hLog, fun d => ?_⟩
  · rw [hAlloc]; exact .refl _
  · simp only [Shared.entry, Shared.offsetOf, hAlloc] at h ⊢
    exact hAreas _ _ _ h
  · rw [hExited]; exact h
  · unfold Shared.region?; rw [hDonor]

-- ---------------------------------------------------------------------------
-- The allocation's own transitions
-- ---------------------------------------------------------------------------

/-- A commit moves the state forward or leaves it. -/
theorem commitState_evolves {a a' : EphAllocation} {live : Bool}
    (h : a.commitState = some (live, a')) : AllocEvolves a a' := by
  unfold EphAllocation.commitState at h
  split at h <;> cases h
  · rename_i hs
    exact ⟨rfl, rfl, by simp [hs, AllocState.rank], fun _ h => h, id, id⟩
  · exact .refl _

/-- A revoke that claims moves the state forward or leaves it. -/
theorem tryClaim_evolves (a : EphAllocation) : AllocEvolves a a.tryClaimForRevoke.2 := by
  unfold EphAllocation.tryClaimForRevoke
  split
  · rename_i hs
    exact ⟨rfl, rfl, by simp [hs, AllocState.rank], fun _ h => h, id, id⟩
  · exact .refl _

/-- Whoever abandons moves the state to the last one. -/
theorem abandon_evolves (a : EphAllocation) : AllocEvolves a a.abandonOrTakeDonor.2 := by
  unfold EphAllocation.abandonOrTakeDonor
  split
  all_goals first
    | exact .refl _
    | (rename_i hs
       exact ⟨rfl, rfl, by simp [hs, AllocState.rank], fun _ h => h, id, id⟩)

-- ---------------------------------------------------------------------------
-- Areas under events and reservations
-- ---------------------------------------------------------------------------

/-- Releasing only takes areas away. -/
theorem signalReleaseDc_get? {offsetOf : AllocId → Nat} {extents : List Extent}
    {areas : OrdMap Nat AllocId} {o : Nat} {y : AllocId}
    (h : (signalReleaseDc offsetOf areas extents).1.get? o = some y) : areas.get? o = some y := by
  induction extents generalizing areas with
  | nil => exact h
  | cons e rest ih =>
    rw [signalReleaseDc] at h
    have h' := ih h
    rw [OrdMap.get?_eraseAll] at h'
    split at h'
    · cases h'
    · exact h'

namespace Shared

/-- A reservation takes the next free identifiers. -/
theorem mem_newIds {s : Shared} {c : VmId} {size : Nat} {x : AllocId} :
    x ∈ s.newIds c size ↔ s.nextId ≤ x ∧ x < s.nextId + (s.newOffsets c size).length := by
  rw [newIds, List.mem_range'_1]

theorem zip_keys (s : Shared) (c : VmId) (size : Nat) :
    ((s.newOffsets c size).zip (s.newIds c size)).map Prod.fst = s.newOffsets c size := by
  rw [List.map_fst_zip]
  simp [newIds]

theorem zip_keys_nodup (s : Shared) (c : VmId) (size : Nat) :
    (((s.newOffsets c size).zip (s.newIds c size)).map Prod.fst).Nodup := by
  rw [zip_keys]
  exact reserveOffsets_nodup ..

theorem getD_add_sub {l : List Nat} {i o : Nat} (n : Nat) (hi : i < l.length) (h : l[i] = o) :
    l.getD (n + i - n) 0 = o := by
  rw [Nat.add_sub_cancel_left, List.getD_eq_getElem?_getD, List.getElem?_eq_getElem hi]
  exact h

/-- The new entries pair the `i`-th new offset with the `i`-th new allocation. -/
theorem mem_zip_new {s : Shared} {c : VmId} {size o : Nat} {x : AllocId}
    (h : (o, x) ∈ (s.newOffsets c size).zip (s.newIds c size)) :
    s.nextId ≤ x ∧ x < s.nextId + (s.newOffsets c size).length ∧
      (s.newOffsets c size).getD (x - s.nextId) 0 = o ∧ o ∈ s.newOffsets c size := by
  obtain ⟨i, hi, hEq⟩ := List.mem_iff_getElem.mp h
  have hi1 : i < (s.newOffsets c size).length := by
    rw [List.length_zip] at hi
    exact lt_of_lt_of_le hi (min_le_left ..)
  have hFst : (s.newOffsets c size)[i] = o := by
    have := congrArg Prod.fst hEq
    rwa [List.getElem_zip] at this
  have hSnd : s.nextId + i = x := by
    have := congrArg Prod.snd hEq
    rw [List.getElem_zip] at this
    simpa [newIds] using this
  rw [← hSnd]
  refine ⟨Nat.le_add_right .., Nat.add_lt_add_left hi1 _, getD_add_sub _ hi1 hFst, ?_⟩
  rw [← hFst]
  exact List.getElem_mem hi1

/-- The areas after a reservation: an entry is new or was there before. -/
theorem get?_reserve {s : Shared} {c c' : VmId} {size o : Nat} {x : AllocId}
    (h : ((s.reserveMemoryContig c size).allocatedAreas c').get? o = some x) :
    (c' = c ∧ (o, x) ∈ (s.newOffsets c size).zip (s.newIds c size)) ∨
      (s.allocatedAreas c').get? o = some x := by
  simp only [reserveMemoryContig] at h
  by_cases hc : c' = c
  · subst hc
    rw [Function.update_self, OrdMap.get?_insertAll (s.zip_keys_nodup c' size)] at h
    cases hl : ((s.newOffsets c' size).zip (s.newIds c' size)).lookup o with
    | none =>
      rw [hl, Option.none_or] at h
      exact Or.inr h
    | some y =>
      rw [hl, Option.some_or, Option.some.injEq] at h
      subst h
      obtain ⟨l1, l2, hEq, -⟩ := List.lookup_eq_some_iff.mp hl
      exact Or.inl ⟨rfl, by rw [hEq]; simp⟩
  · rw [Function.update_of_ne hc] at h
    exact Or.inr h

/-- A reservation leaves the allocations there are. -/
theorem reserve_alloc_of_lt {s : Shared} {c : VmId} {size : Nat} {x : AllocId}
    (h : x < s.nextId) : (s.reserveMemoryContig c size).alloc x = s.alloc x := by
  simp only [reserveMemoryContig]
  rw [if_neg fun hNew => absurd h (Nat.not_lt.mpr hNew.1)]

/-- A reservation makes the new allocations at their offsets for its consumer. -/
theorem reserve_alloc_of_new {s : Shared} {c : VmId} {size : Nat} {x : AllocId}
    (h : s.nextId ≤ x ∧ x < s.nextId + (s.newOffsets c size).length) :
    (s.reserveMemoryContig c size).alloc x =
      .new ((s.newOffsets c size).getD (x - s.nextId) 0) c := by
  simp only [reserveMemoryContig]
  rw [if_pos h]

end Shared

/-- Reserving is one of the ways the state evolves. -/
theorem evolves_reserve (s : Shared) (c : VmId) (size : Nat) :
    Evolves s (s.reserveMemoryContig c size) where
  nextId := Nat.le_add_right ..
  alloc x hx := by rw [Shared.reserve_alloc_of_lt hx]; exact .refl _
  gone x hx h := by
    simp only [Shared.entry, Shared.offsetOf, Shared.reserve_alloc_of_lt hx] at h ⊢
    rcases Shared.get?_reserve h with ⟨-, hNew⟩ | hOld
    · exact absurd hx (Nat.not_lt.mpr (Shared.mem_zip_new hNew).1)
    · exact hOld
  exited _ h := h
  vm := rfl
  log := List.suffix_refl _
  region _ := rfl

/-- **Guarantee.** Whatever a thread does, the others see the state evolve. -/
theorem evolves_exec (op : Op) (s : Shared) : Evolves s (op.exec s) := by
  have hMod : ∀ d f d', ((s.modifyRegion d f).region? d').isSome = (s.region? d').isSome :=
    fun d f d' => region?_isSome_modifyRegion s d d' f
  cases op with
  | reserveMemoryContig c size => exact evolves_reserve s c size
  | reserveFromRegion d size ids =>
    exact .of_frame rfl rfl rfl (fun _ h => h) rfl (List.suffix_refl _) (hMod d _)
  | bookDebt d amount =>
    exact .of_frame rfl rfl rfl (fun _ h => h) rfl (List.suffix_refl _) (hMod d _)
  | handleReservedAlloc d ids requested granted =>
    simp only [Op.exec]
    split
    · exact .of_frame rfl rfl rfl (fun _ h => h) rfl (List.suffix_refl _) fun _ => rfl
    · exact .of_frame rfl rfl rfl (fun _ h => h) rfl (List.suffix_cons ..) (hMod d _)
  | bookkeep d x =>
    simp only [Op.exec]
    split
    · exact .of_frame rfl rfl rfl (fun _ h => h) rfl (List.suffix_refl _) fun _ => rfl
    · split
      · exact .of_frame rfl rfl rfl (fun _ h => h) rfl (List.suffix_cons ..) (hMod d _)
      · exact .of_frame rfl rfl rfl (fun _ h => h) rfl (List.suffix_refl _) (hMod d _)
  | setDonorInfo x d =>
    refine .of_setAlloc (x := x) ?_ rfl rfl (fun _ _ _ h => h) rfl rfl (List.suffix_refl _) rfl
    exact ⟨rfl, rfl, le_refl _, fun d' h => by simp [h], id, id⟩
  | commitState x =>
    simp only [Op.exec]
    split
    · exact .of_frame rfl rfl rfl (fun _ h => h) rfl (List.suffix_cons ..) fun _ => rfl
    · rename_i live a ha
      exact .of_setAlloc (commitState_evolves ha) rfl rfl (fun _ _ _ h => h) rfl rfl
        (List.suffix_cons ..) rfl
  | tryClaim d x =>
    simp only [Op.exec]
    split
    · exact .of_setAlloc (tryClaim_evolves _) rfl rfl (fun _ _ _ h => h) rfl rfl
        (List.suffix_cons ..) rfl
    · exact .of_frame rfl rfl rfl (fun _ h => h) rfl (List.suffix_refl _) fun _ => rfl
  | abandon x =>
    exact .of_setAlloc (abandon_evolves _) rfl rfl (fun _ _ _ h => h) rfl rfl
      (List.suffix_cons ..) rfl
  | claimRelease c x call taken =>
    have hSet : ∀ y, AllocEvolves (s.alloc y) { s.alloc y with releaseRequested := true } :=
      fun y => ⟨rfl, rfl, le_refl _, fun _ h => h, id, fun _ => rfl⟩
    simp only [Op.exec]
    split
    · exact .of_frame rfl rfl rfl (fun _ h => h) rfl (List.suffix_refl _) fun _ => rfl
    · exact .of_frame rfl rfl rfl (fun _ h => h) rfl (List.suffix_refl _) fun _ => rfl
    · exact .of_setAlloc (hSet _) rfl rfl (fun _ _ _ h => h) rfl rfl (List.suffix_cons ..) rfl
    · refine .of_setAlloc (hSet _) rfl rfl (fun c' o y h => ?_) rfl rfl
        ((List.suffix_cons ..).trans (List.suffix_cons ..)) rfl
      simp only [Shared.emit, Shared.setAreas, Shared.setAlloc] at h
      by_cases hc : c' = c
      · subst hc
        rw [Function.update_self, OrdMap.get?_erase] at h
        split at h
        · cases h
        · exact h
      · rw [Function.update_of_ne hc] at h
        exact h
  | removeAreas c call xs =>
    refine .of_areas rfl rfl (fun c' o y h => ?_) rfl rfl (List.suffix_append ..) rfl
    simp only [Op.exec, Shared.setAreas] at h
    by_cases hc : c' = c
    · subst hc
      rw [Function.update_self, OrdMap.get?_eraseAll] at h
      split at h
      · cases h
      · exact h
    · rw [Function.update_of_ne hc] at h
      exact h
  | signalReleaseDc c extents about =>
    refine .of_areas rfl rfl (fun c' o y h => ?_) rfl rfl (List.suffix_cons ..) rfl
    simp only [Op.exec, Shared.setAreas, Shared.emit] at h
    by_cases hc : c' = c
    · subst hc
      rw [Function.update_self] at h
      exact signalReleaseDc_get? h
    · rw [Function.update_of_ne hc] at h
      exact h
  | signalAddDc c extents about =>
    have hOne : ∀ y, AllocEvolves (s.alloc y)
        (((Op.signalAddDc c extents about).exec s).alloc y) := by
      intro y
      simp only [Op.exec]
      split
      · exact ⟨rfl, rfl, le_refl _, fun _ h => h, fun _ => rfl, id⟩
      · exact .refl _
    refine ⟨le_refl _, fun y _ => hOne y, fun y _ h => ?_, fun _ h => h, rfl,
      List.suffix_cons .., fun _ => rfl⟩
    simp only [Shared.entry, Shared.offsetOf, (hOne y).consumer, (hOne y).offset] at h ⊢
    exact h
  | setExited v =>
    refine .of_frame rfl rfl rfl (fun v' h => ?_) rfl (List.suffix_refl _) fun _ => rfl
    simp only [Op.exec]
    by_cases hv : v' = v
    · subst hv; rw [Function.update_self]
    · rw [Function.update_of_ne hv]; exact h
  | _ =>
    exact .of_frame rfl rfl rfl (fun _ h => h) rfl
      (by first | exact List.suffix_refl _ | exact List.suffix_cons ..) fun _ => rfl

-- ---------------------------------------------------------------------------
-- One allocation
-- ---------------------------------------------------------------------------

/-- What an operation does to the allocation `x`: it becomes the third
argument. -/
inductive AllocChange (s : Shared) (x : AllocId) : Op → EphAllocation → Prop
  | same {op : Op} : op ≠ .abandon x →
      (op = .commitState x → (s.alloc x).state ≠ .pendingCommit) →
      (∀ d, op = .tryClaim d x → (s.alloc x).state ≠ .committed) →
      (∀ d, op ≠ .setDonorInfo x d) →
      (∀ c y call taken, op = .claimRelease c y call taken →
        s.claimAt c y ≠ .release x ∧ s.claimAt c y ≠ .drop x) → AllocChange s x op (s.alloc x)
  | created {c : VmId} {size : Nat} :
      s.nextId ≤ x ∧ x < s.nextId + (s.newOffsets c size).length →
      AllocChange s x (.reserveMemoryContig c size)
        (.new ((s.newOffsets c size).getD (x - s.nextId) 0) c)
  | donorSet {d : DonorAllocation} :
      AllocChange s x (.setDonorInfo x d)
        { s.alloc x with donorInfo := (s.alloc x).donorInfo.or (some d) }
  | committed : (s.alloc x).state = .pendingCommit →
      AllocChange s x (.commitState x) { s.alloc x with state := .committed }
  | claimed {d : DonorAllocation} : (s.alloc x).state = .committed →
      AllocChange s x (.tryClaim d x) { s.alloc x with state := .pendingRelease }
  | abandoned : AllocChange s x (.abandon x) { s.alloc x with state := .abandoned }
  | requested {c : VmId} {y : AllocId} {call : List AllocId} {taken : Bool} :
      s.claimAt c y = .release x ∨ s.claimAt c y = .drop x →
      AllocChange s x (.claimRelease c y call taken) { s.alloc x with releaseRequested := true }
  | marked {c : VmId} {extents : List Extent} {about : List AllocId} :
      x ∈ (Orchestrator.signalAddDc s.offsetOf (s.allocatedAreas c) extents).1 →
      AllocChange s x (.signalAddDc c extents about) { s.alloc x with dcdSet := true }

/-- Abandoning changes the state and nothing else. -/
theorem abandonOrTakeDonor_snd (a : EphAllocation) :
    a.abandonOrTakeDonor.2 = { a with state := .abandoned } := by
  obtain ⟨offset, vm, state, donor, dcd, req⟩ := a
  cases state <;> rfl

/-- A table after one change, at the place of the change and elsewhere. -/
theorem update_cases {P : EphAllocation → Prop} {f : AllocId → EphAllocation} {x y : AllocId}
    {a : EphAllocation} (hThis : y = x → P a) (hOther : y ≠ x → P (f x)) :
    P (Function.update f y a x) := by
  by_cases h : y = x
  · subst h
    rw [Function.update_self]
    exact hThis rfl
  · rw [Function.update_of_ne (Ne.symm h)]
    exact hOther h

/-- **What an operation does to an allocation**, case by case. -/
theorem allocChange_exec (op : Op) (s : Shared) (x : AllocId) :
    AllocChange s x op ((op.exec s).alloc x) := by
  cases op with
  | reserveMemoryContig c size =>
    simp only [Op.exec, Shared.reserveMemoryContig]
    split
    · rename_i hNew
      exact .created hNew
    · exact .same nofun nofun nofun nofun nofun
  | setDonorInfo y d =>
    refine update_cases (P := AllocChange s x _) (fun heq => ?_) (fun hne => ?_)
    · subst heq
      exact .donorSet
    · exact .same nofun nofun nofun (fun d' heq => hne (by cases heq; rfl)) nofun
  | commitState y =>
    simp only [Op.exec]
    cases hs : (s.alloc y).state with
    | pendingCommit =>
      simp only [EphAllocation.commitState, hs, Shared.emit, Shared.setAlloc]
      refine update_cases (P := AllocChange s x _) (fun heq => ?_) (fun hne => ?_)
      · subst heq
        exact .committed hs
      · exact .same nofun (fun heq => absurd (by cases heq; rfl) hne) nofun nofun nofun
    | abandoned =>
      simp only [EphAllocation.commitState, hs, Shared.emit, Shared.setAlloc]
      have hKeep : Function.update s.alloc y (s.alloc y) x = s.alloc x := by
        rw [Function.update_eq_self]
      rw [hKeep]
      exact .same nofun (fun heq => by cases heq; simp [hs]) nofun nofun nofun
    | committed =>
      simp only [EphAllocation.commitState, hs, Shared.emit]
      exact .same nofun (fun heq => by cases heq; simp [hs]) nofun nofun nofun
    | pendingRelease =>
      simp only [EphAllocation.commitState, hs, Shared.emit]
      exact .same nofun (fun heq => by cases heq; simp [hs]) nofun nofun nofun
  | tryClaim d y =>
    simp only [Op.exec, EphAllocation.tryClaimForRevoke]
    by_cases hs : (s.alloc y).state = .committed
    · simp only [hs, if_true, Shared.emit, Shared.setAlloc]
      refine update_cases (P := AllocChange s x _) (fun heq => ?_) (fun hne => ?_)
      · subst heq
        exact .claimed hs
      · exact .same nofun nofun (fun d' heq => absurd (by cases heq; rfl) hne) nofun nofun
    · simp only [hs, if_false]
      exact .same nofun nofun (fun d' heq => by cases heq; exact hs) nofun nofun
  | abandon y =>
    simp only [Op.exec, Shared.emit, Shared.setAlloc, abandonOrTakeDonor_snd]
    refine update_cases (P := AllocChange s x _) (fun heq => ?_) (fun hne => ?_)
    · subst heq
      exact .abandoned
    · exact .same (fun heq => hne (by cases heq; rfl)) nofun nofun nofun nofun
  | claimRelease c y call taken =>
    have hSame : s.claimAt c y ≠ .release x → s.claimAt c y ≠ .drop x →
        AllocChange s x (.claimRelease c y call taken) (s.alloc x) := fun h1 h2 =>
      .same nofun nofun nofun nofun fun _ _ _ _ heq => by cases heq; exact ⟨h1, h2⟩
    simp only [Op.exec]
    split
    · rename_i hz
      exact hSame (by rw [hz]; nofun) (by rw [hz]; nofun)
    · rename_i z hz
      exact hSame (by rw [hz]; nofun) (by rw [hz]; nofun)
    · rename_i z hz
      simp only [Shared.emit, Shared.setAlloc]
      refine update_cases (P := AllocChange s x _) (fun heq => ?_) (fun hne => ?_)
      · subst heq
        exact .requested (Or.inl hz)
      · exact hSame (by rw [hz]; simp [hne]) (by rw [hz]; simp)
    · rename_i z hz
      simp only [Shared.emit, Shared.setAlloc, Shared.setAreas]
      refine update_cases (P := AllocChange s x _) (fun heq => ?_) (fun hne => ?_)
      · subst heq
        exact .requested (Or.inr hz)
      · exact hSame (by rw [hz]; simp) (by rw [hz]; simp [hne])
  | signalAddDc c extents about =>
    simp only [Op.exec]
    split
    · exact .marked ‹_›
    · exact .same nofun nofun nofun nofun nofun
  | handleReservedAlloc d ids requested granted =>
    simp only [Op.exec]
    split <;> exact .same nofun nofun nofun nofun nofun
  | bookkeep d y =>
    have hSame : AllocChange s x (.bookkeep d y) (s.alloc x) :=
      .same nofun nofun nofun nofun nofun
    simp only [Op.exec]
    split
    · exact hSame
    · split <;> exact hSame
  | _ => exact .same nofun nofun nofun nofun nofun

/-- Only a reservation moves the counter. -/
theorem nextId_exec {op : Op} {s : Shared} (hOp : ∀ c size, op ≠ .reserveMemoryContig c size) :
    (op.exec s).nextId = s.nextId := by
  cases op with
  | reserveMemoryContig c size => exact absurd rfl (hOp c size)
  | handleReservedAlloc d ids requested granted =>
    simp only [Op.exec]
    split <;> rfl
  | bookkeep d y =>
    simp only [Op.exec]
    split
    · rfl
    · split <;> rfl
  | commitState y =>
    simp only [Op.exec]
    split <;> rfl
  | tryClaim d y =>
    simp only [Op.exec]
    split <;> rfl
  | claimRelease c y call taken =>
    simp only [Op.exec]
    split <;> rfl
  | _ => rfl

-- ---------------------------------------------------------------------------
-- One region
-- ---------------------------------------------------------------------------

/-- What an operation does to the books of the region `d`. -/
inductive RegionChange (s : Shared) (d : DonorAllocation) :
    Op → DonatableRegion → DonatableRegion → Prop
  | same {op : Op} {r : DonatableRegion} :
      (∀ size ids, op ≠ .reserveFromRegion d size ids) →
      (∀ ids n m, op ≠ .handleReservedAlloc d ids n m) → (∀ x, op ≠ .bookkeep d x) →
      (∀ n, op ≠ .bookDebt d n) → RegionChange s d op r r
  | reserved {size : Nat} {ids : List AllocId} {r : DonatableRegion} :
      RegionChange s d (.reserveFromRegion d size ids) r (r.reserve size ids)
  | confirmed {ids : List AllocId} {n m : Nat} {r : DonatableRegion} :
      RegionChange s d (.handleReservedAlloc d ids n m) r (r.handleReservedAlloc ids n m).1
  | booked {x : AllocId} {r : DonatableRegion} :
      RegionChange s d (.bookkeep d x) r (r.bookkeep x)
  | debt {n : Nat} {r : DonatableRegion} :
      RegionChange s d (.bookDebt d n) r { r with revokedOwed := r.revokedOwed + n }

/-- A region after a change to one of the regions. -/
theorem region?_modified {s s' : Shared} {d d' : DonorAllocation}
    {f : DonatableRegion → DonatableRegion} {r : DonatableRegion}
    (hr : s.region? d = some r) (hs' : s'.donor = (s.modifyRegion d' f).donor)
    (hPath : (f r).path = r.path) :
    s'.region? d = some (if d = d' then f r else r) := by
  have hEq : s'.region? d = (s.modifyRegion d' f).region? d := by
    unfold Shared.region?
    rw [hs']
  have hSelf : ({ f r with path := r.path } : DonatableRegion) = f r := by
    rw [← hPath]
  rw [hEq, Shared.region?_modifyRegion, hr, Option.map_some, hSelf]

/-- An operation on the region `d'` changes that region and no other. -/
theorem regionChange_modified {s s' : Shared} {d : DonorAllocation} {op : Op}
    {r : DonatableRegion} (d' : DonorAllocation) (f : DonatableRegion → DonatableRegion)
    (hr : s.region? d = some r) (hs' : s'.donor = (s.modifyRegion d' f).donor)
    (hPath : (f r).path = r.path) (hOther : d ≠ d' → RegionChange s d op r r)
    (hThis : d = d' → RegionChange s d op r (f r)) :
    ∃ r', s'.region? d = some r' ∧ RegionChange s d op r r' := by
  refine ⟨_, region?_modified hr hs' hPath, ?_⟩
  by_cases hd : d = d'
  · rw [if_pos hd]
    exact hThis hd
  · rw [if_neg hd]
    exact hOther hd

/-- Where no donor changes, a region is as it was. -/
theorem regionChange_kept {s s' : Shared} {d : DonorAllocation} {op : Op}
    {r : DonatableRegion} (hr : s.region? d = some r) (hDonor : s'.donor = s.donor)
    (hSame : RegionChange s d op r r) :
    ∃ r', s'.region? d = some r' ∧ RegionChange s d op r r' := by
  refine ⟨r, ?_, hSame⟩
  unfold Shared.region? at hr ⊢
  rw [hDonor]
  exact hr

/-- Bookkeeping keeps the path. -/
theorem bookkeep_path (r : DonatableRegion) (x : AllocId) : (r.bookkeep x).path = r.path := by
  unfold DonatableRegion.bookkeep
  split <;> rfl

/-- **What an operation does to a region**, case by case. -/
theorem regionChange_exec (op : Op) {s : Shared} {d : DonorAllocation} {r : DonatableRegion}
    (hr : s.region? d = some r) :
    ∃ r', (op.exec s).region? d = some r' ∧ RegionChange s d op r r' := by
  cases op with
  | reserveFromRegion d' size ids =>
    refine regionChange_modified d' (·.reserve size ids) hr rfl rfl (fun hne => ?_)
      (fun heq => ?_)
    · exact .same (fun _ _ h => hne (by cases h; rfl)) nofun nofun nofun
    · subst heq
      exact .reserved
  | handleReservedAlloc d' ids n m =>
    have hOther : d ≠ d' → RegionChange s d (.handleReservedAlloc d' ids n m) r r := fun hne =>
      .same nofun (fun _ _ _ h => hne (by cases h; rfl)) nofun nofun
    simp only [Op.exec]
    split
    · rename_i hNone
      refine regionChange_kept hr rfl (hOther fun heq => ?_)
      rw [← heq, hr] at hNone
      cases hNone
    · refine regionChange_modified d' (fun r => (r.handleReservedAlloc ids n m).1) hr rfl rfl
        hOther (fun heq => ?_)
      subst heq
      exact .confirmed
  | bookkeep d' x =>
    have hOther : d ≠ d' → RegionChange s d (.bookkeep d' x) r r := fun hne =>
      .same nofun nofun (fun _ h => hne (by cases h; rfl)) nofun
    have hThis : d = d' → RegionChange s d (.bookkeep d' x) r (r.bookkeep x) := by
      intro heq
      subst heq
      exact .booked
    simp only [Op.exec]
    split
    · rename_i hNone
      refine regionChange_kept hr rfl (hOther fun heq => ?_)
      rw [← heq, hr] at hNone
      cases hNone
    · split
      · exact regionChange_modified d' (·.bookkeep x) hr rfl (bookkeep_path r x) hOther hThis
      · exact regionChange_modified d' (·.bookkeep x) hr rfl (bookkeep_path r x) hOther hThis
  | bookDebt d' n =>
    refine regionChange_modified d' (fun r => { r with revokedOwed := r.revokedOwed + n }) hr rfl
      rfl (fun hne => ?_) (fun heq => ?_)
    · exact .same nofun nofun nofun (fun _ h => hne (by cases h; rfl))
    · subst heq
      exact .debt
  | commitState x =>
    refine regionChange_kept hr ?_ (.same nofun nofun nofun nofun)
    simp only [Op.exec]
    split <;> rfl
  | tryClaim d' x =>
    refine regionChange_kept hr ?_ (.same nofun nofun nofun nofun)
    simp only [Op.exec]
    split <;> rfl
  | claimRelease c x call taken =>
    refine regionChange_kept hr ?_ (.same nofun nofun nofun nofun)
    simp only [Op.exec]
    split <;> rfl
  | _ => exact regionChange_kept hr rfl (.same nofun nofun nofun nofun)

/-- No operation makes a region. -/
theorem region?_exec_none (op : Op) {s : Shared} {d : DonorAllocation}
    (hr : s.region? d = none) : (op.exec s).region? d = none := by
  have hSome := (evolves_exec op s).region d
  rw [hr] at hSome
  exact Option.not_isSome_iff_eq_none.mp (by rw [hSome]; simp)

-- ---------------------------------------------------------------------------
-- The log
-- ---------------------------------------------------------------------------

/-- What an operation appends to the log, newest first. -/
def Op.outputs : Op → Shared → List Output
  | .panic p, _ => [.panicked p]
  | .ephMemDonateCapacity d size granted, _ => [.ephMemDonateCapacity d size granted]
  | .handleReservedAlloc d ids requested granted, s =>
    match s.region? d with
    | none => []
    | some r =>
      [.confirmed d (ids.take (r.finalSize requested granted / granularity))
        (r.toRevoke requested granted)]
  | .ephMemReturnCapacity d size covers ok, _ => [.ephMemReturnCapacity d size covers ok]
  | .commitState x, s =>
    match (s.alloc x).commitState with
    | none => [.panicked .committedTwice]
    | some (live, _) => [.committed x live]
  | .bookkeep d x, s =>
    match s.region? d with
    | none => []
    | some r => if r.tooMuch x then [.returningTooMuch d] else []
  | .beginRevoke d size _, _ => [.revokeAsked d size]
  | .tryClaim d x, s => if (s.alloc x).tryClaimForRevoke.1 then [.claimed d x] else []
  | .abandon x, s => [.abandoned x (s.alloc x).abandonOrTakeDonor.1]
  | .claimRelease c x call _, s =>
    match s.claimAt c x with
    | .absent => []
    | .alreadyRequested _ => []
    | .release y => [.releaseRequested call y]
    | .drop y => [.removedArea call y, .releaseRequested call y]
  | .cxlReleaseDynamicCapacity c call xs ok, _ => [.cxlReleaseDynamicCapacity c call xs ok]
  | .releaseTimedOut c xs, _ => [.releaseTimedOut c xs]
  | .removeAreas c call xs, s =>
    (xs.filterMap fun x => (s.allocatedAreas c).get? (s.offsetOf x)).map (Output.removedArea call)
  | .cxlAddDynamicCapacity c xs ok, _ => [.cxlAddDynamicCapacity c xs ok]
  | .ephMemResponse c x, _ => [.ephMemResponse c x]
  | .signalAddDc c extents about, s =>
    [.addAcknowledged c (Orchestrator.signalAddDc s.offsetOf (s.allocatedAreas c) extents).1 about]
  | .releaseGaps c extents ok, _ => [.releaseGaps c extents ok]
  | .signalReleaseDc c _ about, _ => [.releaseConfirmed c about]
  | .beginSnapshot v _, _ => [.donorSnapshot v]
  | .removalFinished v, _ => [.removalFinished v]
  | _, _ => []

/-- The log grows by what the operation records. -/
theorem log_exec (op : Op) (s : Shared) : (op.exec s).log = op.outputs s ++ s.log := by
  cases op with
  | handleReservedAlloc d ids requested granted =>
    simp only [Op.exec, Op.outputs]
    cases s.region? d <;> rfl
  | commitState x =>
    simp only [Op.exec, Op.outputs]
    cases (s.alloc x).commitState <;> rfl
  | bookkeep d x =>
    simp only [Op.exec, Op.outputs]
    cases s.region? d with
    | none => rfl
    | some r =>
      simp only
      split <;> rfl
  | tryClaim d x =>
    simp only [Op.exec, Op.outputs]
    split <;> rfl
  | claimRelease c x call taken =>
    simp only [Op.exec, Op.outputs]
    cases s.claimAt c x <;> rfl
  | _ => rfl

/-- Which operation writes which entry of the log, and when. -/
inductive Emits (s : Shared) : Op → Output → Prop
  | panicked {p : Panic} : Emits s (.panic p) (.panicked p)
  | donated {d : DonorAllocation} {size : Nat} {granted : Option Nat} :
      Emits s (.ephMemDonateCapacity d size granted) (.ephMemDonateCapacity d size granted)
  | confirmed {d : DonorAllocation} {ids : List AllocId} {requested granted : Nat}
      {r : DonatableRegion} : s.region? d = some r →
      Emits s (.handleReservedAlloc d ids requested granted)
        (.confirmed d (ids.take (r.finalSize requested granted / granularity))
          (r.toRevoke requested granted))
  | returned {d : DonorAllocation} {size : Nat} {covers : List AllocId} {ok : Bool} :
      Emits s (.ephMemReturnCapacity d size covers ok) (.ephMemReturnCapacity d size covers ok)
  | committedTwice {x : AllocId} : (s.alloc x).commitState = none →
      Emits s (.commitState x) (.panicked .committedTwice)
  | committed {x : AllocId} {live : Bool} {a : EphAllocation} :
      (s.alloc x).commitState = some (live, a) → Emits s (.commitState x) (.committed x live)
  | tooMuch {d : DonorAllocation} {x : AllocId} {r : DonatableRegion} :
      s.region? d = some r → r.tooMuch x = true → Emits s (.bookkeep d x) (.returningTooMuch d)
  | revokeAsked {d : DonorAllocation} {size : Nat} {tid : Tid} :
      Emits s (.beginRevoke d size tid) (.revokeAsked d size)
  | claimed {d : DonorAllocation} {x : AllocId} : (s.alloc x).tryClaimForRevoke.1 = true →
      Emits s (.tryClaim d x) (.claimed d x)
  | abandoned {x : AllocId} :
      Emits s (.abandon x) (.abandoned x (s.alloc x).abandonOrTakeDonor.1)
  | releaseRequested {c : VmId} {x y : AllocId} {call : List AllocId} {taken : Bool} :
      s.claimAt c x = .release y →
      Emits s (.claimRelease c x call taken) (.releaseRequested call y)
  | dropRequested {c : VmId} {x y : AllocId} {call : List AllocId} {taken : Bool} :
      s.claimAt c x = .drop y →
      Emits s (.claimRelease c x call taken) (.releaseRequested call y)
  | dropped {c : VmId} {x y : AllocId} {call : List AllocId} {taken : Bool} :
      s.claimAt c x = .drop y → Emits s (.claimRelease c x call taken) (.removedArea call y)
  | released {c : VmId} {call xs : List AllocId} {ok : Bool} :
      Emits s (.cxlReleaseDynamicCapacity c call xs ok) (.cxlReleaseDynamicCapacity c call xs ok)
  | timedOut {c : VmId} {xs : List AllocId} :
      Emits s (.releaseTimedOut c xs) (.releaseTimedOut c xs)
  | removed {c : VmId} {call xs : List AllocId} {x y : AllocId} : x ∈ xs →
      (s.allocatedAreas c).get? (s.offsetOf x) = some y →
      Emits s (.removeAreas c call xs) (.removedArea call y)
  | added {c : VmId} {xs : List AllocId} {ok : Bool} :
      Emits s (.cxlAddDynamicCapacity c xs ok) (.cxlAddDynamicCapacity c xs ok)
  | response {c : VmId} {x : AllocId} : Emits s (.ephMemResponse c x) (.ephMemResponse c x)
  | acknowledged {c : VmId} {extents : List Extent} {about : List AllocId} :
      Emits s (.signalAddDc c extents about) (.addAcknowledged c
        (Orchestrator.signalAddDc s.offsetOf (s.allocatedAreas c) extents).1 about)
  | gaps {c : VmId} {extents : List Extent} {ok : Bool} :
      Emits s (.releaseGaps c extents ok) (.releaseGaps c extents ok)
  | releaseConfirmed {c : VmId} {extents : List Extent} {about : List AllocId} :
      Emits s (.signalReleaseDc c extents about) (.releaseConfirmed c about)
  | snapshot {v : VmId} {tid : Tid} : Emits s (.beginSnapshot v tid) (.donorSnapshot v)
  | finished {v : VmId} : Emits s (.removalFinished v) (.removalFinished v)

/-- Every entry an operation writes is one of those it can write. -/
theorem emits_of_mem {op : Op} {s : Shared} {o : Output} (h : o ∈ op.outputs s) :
    Emits s op o := by
  cases op with
  | handleReservedAlloc d ids requested granted =>
    simp only [Op.outputs] at h
    split at h
    · cases h
    · rw [List.mem_singleton.mp h]
      exact .confirmed ‹_›
  | commitState x =>
    simp only [Op.outputs] at h
    split at h <;> rw [List.mem_singleton.mp h]
    · exact .committedTwice ‹_›
    · exact .committed ‹_›
  | bookkeep d x =>
    simp only [Op.outputs] at h
    split at h
    · cases h
    · split at h
      · rw [List.mem_singleton.mp h]
        exact .tooMuch ‹_› ‹_›
      · cases h
  | tryClaim d x =>
    simp only [Op.outputs] at h
    split at h
    · rw [List.mem_singleton.mp h]
      exact .claimed ‹_›
    · cases h
  | claimRelease c x call taken =>
    simp only [Op.outputs] at h
    split at h
    · cases h
    · cases h
    · rw [List.mem_singleton.mp h]
      exact .releaseRequested ‹_›
    · rcases List.mem_cons.mp h with rfl | h
      · exact .dropped ‹_›
      · rw [List.mem_singleton.mp h]
        exact .dropRequested ‹_›
  | removeAreas c call xs =>
    simp only [Op.outputs, List.mem_map, List.mem_filterMap] at h
    obtain ⟨y, ⟨x, hx, hy⟩, rfl⟩ := h
    exact .removed hx hy
  | panic p => rw [List.mem_singleton.mp h]; exact .panicked
  | ephMemDonateCapacity d size granted => rw [List.mem_singleton.mp h]; exact .donated
  | ephMemReturnCapacity d size covers ok => rw [List.mem_singleton.mp h]; exact .returned
  | beginRevoke d size tid => rw [List.mem_singleton.mp h]; exact .revokeAsked
  | abandon x => rw [List.mem_singleton.mp h]; exact .abandoned
  | cxlReleaseDynamicCapacity c call xs ok => rw [List.mem_singleton.mp h]; exact .released
  | releaseTimedOut c xs => rw [List.mem_singleton.mp h]; exact .timedOut
  | cxlAddDynamicCapacity c xs ok => rw [List.mem_singleton.mp h]; exact .added
  | ephMemResponse c x => rw [List.mem_singleton.mp h]; exact .response
  | signalAddDc c extents about => rw [List.mem_singleton.mp h]; exact .acknowledged
  | releaseGaps c extents ok => rw [List.mem_singleton.mp h]; exact .gaps
  | signalReleaseDc c extents about => rw [List.mem_singleton.mp h]; exact .releaseConfirmed
  | beginSnapshot v tid => rw [List.mem_singleton.mp h]; exact .snapshot
  | removalFinished v => rw [List.mem_singleton.mp h]; exact .finished
  | _ => cases h

/-- An entry of the log is an old one or was written by the operation. -/
theorem mem_log_exec {op : Op} {s : Shared} {o : Output} (h : o ∈ (op.exec s).log) :
    Emits s op o ∨ o ∈ s.log := by
  rw [log_exec, List.mem_append] at h
  exact h.imp_left emits_of_mem

-- ---------------------------------------------------------------------------
-- Areas are filed under their own offset
-- ---------------------------------------------------------------------------

/-- Every area of a consumer is an allocation of that consumer, filed under
its own offset, aligned and inside the device. -/
def AreasOk (s : Shared) : Prop :=
  ∀ c o x, (s.allocatedAreas c).get? o = some x →
    x < s.nextId ∧ (s.alloc x).consumerVm = c ∧ s.offsetOf x = o ∧ granularity ∣ o ∧
      o + granularity ≤ (s.vm c).consumerSize.getD 0

/-- A consumer's areas are granules of its device. -/
theorem AreasOk.aligned {s : Shared} (h : AreasOk s) (c : VmId) :
    AreasAligned ((s.vm c).consumerSize.getD 0) (s.allocatedAreas c).keys := by
  intro o ho
  obtain ⟨x, hx⟩ := OrdMap.mem_keys_iff.mp ho
  exact (h c o x hx).2.2.2

/-- The offsets a reservation takes are free. -/
theorem AreasOk.newOffsets_free {s : Shared} (h : AreasOk s) {c : VmId} {size o : Nat}
    (ho : o ∈ s.newOffsets c size) : (s.allocatedAreas c).get? o = none :=
  (reserveOffsets_free (h.aligned c) ho).2.2

/-- What lies in a consumer's areas is an entry for itself. -/
theorem AreasOk.entry_of_get? {s : Shared} (h : AreasOk s) {c : VmId} {o : Nat} {x : AllocId}
    (hx : (s.allocatedAreas c).get? o = some x) : s.entry x := by
  obtain ⟨-, hc, ho, -⟩ := h c o x hx
  rw [Shared.entry, hc, ho]
  exact hx

/-- An operation that adds no area keeps the areas filed. -/
theorem AreasOk.of_evolves {s s' : Shared} (h : AreasOk s) (hEv : Evolves s s')
    (hAreas : ∀ c o y, (s'.allocatedAreas c).get? o = some y →
      (s.allocatedAreas c).get? o = some y) : AreasOk s' := by
  intro c o x hx
  obtain ⟨hLt, hc, ho, hAl, hIn⟩ := h c o x (hAreas c o x hx)
  have hA := hEv.alloc x hLt
  refine ⟨lt_of_lt_of_le hLt hEv.nextId, hA.consumer.trans hc, ?_, hAl, ?_⟩
  · rw [Shared.offsetOf, hA.offset]; exact ho
  · rw [hEv.vm]; exact hIn

/-- A reservation puts its allocations into gaps. -/
theorem areasOk_reserve {s : Shared} (h : AreasOk s) (c : VmId) (size : Nat) :
    AreasOk (s.reserveMemoryContig c size) := by
  intro c' o x hx
  have hEv := evolves_reserve s c size
  rcases Shared.get?_reserve hx with ⟨rfl, hNew⟩ | hOld
  · obtain ⟨hLo, hHi, hAt, hMem⟩ := Shared.mem_zip_new hNew
    have hFree := reserveOffsets_free (h.aligned c') hMem
    refine ⟨hHi, ?_, ?_, hFree.1, hFree.2.1⟩
    · rw [Shared.reserve_alloc_of_new ⟨hLo, hHi⟩]; rfl
    · rw [Shared.offsetOf, Shared.reserve_alloc_of_new ⟨hLo, hHi⟩]; exact hAt
  · obtain ⟨hLt, hc, ho, hAl, hIn⟩ := h c' o x hOld
    refine ⟨lt_of_lt_of_le hLt hEv.nextId, ?_, ?_, hAl, hIn⟩
    · rw [Shared.reserve_alloc_of_lt hLt]; exact hc
    · rw [Shared.offsetOf, Shared.reserve_alloc_of_lt hLt]; exact ho

/-- Only a reservation adds areas. -/
theorem get?_exec_areas {op : Op} {s : Shared} (hOp : ∀ c size, op ≠ .reserveMemoryContig c size)
    {c : VmId} {o : Nat} {y : AllocId} (h : ((op.exec s).allocatedAreas c).get? o = some y) :
    (s.allocatedAreas c).get? o = some y := by
  cases op with
  | reserveMemoryContig c size => exact absurd rfl (hOp c size)
  | handleReservedAlloc d ids requested granted =>
    simp only [Op.exec] at h
    split at h <;> exact h
  | bookkeep d x =>
    simp only [Op.exec] at h
    split at h
    · exact h
    · split at h <;> exact h
  | commitState x =>
    simp only [Op.exec] at h
    split at h <;> exact h
  | tryClaim d x =>
    simp only [Op.exec] at h
    split at h <;> exact h
  | claimRelease c' x call taken =>
    simp only [Op.exec] at h
    split at h
    · exact h
    · exact h
    · exact h
    · simp only [Shared.emit, Shared.setAreas, Shared.setAlloc] at h
      by_cases hc : c = c'
      · subst hc
        rw [Function.update_self, OrdMap.get?_erase] at h
        split at h
        · cases h
        · exact h
      · rw [Function.update_of_ne hc] at h
        exact h
  | removeAreas c' call xs =>
    simp only [Op.exec, Shared.setAreas] at h
    by_cases hc : c = c'
    · subst hc
      rw [Function.update_self, OrdMap.get?_eraseAll] at h
      split at h
      · cases h
      · exact h
    · rw [Function.update_of_ne hc] at h
      exact h
  | signalReleaseDc c' extents about =>
    simp only [Op.exec, Shared.setAreas, Shared.emit] at h
    by_cases hc : c = c'
    · subst hc
      rw [Function.update_self] at h
      exact signalReleaseDc_get? h
    · rw [Function.update_of_ne hc] at h
      exact h
  | _ => exact h

/-- Every operation keeps the areas in order. -/
theorem areasOk_exec {s : Shared} (h : AreasOk s) (op : Op) : AreasOk (op.exec s) := by
  by_cases hOp : ∃ c size, op = .reserveMemoryContig c size
  · obtain ⟨c, size, rfl⟩ := hOp
    exact areasOk_reserve h c size
  · refine h.of_evolves (evolves_exec op s) fun c o y hy => get?_exec_areas ?_ hy
    intro c size heq
    exact hOp ⟨c, size, heq⟩

/-- The areas are in order along every run. -/
theorem areasOk_steps {allow : System → Op → Prop} {vm : VmId → Vm} {donor : VmId → DonorState}
    {s : System} (h : orchestrator.Steps allow (initSystem vm donor) s) : AreasOk s.shared := by
  refine h.invariant (I := fun s => AreasOk s.shared) (fun c op d hc hm _ => ?_) ?_
  · rw [hm.shared_eq]
    exact areasOk_exec hc op
  · intro c o x hx
    cases hx

end EphMemory.Orchestrator
