import EphMemory.Orchestrator.Selecting

/-!
# Orchestrator — the events' machine integers

The handlers of the events once more, with the `u64` additions they make:
`none` is an addition that overflows, or a `BTreeMap::range` whose start lies
after its end. Either happens while the mutex of the consumer, or of the
donor, is held. The offsets in the map and the devices' sizes are the
orchestrator's own; the extents and the size of a revoke come from outside.

* `findCoveredAllocations64`, `signalAddDc64`, `signalReleaseDc64` — they
  succeed, with the results of `Sections.lean`, exactly on extents that end
  below `2 ^ 64`;
* `Fits` — the steps whose event, or whose revoke, stays below it;
* `events_never_overflow` — in every run of such steps no handler overflows.
-/

namespace EphMemory.Orchestrator

open EphMemory.Lib

-- ---------------------------------------------------------------------------
-- The handlers
-- ---------------------------------------------------------------------------

/-- `a + b` on `u64`. -/
def add64 (a b : Nat) : Option Nat := if a + b < 2 ^ 64 then some (a + b) else none

/-- `allocated_areas.range((Included(start), Excluded(end)))`. -/
def range64 (areas : OrdMap Nat AllocId) (start stop : Nat) : Option (List (Nat × AllocId)) :=
  if start ≤ stop then some (areas.entries.filter fun e => decide (start ≤ e.1 ∧ e.1 < stop))
  else none

/-- The loop of `find_covered_allocations`; `allocSize` is `alloc.size()`. -/
def coveredIn64 (allocSize offset size : Nat) : List (Nat × AllocId) → Option (List AllocId)
  | [] => some []
  | (allocOffset, x) :: rest =>
    if offset ≤ allocOffset then
      match add64 offset size, add64 allocOffset allocSize with
      | some stop, some allocStop =>
        (coveredIn64 allocSize offset size rest).map fun covered =>
          if stop ≥ allocStop then x :: covered else covered
      | _, _ => none
    else coveredIn64 allocSize offset size rest

def findCoveredAllocations64 (areas : OrdMap Nat AllocId) (offset size : Nat) :
    Option (List AllocId) :=
  match add64 offset size with
  | none => none
  | some stop =>
    match range64 areas offset stop with
    | none => none
    | some inRange => coveredIn64 granularity offset size inRange

/-- The inner loop of `signal_add_dc` and the check behind it. -/
def gapsFrom64 (allocSize : Nat) (offsetOf : AllocId → Nat) (offset len : Nat) :
    Nat → List AllocId → Option (List Extent)
  | gapCursor, [] =>
    match add64 offset len with
    | none => none
    | some stop => some (if gapCursor < stop then [⟨gapCursor, stop - gapCursor⟩] else [])
  | gapCursor, x :: rest =>
    match add64 (offsetOf x) allocSize with
    | none => none
    | some next =>
      (gapsFrom64 allocSize offsetOf offset len next rest).map fun gaps =>
        (if gapCursor < offsetOf x then [⟨gapCursor, offsetOf x - gapCursor⟩] else []) ++ gaps

def signalAddDc64 (offsetOf : AllocId → Nat) (areas : OrdMap Nat AllocId) :
    List Extent → Option (List AllocId × List Extent)
  | [] => some ([], [])
  | e :: rest =>
    match findCoveredAllocations64 areas e.offset e.len with
    | none => none
    | some covered =>
      match gapsFrom64 granularity offsetOf e.offset e.len e.offset covered with
      | none => none
      | some gaps =>
        (signalAddDc64 offsetOf areas rest).map fun tail => (covered ++ tail.1, gaps ++ tail.2)

def signalReleaseDc64 (offsetOf : AllocId → Nat) (areas : OrdMap Nat AllocId) :
    List Extent → Option (OrdMap Nat AllocId × List AllocId)
  | [] => some (areas, [])
  | e :: rest =>
    match findCoveredAllocations64 areas e.offset e.len with
    | none => none
    | some covered =>
      (signalReleaseDc64 offsetOf (areas.eraseAll (covered.map offsetOf)) rest).map fun tail =>
        (tail.1, covered ++ tail.2)

/-- `region.revoked_owed += remaining_revoke_size`. -/
def bookDebt64 (r : DonatableRegion) (remaining : Nat) : Option DonatableRegion :=
  (add64 r.revokedOwed remaining).map fun owed => { r with revokedOwed := owed }

-- ---------------------------------------------------------------------------
-- When they succeed
-- ---------------------------------------------------------------------------

/-- The extent ends below `2 ^ 64`. -/
def Extent.Fits (e : Extent) : Prop := e.offset + e.len < 2 ^ 64

instance (e : Extent) : Decidable e.Fits := inferInstanceAs (Decidable (_ < _))

/-- Every area of the map is filed under its own offset and ends below
`2 ^ 64`. -/
def Areas64 (offsetOf : AllocId → Nat) (areas : OrdMap Nat AllocId) : Prop :=
  ∀ o x, areas.get? o = some x → offsetOf x = o ∧ o + granularity < 2 ^ 64

theorem add64_of_lt {a b : Nat} (h : a + b < 2 ^ 64) : add64 a b = some (a + b) := if_pos h

/-- The sum is out of range, and the addition of a debug build panics. -/
theorem add64_eq_none {a b : Nat} : add64 a b = none ↔ ¬ a + b < 2 ^ 64 := by
  unfold add64
  split <;> simp_all

/-- With every end in range, the search in 64 bits finds what the search finds. -/
theorem coveredIn64_eq {offset size : Nat} (hFits : offset + size < 2 ^ 64)
    {l : List (Nat × AllocId)} (hl : ∀ e ∈ l, e.1 + granularity < 2 ^ 64) :
    coveredIn64 granularity offset size l = some ((l.filter fun e =>
      decide (offset ≤ e.1 ∧ offset + size ≥ e.1 + granularity)).map Prod.snd) := by
  induction l with
  | nil => rfl
  | cons e rest ih =>
    obtain ⟨o, x⟩ := e
    have ih := ih fun e he => hl e (List.mem_cons_of_mem _ he)
    have ho : o + granularity < 2 ^ 64 := hl _ (List.mem_cons_self ..)
    rw [coveredIn64, add64_of_lt hFits, add64_of_lt ho, ih]
    by_cases hLe : offset ≤ o
    · by_cases hEnd : offset + size ≥ o + granularity
      · simp [hLe, hEnd]
      · simp [hLe, hEnd]
    · simp [hLe]

/-- The search in a consumer's areas finds the same in 64 bits, since they end
below the device's size. -/
theorem findCoveredAllocations64_eq {offsetOf : AllocId → Nat} {areas : OrdMap Nat AllocId}
    (hAreas : Areas64 offsetOf areas) {offset size : Nat} (hFits : offset + size < 2 ^ 64) :
    findCoveredAllocations64 areas offset size =
      some (findCoveredAllocations areas offset size) := by
  have hIn : ∀ e ∈ areas.entries.filter (fun e => decide (offset ≤ e.1 ∧ e.1 < offset + size)),
      e.1 + granularity < 2 ^ 64 := fun e he =>
    (hAreas e.1 e.2 (OrdMap.mem_entries_iff.mp (List.mem_filter.mp he).1)).2
  unfold findCoveredAllocations64 range64 findCoveredAllocations
  rw [add64_of_lt hFits]
  simp only [Nat.le_add_right, if_true]
  rw [coveredIn64_eq hFits hIn, List.filter_filter]
  congr 2
  refine List.filter_congr fun e _ => ?_
  rw [Bool.and_comm]

/-- What it finds ends in range. -/
theorem findCovered_offset {offsetOf : AllocId → Nat} {areas : OrdMap Nat AllocId}
    (hAreas : Areas64 offsetOf areas) {offset size : Nat} {x : AllocId}
    (hx : x ∈ findCoveredAllocations areas offset size) : offsetOf x + granularity < 2 ^ 64 := by
  obtain ⟨⟨o, y⟩, hMem, rfl⟩ := List.mem_map.mp hx
  obtain ⟨hOff, hLt⟩ := hAreas o y (OrdMap.mem_entries_iff.mp (List.mem_filter.mp hMem).1)
  rw [hOff]
  exact hLt

/-- The gaps between what is found are then the same. -/
theorem gapsFrom64_eq {offsetOf : AllocId → Nat} {offset len : Nat}
    (hFits : offset + len < 2 ^ 64) {covered : List AllocId}
    (hCovered : ∀ x ∈ covered, offsetOf x + granularity < 2 ^ 64) (gapCursor : Nat) :
    gapsFrom64 granularity offsetOf offset len gapCursor covered =
      some (gapsFrom offsetOf (offset + len) gapCursor covered) := by
  induction covered generalizing gapCursor with
  | nil => rw [gapsFrom64, add64_of_lt hFits, gapsFrom]
  | cons x rest ih =>
    have hAdd := add64_of_lt (hCovered x (List.mem_cons_self ..))
    have hRest := ih (fun y hy => hCovered y (List.mem_cons_of_mem _ hy))
      (offsetOf x + granularity)
    rw [gapsFrom64, hAdd]
    simp only
    rw [hRest]
    rfl

/-- `signal_add_dc` on extents that fit. -/
theorem signalAddDc64_eq {offsetOf : AllocId → Nat} {areas : OrdMap Nat AllocId}
    (hAreas : Areas64 offsetOf areas) {extents : List Extent} (hFits : ∀ e ∈ extents, e.Fits) :
    signalAddDc64 offsetOf areas extents = some (signalAddDc offsetOf areas extents) := by
  induction extents with
  | nil => rfl
  | cons e rest ih =>
    have he : e.Fits := hFits e (List.mem_cons_self ..)
    rw [signalAddDc64, findCoveredAllocations64_eq hAreas he]
    simp only
    rw [gapsFrom64_eq he (fun x hx => findCovered_offset hAreas hx),
      ih fun e' he' => hFits e' (List.mem_cons_of_mem _ he')]
    rfl

/-- Fewer areas end no later. -/
theorem Areas64.eraseAll {offsetOf : AllocId → Nat} {areas : OrdMap Nat AllocId}
    (h : Areas64 offsetOf areas) (os : List Nat) : Areas64 offsetOf (areas.eraseAll os) := by
  intro o x hx
  rw [OrdMap.get?_eraseAll] at hx
  split at hx
  · cases hx
  · exact h o x hx

/-- `signal_release_dc` on extents that fit. -/
theorem signalReleaseDc64_eq {offsetOf : AllocId → Nat} {areas : OrdMap Nat AllocId}
    (hAreas : Areas64 offsetOf areas) {extents : List Extent} (hFits : ∀ e ∈ extents, e.Fits) :
    signalReleaseDc64 offsetOf areas extents = some (signalReleaseDc offsetOf areas extents) := by
  induction extents generalizing areas with
  | nil => rfl
  | cons e rest ih =>
    have he : e.Fits := hFits e (List.mem_cons_self ..)
    rw [signalReleaseDc64, findCoveredAllocations64_eq hAreas he]
    simp only
    rw [ih (hAreas.eraseAll _) fun e' he' => hFits e' (List.mem_cons_of_mem _ he')]
    rfl

/-- An extent that does not fit makes the lookup overflow, whatever is in the
map. -/
theorem findCoveredAllocations64_none {areas : OrdMap Nat AllocId} {e : Extent} (h : ¬ e.Fits) :
    findCoveredAllocations64 areas e.offset e.len = none := by
  unfold findCoveredAllocations64
  rw [add64_eq_none.mpr h]

/-- The addition that wraps instead asks for a range that starts after its
end. -/
theorem range64_wrapped {areas : OrdMap Nat AllocId} {e : Extent} (h : ¬ e.Fits)
    (hOffset : e.offset < 2 ^ 64) (hLen : e.len < 2 ^ 64) :
    range64 areas e.offset ((e.offset + e.len) % 2 ^ 64) = none := by
  have hLe : 2 ^ 64 ≤ e.offset + e.len := Nat.le_of_not_lt h
  have hMod : (e.offset + e.len) % 2 ^ 64 = e.offset + e.len - 2 ^ 64 := by
    rw [Nat.mod_eq_sub_mod hLe, Nat.mod_eq_of_lt (by omega)]
  unfold range64
  rw [hMod, if_neg (by omega)]

/-- An extent that does not fit overflows before its allocations are looked up. -/
theorem signalAddDc64_isSome {offsetOf : AllocId → Nat} {areas : OrdMap Nat AllocId}
    (hAreas : Areas64 offsetOf areas) (extents : List Extent) :
    (signalAddDc64 offsetOf areas extents).isSome = true ↔ ∀ e ∈ extents, e.Fits := by
  refine ⟨fun h => ?_, fun h => by rw [signalAddDc64_eq hAreas h]; rfl⟩
  induction extents with
  | nil => nofun
  | cons e rest ih =>
    rw [signalAddDc64] at h
    by_cases he : e.Fits
    · rw [findCoveredAllocations64_eq hAreas he] at h
      simp only at h
      rw [gapsFrom64_eq he (fun x hx => findCovered_offset hAreas hx)] at h
      simp only [Option.isSome_map] at h
      exact List.forall_mem_cons.mpr ⟨he, ih h⟩
    · rw [findCoveredAllocations64_none he] at h
      cases h

/-- When areas are released the extents that follow are still looked up. -/
theorem signalReleaseDc64_isSome {offsetOf : AllocId → Nat} {areas : OrdMap Nat AllocId}
    (hAreas : Areas64 offsetOf areas) (extents : List Extent) :
    (signalReleaseDc64 offsetOf areas extents).isSome = true ↔ ∀ e ∈ extents, e.Fits := by
  refine ⟨fun h => ?_, fun h => by rw [signalReleaseDc64_eq hAreas h]; rfl⟩
  induction extents generalizing areas with
  | nil => nofun
  | cons e rest ih =>
    rw [signalReleaseDc64] at h
    by_cases he : e.Fits
    · rw [findCoveredAllocations64_eq hAreas he] at h
      simp only [Option.isSome_map] at h
      exact List.forall_mem_cons.mpr ⟨he, ih (hAreas.eraseAll _) h⟩
    · rw [findCoveredAllocations64_none he] at h
      cases h

-- ---------------------------------------------------------------------------
-- Every run
-- ---------------------------------------------------------------------------

/-- The extents an event carries. -/
def EventData.extents : EventData → List Extent
  | .cxlAddDynamicCapacityResponse extents _ => extents
  | .cxlReleaseDynamicCapacity extents _ => extents
  | .ephMemRevoke _ _ => []

/-- When a step stays below `2 ^ 64`. The extents of an event that finds its
consumer end below it; a revoke begins on a region whose debt, with what its
Committed allocations cannot cover of the size, is below it, and so it stays
when a return takes one of them from under the revoke. -/
def Fits (s : System) : Op → Prop
  | .nextEvent =>
    ∀ e ∈ s.shared.events.head?, (s.shared.getConsumer e.vmPath).isSome = true →
      ∀ ext ∈ e.data.extents, ext.Fits
  | .beginRevoke d size _ =>
    ∀ r ∈ s.shared.region? d,
      r.revokedOwed + lack s.shared r.allocations.values size ≤ 2 ^ 64 - 1
  | .abandon x => ∀ t ∈ s.tasks, t.DebtWithout s.shared x fun _ => 2 ^ 64 - 1
  | _ => True

instance (s : System) (op : Op) : Decidable (Fits s op) := by
  induction op using Op.casesOn <;> dsimp only [Fits] <;> infer_instance

/-- The extents the handler is working on fit. -/
def Task.ExtentsFit : Task → Prop
  | .events (.signalAdd _ extents _) => ∀ e ∈ extents, e.Fits
  | .events (.signalRelease _ extents _) => ∀ e ∈ extents, e.Fits
  | _ => True

/-- A handler takes only extents that fit from the channel. -/
theorem Task.Step.extentsFit {tid : Tid} {s : System} {t t' : Task} {op : Op}
    {started : List Task} (h : Task.Step tid s.shared t op t' started) (hOp : Fits s op) :
    t'.ExtentsFit ∧ ∀ u ∈ started, u.ExtentsFit := by
  cases h with
  | events hl =>
    refine ⟨?_, fun u hu => ?_⟩
    · cases hl with
      | addEvent hEvents hc => exact hOp _ (by rw [hEvents]; rfl) (by rw [hc]; rfl)
      | releaseEvent hEvents hc => exact hOp _ (by rw [hEvents]; rfl) (by rw [hc]; rfl)
      | signalAdd _ hNext => rcases hNext with rfl | ⟨gaps, rfl⟩ <;> trivial
      | _ => trivial
    · obtain ⟨v, -, rfl⟩ := List.mem_map.mp hu
      trivial
  | _ => exact ⟨trivial, nofun⟩

structure FitsInv (s : System) : Prop where
  revoke : RevokeInv s
  extents : ∀ (i : Nat) (t : Task), s.tasks[i]? = some t → t.ExtentsFit
  debt : ∀ (i : Nat) (t : Task), s.tasks[i]? = some t →
    t.DebtWithin s.shared fun _ => 2 ^ 64 - 1

/-- What is queued and what the handlers hold fits on. -/
theorem FitsInv.move {s s' : System} {op : Op} (h : FitsInv s) (hm : orchestrator.Move s op s')
    (hOp : Fits s op) : FitsInv s' where
  revoke := h.revoke.move hm
  extents := by
    refine forall_tasks (J := fun _ _ t => t.ExtentsFit) hm h.extents
      (fun i t t' started _ hs => ?_) (fun started hs j u hu => ?_) (fun _ _ _ hu => hu)
    · have hStep := hs.extentsFit hOp
      exact ⟨hStep.1, fun _ => hStep.2⟩
    · cases hs with
      | request => rw [List.mem_singleton.mp hu]; trivial
      | _ => cases hu
  debt := by
    refine h.revoke.debtWithin_move hm h.debt ?_ ?_ (fun _ _ _ _ _ _ => Nat.le_refl _)
    · rintro d size tid rfl
      exact hOp
    · rintro x rfl
      exact hOp

theorem fitsInv_init {vm : VmId → Vm} {donor : VmId → DonorState} (hFresh : FreshDonors donor) :
    FitsInv (initSystem vm donor) where
  revoke := revokeInv_init hFresh
  extents := by
    intro i t ht
    have hMem := List.mem_of_getElem? ht
    simp only [initSystem, List.mem_cons, List.not_mem_nil, or_false] at hMem
    rcases hMem with rfl | rfl <;> trivial
  debt := by
    intro i t ht
    have hMem := List.mem_of_getElem? ht
    simp only [initSystem, List.mem_cons, List.not_mem_nil, or_false] at hMem
    rcases hMem with rfl | rfl <;> trivial

/-- The size of a DCD is a `u64`. -/
def Devices64 (s : Shared) : Prop := ∀ c, (s.vm c).consumerSize.getD 0 < 2 ^ 64

/-- The areas of a consumer end within its device. -/
theorem areas64_of_areasOk {s : Shared} (h : AreasOk s) (hDevices : Devices64 s) (c : VmId) :
    Areas64 s.offsetOf (s.allocatedAreas c) := by
  intro o x hx
  obtain ⟨-, -, hOff, -, hIn⟩ := h c o x hx
  exact ⟨hOff, lt_of_le_of_lt hIn (hDevices c)⟩

/-- The next step of an event's handler does not overflow. -/
def Task.NoOverflow (s : Shared) : Task → Prop
  | .events (.signalAdd c extents _) =>
    (signalAddDc64 s.offsetOf (s.allocatedAreas c) extents).isSome = true
  | .events (.signalRelease c extents _) =>
    (signalReleaseDc64 s.offsetOf (s.allocatedAreas c) extents).isSome = true
  | .revoke ⟨d, .select todo _ remaining⟩ =>
    todo = [] ∨ remaining = 0 →
      ∀ r ∈ s.region? d, (bookDebt64 r remaining).isSome = true
  | _ => True

/-- A handler that has only extents that fit overflows nowhere. -/
theorem FitsInv.noOverflow {s : System} (h : FitsInv s) (hDevices : Devices64 s.shared) {i : Nat}
    {t : Task} (ht : s.tasks[i]? = some t) : t.NoOverflow s.shared := by
  have hAreas := areas64_of_areasOk h.revoke.core.areas hDevices
  match t, ht with
  | .events (.signalAdd c extents about), ht =>
    exact (signalAddDc64_isSome (hAreas c) extents).mpr (h.extents i _ ht)
  | .events (.signalRelease c extents about), ht =>
    exact (signalReleaseDc64_isSome (hAreas c) extents).mpr (h.extents i _ ht)
  | .revoke ⟨d, .select todo claimed remaining⟩, ht =>
    intro hLast r hr
    have hDebt : r.revokedOwed + lack s.shared todo remaining ≤ 2 ^ 64 - 1 := h.debt i _ ht r hr
    have hLe : remaining ≤ lack s.shared todo remaining := by
      rcases hLast with rfl | rfl
      · exact Nat.le_refl _
      · exact Nat.zero_le _
    unfold bookDebt64
    rw [Option.isSome_map, add64_of_lt (by omega)]
    rfl
  | .events .idle, _ => trivial
  | .events (.releaseGaps _ _), _ => trivial
  | .revoke ⟨d, .start size⟩, _ => trivial
  | .revoke ⟨d, .giveBack call⟩, _ => trivial
  | .revoke ⟨d, .done⟩, _ => trivial
  | .detection _, _ => trivial
  | .request _, _ => trivial

/-- **Event robustness.** In every reachable state, handling the extents of an
event overflows nothing, and asks for no range that ends before it starts,
exactly when every extent ends below `2 ^ 64`; and in every run of steps that
fit, no handler of an event overflows in any state reached. -/
theorem events_never_overflow {s : System} (h : Reachable s) (hDevices : Devices64 s.shared) :
    (∀ c extents,
      ((signalAddDc64 s.shared.offsetOf (s.shared.allocatedAreas c) extents).isSome = true ↔
        ∀ e ∈ extents, e.Fits) ∧
      ((signalReleaseDc64 s.shared.offsetOf (s.shared.allocatedAreas c) extents).isSome = true ↔
        ∀ e ∈ extents, e.Fits)) ∧
    (ReachableBy Fits s → ∀ t ∈ s.tasks, t.NoOverflow s.shared) := by
  refine ⟨fun c extents => ?_, fun h t ht => ?_⟩
  · obtain ⟨vm, donor, hFresh, hRun⟩ := h
    have hAreas := areas64_of_areasOk (coreInv_steps hFresh hRun).areas hDevices c
    exact ⟨signalAddDc64_isSome hAreas extents, signalReleaseDc64_isSome hAreas extents⟩
  · obtain ⟨vm, donor, hFresh, hRun⟩ := h
    have hInv : FitsInv s :=
      hRun.invariant (fun _ _ _ hs hm hOp => hs.move hm hOp) (fitsInv_init hFresh)
    obtain ⟨i, hi⟩ := List.getElem?_of_mem ht
    exact hInv.noOverflow hDevices hi

/-- The devices of the small setting are what they were. -/
theorem demo_devices64 {ls : List (Label Op Choice)}
    (h : (orchestrator.run demo ls).isSome = true) : Devices64 (demoAfter ls).shared := by
  have hVm : (demoAfter ls).shared.vm = demoVm := by
    refine (demo_steps h).invariant (I := fun s => s.shared.vm = demoVm)
      (fun s op s' hs hm _ => ?_) rfl
    rw [hm.shared_eq]
    exact (evolves_exec op s.shared).vm.trans hs
  intro c
  rw [hVm]
  unfold demoVm
  split
  · decide
  · exact Nat.two_pow_pos 64

/-- VM 1 acknowledges the first chunk of its DCD, VM 0 asks for a chunk back;
both events are taken. -/
def demoEvents : List (Label Op Choice) :=
  [.task 1 (.register 0), .task 1 (.register 1), .outside (.emitRevoke 0 7 granularity),
    .outside (.emitAdd 1 [⟨0, granularity⟩] []), .task 0 .go, .task 2 .go, .task 0 .go]

theorem demoEvents_runs : (orchestrator.run demo demoEvents).isSome = true := by decide +kernel

theorem demoEvents_fits : (orchestrator.runIf (fun s op => decide (Fits s op)) demo
    demoEvents).isSome = true := by decide +kernel

theorem events_never_overflow_demo :
    .revoke ⟨⟨0, 7⟩, .select [] [] granularity⟩ ∈ (demoAfter demoEvents).tasks ∧
    .events (.signalAdd 1 [⟨0, granularity⟩] []) ∈ (demoAfter demoEvents).tasks ∧
    (∀ t ∈ (demoAfter demoEvents).tasks, t.NoOverflow (demoAfter demoEvents).shared) ∧
    ((signalAddDc64 (demoAfter demoEvents).shared.offsetOf
      ((demoAfter demoEvents).shared.allocatedAreas 1) [⟨0, granularity⟩]).isSome = true ↔
        ∀ e ∈ [(⟨0, granularity⟩ : Extent)], e.Fits) := by
  have hDevices := demo_devices64 demoEvents_runs
  refine ⟨by decide +kernel, by decide +kernel, ?_, ?_⟩
  · exact (events_never_overflow (demo_reachable demoEvents_runs) hDevices).2
      (demo_reachableBy demoEvents_fits)
  · exact ((events_never_overflow (demo_reachable demoEvents_runs) hDevices).1 1 _).1

/-- VM 1, which has an area, acknowledges an extent of one byte at the end of the
address space. -/
def demoOverflow : List (Label Op Choice) :=
  demoCommit ++ [.outside (.emitAdd 1 [⟨2 ^ 64 - 1, 1⟩] []), .task 0 .go]

theorem demoOverflow_runs : (orchestrator.run demo demoOverflow).isSome = true := by
  decide +kernel

/-- The handler takes an event whose extent ends at `2 ^ 64`: the sum
overflows, and the wrapped one asks the map for a range that ends before it
starts. -/
theorem extent_overflows :
    ∃ s t, Reachable s ∧ Devices64 s.shared ∧ t ∈ s.tasks ∧ ¬ t.NoOverflow s.shared ∧
      (s.shared.allocatedAreas 1).values = [1] ∧
      findCoveredAllocations64 (s.shared.allocatedAreas 1) (2 ^ 64 - 1) 1 = none ∧
      range64 (s.shared.allocatedAreas 1) (2 ^ 64 - 1) ((2 ^ 64 - 1 + 1) % 2 ^ 64) = none := by
  have hNot : ¬ (⟨2 ^ 64 - 1, 1⟩ : Extent).Fits := by decide
  have hNone : findCoveredAllocations64 ((demoAfter demoOverflow).shared.allocatedAreas 1)
      (2 ^ 64 - 1) 1 = none := findCoveredAllocations64_none hNot
  have hDevices := demo_devices64 demoOverflow_runs
  refine ⟨demoAfter demoOverflow, .events (.signalAdd 1 [⟨2 ^ 64 - 1, 1⟩] []),
    demo_reachable demoOverflow_runs, hDevices, by decide +kernel, ?_, by decide +kernel,
    hNone, range64_wrapped hNot (by decide) (by decide)⟩
  intro hSome
  have hAreas := areas64_of_areasOk (areasOk_steps (demo_steps demoOverflow_runs)) hDevices 1
  exact hNot ((signalAddDc64_isSome hAreas _).mp hSome _ (List.mem_cons_self ..))

end EphMemory.Orchestrator
