import EphMemory.Orchestrator.Addressee

/-!
# Orchestrator — whom an acknowledgement is for

`CXL_ADD_DYNAMIC_CAPACITY_RESPONSE` carries offsets. `signal_add_dc` marks the
allocation it finds at each of them, whichever that is by then. A request that
timed out has its offsets freed without a word to the device, so a late
acknowledgement can find the next request's allocation in the place of the one
it is about.

* `listed` — the allocations of a consumer an acknowledgement may still come
  for: those in an add command under way, accepted or acknowledged in an event
  that is not handled yet;
* `Attributable` — no reservation takes the offset of one of them, and no
  acknowledgement is handled for another VM than its own;
* `acknowledgements_attributed` — in every run that keeps to it, an allocation
  is marked by its own acknowledgement only, and what the guest is told about
  has been acknowledged.
-/

namespace EphMemory.Orchestrator

open EphMemory.Lib

-- ---------------------------------------------------------------------------
-- Acknowledgements
-- ---------------------------------------------------------------------------

/-- The chunks an extent covers. -/
def Extent.chunks (e : Extent) : List Nat :=
  ((List.range ((e.offset + e.len) / granularity)).map (· * granularity)).filter
    fun o => decide (e.offset ≤ o)

/-- A granule inside an extent is one of its chunks. -/
theorem Extent.mem_chunks {e : Extent} {o : Nat} (hAl : granularity ∣ o) (hLo : e.offset ≤ o)
    (hHi : o + granularity ≤ e.offset + e.len) : o ∈ e.chunks := by
  obtain ⟨k, rfl⟩ := hAl
  unfold chunks
  rw [List.mem_filter, List.mem_map]
  refine ⟨⟨k, ?_, Nat.mul_comm ..⟩, decide_eq_true hLo⟩
  rw [List.mem_range, Nat.lt_iff_add_one_le, Nat.le_div_iff_mul_le granularity_pos]
  calc (k + 1) * granularity = granularity * k + granularity := by ring
    _ ≤ e.offset + e.len := hHi

/-- The extents cover no chunk but those of `about`. -/
def Covers (s : Shared) (extents : List Extent) (about : List AllocId) : Prop :=
  ∀ e ∈ extents, ∀ o ∈ e.chunks, ∃ x ∈ about, s.offsetOf x = o

/-- QEMU acknowledges what it was asked to add, and no more. -/
def Truthful (s : System) : Op → Prop
  | .emitAdd _ extents about => Covers s.shared extents about
  | _ => True

/-- The allocations an event acknowledges. -/
def QmpEvent.acks (e : QmpEvent) : List AllocId :=
  match e.data with
  | .cxlAddDynamicCapacityResponse _ about => about
  | _ => []

/-- The allocations of `c` the handler is about to acknowledge. -/
def Task.acks (c : VmId) : Task → List AllocId
  | .events (.signalAdd c' _ about) => if c' = c then about else []
  | _ => []

/-- The allocations a request may still put into its add command. -/
def Request.toAdd (q : Request) : List AllocId :=
  match q.pc with
  | .reserve _ rsvd => rsvd
  | .allocate _ rsvd => rsvd
  | .drop _ rsvd => rsvd
  | .retain todo kept => todo ++ kept
  | .add rsvd => rsvd
  | _ => []

def Task.toAdd (c : VmId) : Task → List AllocId
  | .request q => if q.consumer = c then q.toAdd else []
  | _ => []

/-- The allocations of `c` an acknowledgement may still come for. -/
def listed (s : System) (c : VmId) : List AllocId :=
  (s.shared.device c).unacked ++
    (s.shared.events.filter fun e => decide (e.source = c)).flatMap QmpEvent.acks ++
    s.tasks.flatMap (Task.acks c) ++ s.tasks.flatMap (Task.toAdd c)

/-- When a step cannot make an acknowledgement fall on another allocation:
QEMU is truthful, the handler takes an acknowledgement while no other VM is
registered at its path, and a reservation leaves alone the offsets of the
allocations an acknowledgement may still come for. -/
def Attributable (s : System) : Op → Prop
  | .emitAdd _ extents about => Covers s.shared extents about
  | .nextEvent => ∀ e ∈ s.shared.events.head?, e.acks ≠ [] → s.shared.Holds e.vmPath e.source
  | .reserveMemoryContig c size =>
    ∀ x ∈ listed s c, s.shared.offsetOf x ∉ s.shared.newOffsets c size
  | _ => True

instance (s : Shared) (extents : List Extent) (about : List AllocId) :
    Decidable (Covers s extents about) := by
  unfold Covers
  infer_instance

instance (s : System) (op : Op) : Decidable (Truthful s op) := by
  induction op using Op.casesOn <;> dsimp only [Truthful] <;> infer_instance

instance (s : System) (op : Op) : Decidable (Attributable s op) := by
  induction op using Op.casesOn <;> dsimp only [Attributable] <;> infer_instance

-- ---------------------------------------------------------------------------
-- What the log has to say
-- ---------------------------------------------------------------------------

/-- QEMU accepted an add command of `c` that lists `x`. -/
def AddAccepted (log : List Output) (c : VmId) (x : AllocId) : Prop :=
  ∃ xs, .cxlAddDynamicCapacity c xs true ∈ log ∧ x ∈ xs

/-- `x` was marked when an acknowledgement for `c` was handled. -/
def Acknowledged (log : List Output) (c : VmId) (x : AllocId) : Prop :=
  ∃ marked about, .addAcknowledged c marked about ∈ log ∧ x ∈ marked

/-- What went before an entry of the log: an acknowledgement marks the
allocations it is about, which were in an accepted add command, and the guest
is told of allocations that were acknowledged. -/
def Justified (earlier : List Output) : Output → Prop
  | .addAcknowledged c marked about => ∀ x ∈ marked, x ∈ about ∧ AddAccepted earlier c x
  | .ephMemResponse c x => Acknowledged earlier c x
  | _ => True

/-- `dcd_set` is set by the allocation's own acknowledgement only. -/
structure Attributed (s : Shared) : Prop where
  entries : ∀ o earlier, o :: earlier <:+ s.log → Justified earlier o
  marked : ∀ x, (s.alloc x).dcdSet = true → Acknowledged s.log (s.alloc x).consumerVm x

theorem AddAccepted.mono {log log' : List Output} {c : VmId} {x : AllocId}
    (h : AddAccepted log c x) (hLog : log <:+ log') : AddAccepted log' c x := by
  obtain ⟨xs, hMem, hx⟩ := h
  exact ⟨xs, hLog.subset hMem, hx⟩

theorem Acknowledged.mono {log log' : List Output} {c : VmId} {x : AllocId}
    (h : Acknowledged log c x) (hLog : log <:+ log') : Acknowledged log' c x := by
  obtain ⟨marked, about, hMem, hx⟩ := h
  exact ⟨marked, about, hLog.subset hMem, hx⟩

theorem Justified.mono {log log' : List Output} {o : Output} (h : Justified log o)
    (hLog : log <:+ log') : Justified log' o := by
  cases o with
  | addAcknowledged c marked about => exact fun x hx => ⟨(h x hx).1, (h x hx).2.mono hLog⟩
  | ephMemResponse c x => exact Acknowledged.mono h hLog
  | _ => trivial

/-- An entry of a longer log is an old one, or a new one on top of the old
log. -/
theorem suffix_append_cases {o : Output} {earlier outs log : List Output}
    (h : o :: earlier <:+ outs ++ log) :
    o :: earlier <:+ log ∨ (o ∈ outs ∧ log <:+ earlier) := by
  induction outs with
  | nil => exact Or.inl h
  | cons p outs ih =>
    rcases List.suffix_cons_iff.mp h with hEq | hTail
    · obtain ⟨rfl, rfl⟩ := List.cons.inj hEq
      exact Or.inr ⟨List.mem_cons_self .., List.suffix_append ..⟩
    · exact (ih hTail).imp id fun hNew => ⟨List.mem_cons_of_mem _ hNew.1, hNew.2⟩

/-- A log stays justified when an operation's entries are. -/
theorem justified_exec {s : Shared} {op : Op}
    (h : ∀ o earlier, o :: earlier <:+ s.log → Justified earlier o)
    (hNew : ∀ o, Emits s op o → Justified s.log o) :
    ∀ o earlier, o :: earlier <:+ (op.exec s).log → Justified earlier o := by
  intro o earlier hSuffix
  rw [log_exec] at hSuffix
  rcases suffix_append_cases hSuffix with hOld | ⟨hMem, hLog⟩
  · exact h o earlier hOld
  · exact (hNew o (emits_of_mem hMem)).mono hLog

-- ---------------------------------------------------------------------------
-- Allocations an acknowledgement may still come for
-- ---------------------------------------------------------------------------

/-- The offset of `x` in the areas of `c` is its own, or free. -/
structure Pending (s : Shared) (c : VmId) (x : AllocId) : Prop where
  known : x < s.nextId
  own : (s.alloc x).consumerVm = c
  place : ∀ y ∈ (s.allocatedAreas c).get? (s.offsetOf x), y = x

/-- An allocation waits for its acknowledgement, unless another is put at its offset. -/
theorem Pending.exec {s : Shared} {c : VmId} {x : AllocId} {op : Op} (h : Pending s c x)
    (hOp : ∀ size, op = .reserveMemoryContig c size → s.offsetOf x ∉ s.newOffsets c size) :
    Pending (op.exec s) c x := by
  have hEv := evolves_exec op s
  have hA := hEv.alloc x h.known
  refine ⟨lt_of_lt_of_le h.known hEv.nextId, hA.consumer.trans h.own, fun y hy => ?_⟩
  rw [Shared.offsetOf, hA.offset] at hy
  by_cases hRes : ∃ c' size, op = .reserveMemoryContig c' size
  · obtain ⟨c', size, rfl⟩ := hRes
    rcases Shared.get?_reserve hy with ⟨rfl, hNew⟩ | hOld
    · exact absurd (Shared.mem_zip_new hNew).2.2.2 (hOp size rfl)
    · exact h.place y hOld
  · refine h.place y (get?_exec_areas ?_ hy)
    intro c' size hEq
    exact hRes ⟨c', size, hEq⟩

/-- Extents cover what they covered: offsets do not change. -/
theorem Covers.exec {s : Shared} {extents : List Extent} {about : List AllocId} (op : Op)
    (h : Covers s extents about) (hKnown : ∀ x ∈ about, x < s.nextId) :
    Covers (op.exec s) extents about := by
  intro e he o ho
  obtain ⟨x, hx, hOff⟩ := h e he o ho
  refine ⟨x, hx, ?_⟩
  rw [Shared.offsetOf, ((evolves_exec op s).alloc x (hKnown x hx)).offset]
  exact hOff

/-- What is known of an acknowledgement for `c` that is not handled yet. -/
structure AckFor (s : Shared) (c : VmId) (extents : List Extent) (about : List AllocId) :
    Prop where
  awaited : ∀ x ∈ about, Pending s c x ∧ AddAccepted s.log c x
  covers : Covers s extents about

/-- An acknowledgement stays for the allocations it is about, unless others are
put at their offsets. -/
theorem AckFor.exec {s : Shared} {c : VmId} {extents : List Extent} {about : List AllocId}
    {op : Op} (h : AckFor s c extents about)
    (hOp : ∀ size, op = .reserveMemoryContig c size →
      ∀ x ∈ about, s.offsetOf x ∉ s.newOffsets c size) :
    AckFor (op.exec s) c extents about := by
  refine ⟨fun x hx => ?_, h.covers.exec op fun x hx => (h.awaited x hx).1.known⟩
  obtain ⟨hPending, hAccepted⟩ := h.awaited x hx
  exact ⟨hPending.exec fun size hEq => hOp size hEq x hx,
    hAccepted.mono (evolves_exec op s).log⟩

/-- An acknowledgement marks the allocations it is about. -/
theorem AckFor.marks {s : Shared} {c : VmId} {extents : List Extent} {about : List AllocId}
    (h : AckFor s c extents about) (hAreas : AreasOk s) {y : AllocId}
    (hy : y ∈ (signalAddDc s.offsetOf (s.allocatedAreas c) extents).1) :
    y ∈ about ∧ AddAccepted s.log c y := by
  obtain ⟨e, he, o, ho, hLo, hHi⟩ := signalAddDc_covered hy
  obtain ⟨-, -, -, hAl, -⟩ := hAreas c o y ho
  obtain ⟨x, hx, rfl⟩ := h.covers e he o (Extent.mem_chunks hAl hLo hHi)
  obtain ⟨hPending, hAccepted⟩ := h.awaited x hx
  rw [hPending.place y ho]
  exact ⟨hx, hAccepted⟩

/-- The new allocations have distinct offsets. -/
theorem newOffset_inj {s : Shared} {c : VmId} {size : Nat} {x y : AllocId}
    (hx : x ∈ s.newIds c size) (hy : y ∈ s.newIds c size)
    (h : (s.newOffsets c size).getD (x - s.nextId) 0 =
      (s.newOffsets c size).getD (y - s.nextId) 0) : x = y := by
  obtain ⟨hxLo, hxHi⟩ := Shared.mem_newIds.mp hx
  obtain ⟨hyLo, hyHi⟩ := Shared.mem_newIds.mp hy
  have hxLt := Nat.sub_lt_left_of_lt_add hxLo hxHi
  have hyLt := Nat.sub_lt_left_of_lt_add hyLo hyHi
  rw [List.getD_eq_getElem _ _ hxLt, List.getD_eq_getElem _ _ hyLt] at h
  have hIdx := (reserveOffsets_nodup ..).getElem_inj_iff.mp h
  rw [← Nat.sub_add_cancel hxLo, hIdx, Nat.sub_add_cancel hyLo]

/-- What a reservation creates is in its place. -/
theorem pending_new {s : Shared} (hAreas : AreasOk s) {c : VmId} {size : Nat} {x : AllocId}
    (hx : x ∈ s.newIds c size) : Pending (s.reserveMemoryContig c size) c x := by
  have hNew := Shared.mem_newIds.mp hx
  have hAlloc := Shared.reserve_alloc_of_new hNew
  have hOff : (s.reserveMemoryContig c size).offsetOf x =
      (s.newOffsets c size).getD (x - s.nextId) 0 := by
    rw [Shared.offsetOf, hAlloc]
    rfl
  refine ⟨hNew.2, by rw [hAlloc]; rfl, fun y hy => ?_⟩
  rw [hOff] at hy
  rcases Shared.get?_reserve hy with ⟨-, hZip⟩ | hOld
  · obtain ⟨hLo, hHi, hAt, -⟩ := Shared.mem_zip_new hZip
    exact newOffset_inj (Shared.mem_newIds.mpr ⟨hLo, hHi⟩) hx hAt
  · have hLt := Nat.sub_lt_left_of_lt_add hNew.1 hNew.2
    rw [List.getD_eq_getElem _ _ hLt,
      hAreas.newOffsets_free (List.getElem_mem hLt)] at hOld
    cases hOld

-- ---------------------------------------------------------------------------
-- The threads
-- ---------------------------------------------------------------------------

/-- The allocations of a request after its add command. -/
def Request.added (q : Request) : List AllocId :=
  match q.pc with
  | .wait rsvd => rsvd
  | .partition todo live _ => todo ++ live
  | .returnDead _ live => live
  | .respond todo _ => todo
  | _ => []

/-- Those of them the guest is to be told about. -/
def Request.live (q : Request) : List AllocId :=
  match q.pc with
  | .partition _ live _ => live
  | .returnDead _ live => live
  | .respond todo _ => todo
  | _ => []

/-- What the handler knows of an acknowledgement it is about to act on, and a
request of its allocations. -/
def Task.Attributes (s : Shared) : Task → Prop
  | .events (.signalAdd c extents about) => AckFor s c extents about
  | .request q =>
    (∀ x ∈ q.toAdd, Pending s q.consumer x) ∧
      (∀ x ∈ q.added, x < s.nextId ∧ (s.alloc x).consumerVm = q.consumer) ∧
      ∀ x ∈ q.live, x < s.nextId ∧ (s.alloc x).dcdSet = true
  | _ => True

/-- What a request has added stays its consumer's. -/
theorem added_of_evolves {s s' : Shared} (hEv : Evolves s s') {q : Request}
    (h : ∀ x ∈ q.added, x < s.nextId ∧ (s.alloc x).consumerVm = q.consumer) :
    ∀ x ∈ q.added, x < s'.nextId ∧ (s'.alloc x).consumerVm = q.consumer := by
  intro x hx
  obtain ⟨hLt, hVm⟩ := h x hx
  exact ⟨lt_of_lt_of_le hLt hEv.nextId, (hEv.alloc x hLt).consumer.trans hVm⟩

/-- What was acknowledged stays so. -/
theorem live_of_evolves {s s' : Shared} (hEv : Evolves s s') {q : Request}
    (h : ∀ x ∈ q.live, x < s.nextId ∧ (s.alloc x).dcdSet = true) :
    ∀ x ∈ q.live, x < s'.nextId ∧ (s'.alloc x).dcdSet = true := by
  intro x hx
  obtain ⟨hLt, hSet⟩ := h x hx
  exact ⟨lt_of_lt_of_le hLt hEv.nextId, (hEv.alloc x hLt).dcdSet hSet⟩

/-- The threads that do not move keep what they know, when a reservation
leaves their allocations alone. -/
theorem Task.Attributes.exec {s : Shared} {t : Task} {op : Op} (h : t.Attributes s)
    (hOp : ∀ c size, op = .reserveMemoryContig c size →
      ∀ x ∈ t.acks c ++ t.toAdd c, s.offsetOf x ∉ s.newOffsets c size) :
    t.Attributes (op.exec s) := by
  cases t with
  | events l =>
    cases l with
    | signalAdd c extents about =>
      refine AckFor.exec h fun size hEq x hx => hOp c size hEq x ?_
      simpa [Task.acks, Task.toAdd] using hx
    | _ => trivial
  | request q =>
    obtain ⟨hToAdd, hAdded, hLive⟩ := h
    refine ⟨fun x hx => ?_, added_of_evolves (evolves_exec op s) hAdded,
      live_of_evolves (evolves_exec op s) hLive⟩
    refine (hToAdd x hx).exec fun size hEq => hOp q.consumer size hEq x ?_
    simpa [Task.acks, Task.toAdd] using hx
  | detection l => trivial
  | revoke v => trivial

/-- A request stays its consumer's. -/
theorem Request.Step.consumer_eq {tid : Tid} {s : Shared} {q q' : Request} {op : Op}
    (h : Request.Step tid s q op q') : q'.consumer = q.consumer := by
  cases h <;> rfl

@[simp] theorem Request.toAdd_afterDead (c : VmId) (live : List AllocId) :
    (⟨c, Request.afterDead live⟩ : Request).toAdd = [] := by
  unfold Request.afterDead
  split <;> rfl

@[simp] theorem Request.added_afterDead (c : VmId) (live : List AllocId) :
    (⟨c, Request.afterDead live⟩ : Request).added = live := by
  unfold Request.afterDead
  split
  · rename_i hNone
    rw [hNone]
    rfl
  · rfl

@[simp] theorem Request.live_afterDead (c : VmId) (live : List AllocId) :
    (⟨c, Request.afterDead live⟩ : Request).live = live := by
  unfold Request.afterDead
  split
  · rename_i hNone
    rw [hNone]
    rfl
  · rfl

/-- A request gains what it reserves. -/
theorem Request.Step.toAdd_step {tid : Tid} {s : Shared} {q q' : Request} {op : Op}
    (h : Request.Step tid s q op q') {x : AllocId} (hx : x ∈ q'.toAdd) :
    x ∈ q.toAdd ∨
      ∃ size, op = .reserveMemoryContig q.consumer size ∧ x ∈ s.newIds q.consumer size := by
  cases h with
  | @reserve c remaining rsvd _ _ =>
    exact (List.mem_append.mp hx).imp id fun hNew => ⟨remaining, rfl, hNew⟩
  | dropped _ => exact Or.inl (by simpa [Request.toAdd] using hx)
  | keep _ _ =>
    refine Or.inl ?_
    simp only [Request.toAdd, List.mem_append, List.mem_cons, List.not_mem_nil, or_false] at hx ⊢
    tauto
  | skip _ _ => exact Or.inl (List.mem_cons_of_mem _ hx)
  | skipOther _ => exact Or.inl (List.mem_cons_of_mem _ hx)
  | allLive =>
    rw [Request.toAdd_afterDead] at hx
    cases hx
  | returnedDead _ =>
    rw [Request.toAdd_afterDead] at hx
    cases hx
  | added => cases hx
  | addFailed => cases hx
  | _ => exact Or.inl hx

/-- After its add command it keeps what the command listed. -/
theorem Request.Step.added_step {tid : Tid} {s : Shared} {q q' : Request} {op : Op}
    (h : Request.Step tid s q op q') {x : AllocId} (hx : x ∈ q'.added) :
    x ∈ q.added ∨ x ∈ q.toAdd := by
  cases h with
  | reserve _ _ => cases hx
  | added => exact Or.inr hx
  | waited => exact Or.inl (by simpa [Request.added] using hx)
  | live _ =>
    refine Or.inl ?_
    simp only [Request.added, List.mem_append, List.mem_cons, List.not_mem_nil, or_false] at hx ⊢
    tauto
  | dead _ => exact Or.inl (List.mem_cons_of_mem _ hx)
  | allLive =>
    rw [Request.added_afterDead] at hx
    exact Or.inl hx
  | returnedDead _ =>
    rw [Request.added_afterDead] at hx
    exact Or.inl hx
  | respond => exact Or.inl (List.mem_cons_of_mem _ hx)
  | respondFailed => cases hx
  | _ => exact Or.inl hx

/-- What it tells the guest about is marked. -/
theorem Request.Step.live_step {tid : Tid} {s : Shared} {q q' : Request} {op : Op}
    (h : Request.Step tid s q op q') {x : AllocId} (hx : x ∈ q'.live) :
    x ∈ q.live ∨ (x ∈ q.added ∧ (s.alloc x).dcdSet = true) := by
  cases h with
  | reserve _ _ => cases hx
  | waited => cases hx
  | @live c todo live dead y hLive =>
    rcases List.mem_append.mp hx with hx | hx
    · exact Or.inl hx
    · rw [List.mem_singleton.mp hx]
      unfold EphAllocation.isLive at hLive
      rw [Bool.and_eq_true, Bool.and_eq_true] at hLive
      exact Or.inr ⟨List.mem_cons_self .., hLive.1.1⟩
  | allLive =>
    rw [Request.live_afterDead] at hx
    exact Or.inl hx
  | returnedDead _ =>
    rw [Request.live_afterDead] at hx
    exact Or.inl hx
  | respond => exact Or.inl (List.mem_cons_of_mem _ hx)
  | respondFailed => cases hx
  | _ => exact Or.inl hx

/-- A request adds and reports what was acknowledged for itself. -/
theorem Request.Step.attributes {tid : Tid} {s : Shared} {q q' : Request} {op : Op}
    (h : Request.Step tid s q op q') (hAreas : AreasOk s) (hq : (Task.request q).Attributes s)
    (hOp : ∀ c size, op = .reserveMemoryContig c size →
      ∀ x ∈ (Task.request q).acks c ++ (Task.request q).toAdd c,
        s.offsetOf x ∉ s.newOffsets c size) :
    (Task.request q').Attributes (op.exec s) := by
  obtain ⟨hToAdd, hAdded, hLive⟩ := hq.exec hOp
  have hEv := evolves_exec op s
  refine ⟨fun x hx => ?_, fun x hx => ?_, fun x hx => ?_⟩
  · rw [h.consumer_eq]
    rcases h.toAdd_step hx with hOld | ⟨size, rfl, hNew⟩
    · exact hToAdd x hOld
    · exact pending_new hAreas hNew
  · rw [h.consumer_eq]
    rcases h.added_step hx with hOld | hOld
    · exact hAdded x hOld
    · exact ⟨(hToAdd x hOld).known, (hToAdd x hOld).own⟩
  · rcases h.live_step hx with hOld | ⟨hOld, hSet⟩
    · exact hLive x hOld
    · have hLt := (hq.2.1 x hOld).1
      exact ⟨lt_of_lt_of_le hLt hEv.nextId, (hEv.alloc x hLt).dcdSet hSet⟩

-- ---------------------------------------------------------------------------
-- Events
-- ---------------------------------------------------------------------------

def QmpEvent.Attributes (s : Shared) (e : QmpEvent) : Prop :=
  match e.data with
  | .cxlAddDynamicCapacityResponse extents about => AckFor s e.source extents about
  | _ => True

/-- A queued acknowledgement stays for what it is about. -/
theorem QmpEvent.Attributes.exec {s : Shared} {e : QmpEvent} {op : Op} (h : e.Attributes s)
    (hOp : ∀ size, op = .reserveMemoryContig e.source size →
      ∀ x ∈ e.acks, s.offsetOf x ∉ s.newOffsets e.source size) : e.Attributes (op.exec s) := by
  obtain ⟨path, source, data⟩ := e
  cases data with
  | cxlAddDynamicCapacityResponse extents about => exact AckFor.exec h hOp
  | _ => trivial

/-- The handler takes an acknowledgement for the VM it is from. -/
theorem ackFor_taken {s : Shared} {path : SocketPath} {source c : VmId} {extents : List Extent}
    {about : List AllocId} (h : AckFor s source extents about)
    (hHolds : about ≠ [] → s.Holds path source) (hc : s.getConsumer path = some c) :
    AckFor s c extents about := by
  cases about with
  | nil => exact ⟨nofun, h.covers⟩
  | cons x rest =>
    rw [holds_getConsumer (hHolds (List.cons_ne_nil _ _)) hc]
    exact h

/-- Only an accepted add command has an acknowledgement to come. -/
theorem unacked_exec {op : Op} {s : Shared} {c : VmId} {x : AllocId}
    (h : x ∈ ((op.exec s).device c).unacked) :
    x ∈ (s.device c).unacked ∨ ∃ xs, op = .cxlAddDynamicCapacity c xs true ∧ x ∈ xs := by
  cases op with
  | cxlAddDynamicCapacity c' xs ok =>
    by_cases hc : c = c'
    · subst hc
      simp only [Op.exec, Shared.emit, Function.update_self] at h
      split at h
      · rename_i hOk
        subst hOk
        exact (List.mem_append.mp h).imp id fun hx => ⟨xs, rfl, hx⟩
      · exact Or.inl h
    · simp only [Op.exec, Shared.emit, Function.update_of_ne hc] at h
      exact Or.inl h
  | emitAdd c' extents about =>
    by_cases hc : c = c'
    · subst hc
      simp only [Op.exec, Function.update_self] at h
      exact Or.inl (List.mem_of_mem_filter h)
    · simp only [Op.exec, Function.update_of_ne hc] at h
      exact Or.inl h
  | emitRelease c' extents about =>
    by_cases hc : c = c'
    · subst hc
      simp only [Op.exec, Function.update_self] at h
      exact Or.inl h
    · simp only [Op.exec, Function.update_of_ne hc] at h
      exact Or.inl h
  | handleReservedAlloc d ids requested granted =>
    simp only [Op.exec] at h
    split at h <;> exact Or.inl h
  | bookkeep d x =>
    simp only [Op.exec] at h
    split at h
    · exact Or.inl h
    · split at h <;> exact Or.inl h
  | commitState x =>
    simp only [Op.exec] at h
    split at h <;> exact Or.inl h
  | tryClaim d x =>
    simp only [Op.exec] at h
    split at h <;> exact Or.inl h
  | claimRelease c' x call taken =>
    simp only [Op.exec] at h
    split at h <;> exact Or.inl h
  | _ => exact Or.inl h

-- ---------------------------------------------------------------------------
-- One step
-- ---------------------------------------------------------------------------

theorem mem_listed_unacked {s : System} {c : VmId} {x : AllocId}
    (hx : x ∈ (s.shared.device c).unacked) : x ∈ listed s c := by
  simp only [listed, List.mem_append]
  exact Or.inl (Or.inl (Or.inl hx))

theorem mem_listed_event {s : System} {e : QmpEvent} (he : e ∈ s.shared.events) {x : AllocId}
    (hx : x ∈ e.acks) : x ∈ listed s e.source := by
  simp only [listed, List.mem_append, List.mem_flatMap, List.mem_filter]
  exact Or.inl (Or.inl (Or.inr ⟨e, ⟨he, decide_eq_true rfl⟩, hx⟩))

theorem mem_listed_task {s : System} {i : Nat} {t : Task} (ht : s.tasks[i]? = some t) {c : VmId}
    {x : AllocId} (hx : x ∈ t.acks c ++ t.toAdd c) : x ∈ listed s c := by
  have hMem := List.mem_of_getElem? ht
  simp only [listed, List.mem_append, List.mem_flatMap]
  rcases List.mem_append.mp hx with hx | hx
  · exact Or.inl (Or.inr ⟨t, hMem, hx⟩)
  · exact Or.inr ⟨t, hMem, hx⟩

structure AttributionInv (s : System) : Prop where
  core : CoreInv s
  attributed : Attributed s.shared
  unacked : ∀ c, ∀ x ∈ (s.shared.device c).unacked,
    Pending s.shared c x ∧ AddAccepted s.shared.log c x
  events : ∀ e ∈ s.shared.events, e.Attributes s.shared
  tasks : ∀ (i : Nat) (t : Task), s.tasks[i]? = some t → t.Attributes s.shared

/-- A reservation leaves alone what an acknowledgement may still come for. -/
theorem Attributable.spares {s : System} {op : Op} (h : Attributable s op) {c : VmId}
    {size : Nat} (hOp : op = .reserveMemoryContig c size) {x : AllocId} (hx : x ∈ listed s c) :
    s.shared.offsetOf x ∉ s.shared.newOffsets c size := by
  subst hOp
  exact h x hx

/-- The request that answers the guest tells it about marked allocations of
its own. -/
theorem Task.Step.responds {tid : Tid} {s : Shared} {t t' : Task} {started : List Task}
    {c : VmId} {x : AllocId} (h : Task.Step tid s t (.ephMemResponse c x) t' started)
    (ht : t.Attributes s) : (s.alloc x).consumerVm = c ∧ (s.alloc x).dcdSet = true := by
  obtain ⟨q, q', rfl, rfl, hq⟩ := h.ofRequest rfl
  cases hq with
  | respond =>
    obtain ⟨-, hAdded, hLive⟩ := ht
    exact ⟨(hAdded x (List.mem_cons_self ..)).2, (hLive x (List.mem_cons_self ..)).2⟩
  | allocate hc => rcases hc.performer with h | h <;> cases h
  | drop hr => cases hr
  | returnDead hr => cases hr.performer
  | returnAll hr => cases hr.performer

/-- What a step writes to the log is justified by what is there. -/
theorem Task.Step.justified {tid : Tid} {s : Shared} {t t' : Task} {op : Op}
    {started : List Task} (h : Task.Step tid s t op t' started) (hAreas : AreasOk s)
    (hMarked : ∀ x, (s.alloc x).dcdSet = true → Acknowledged s.log (s.alloc x).consumerVm x)
    (ht : t.Attributes s) {o : Output} (ho : Emits s op o) : Justified s.log o := by
  cases ho with
  | acknowledged =>
    obtain ⟨l, l', spawned, rfl, rfl, hl⟩ := h.handler rfl
    cases hl with
    | signalAdd _ _ => exact fun y hy => AckFor.marks ht hAreas hy
  | response =>
    obtain ⟨hVm, hSet⟩ := h.responds ht
    have hAcked := hMarked _ hSet
    rw [hVm] at hAcked
    exact hAcked
  | _ => trivial

/-- Every new entry of the log is justified by the earlier ones. -/
theorem AttributionInv.log_move {s s' : System} {op : Op} (h : AttributionInv s)
    (hm : orchestrator.Move s op s') :
    ∀ o earlier, o :: earlier <:+ (op.exec s.shared).log → Justified earlier o := by
  refine justified_exec h.attributed.entries fun o ho => ?_
  rcases move_cases hm with ⟨i, t, t', started, ht, hs, -⟩ | ⟨started, hs, -⟩
  · exact hs.justified h.core.areas h.attributed.marked (h.tasks i t ht) ho
  · cases hs <;> cases ho

/-- An allocation becomes marked by an acknowledgement, which the log keeps. -/
theorem marked_exec {s : Shared} (hAreas : AreasOk s)
    (h : ∀ x, (s.alloc x).dcdSet = true → Acknowledged s.log (s.alloc x).consumerVm x) (op : Op)
    (x : AllocId) (hx : ((op.exec s).alloc x).dcdSet = true) :
    Acknowledged (op.exec s).log ((op.exec s).alloc x).consumerVm x := by
  have hLog := (evolves_exec op s).log
  have hChange := allocChange_exec op s x
  generalize (op.exec s).alloc x = a at hChange hx ⊢
  cases hChange with
  | created _ => cases hx
  | @marked c extents about hMem =>
    obtain ⟨o, ho⟩ := signalAddDc_mem hMem
    have hVm : (s.alloc x).consumerVm = c := (hAreas c o x ho).2.1
    refine ⟨_, about, ?_, hMem⟩
    rw [← hVm]
    exact List.mem_cons_self ..
  | same _ _ _ _ _ => exact (h x hx).mono hLog
  | donorSet => exact (h x hx).mono hLog
  | committed _ => exact (h x hx).mono hLog
  | claimed _ => exact (h x hx).mono hLog
  | abandoned => exact (h x hx).mono hLog
  | requested _ => exact (h x hx).mono hLog

/-- The thread that moved, and those it started. -/
theorem Task.Step.attributes {tid : Tid} {s : System} {t t' : Task} {op : Op}
    {started : List Task} (h : Task.Step tid s.shared t op t' started) (hInv : AttributionInv s)
    (hAllow : Attributable s op) (ht : t.Attributes s.shared)
    (hOp : ∀ c size, op = .reserveMemoryContig c size →
      ∀ x ∈ t.acks c ++ t.toAdd c, s.shared.offsetOf x ∉ s.shared.newOffsets c size) :
    t'.Attributes (op.exec s.shared) ∧ ∀ u ∈ started, u.Attributes (op.exec s.shared) := by
  cases h with
  | events hl =>
    refine ⟨?_, fun u hu => ?_⟩
    · cases hl with
      | @addEvent path source c extents about rest hEvents hc =>
        have hKnown := hInv.events _ (hEvents ▸ List.mem_cons_self ..)
        have hHolds := hAllow _ (by rw [hEvents]; rfl)
        exact (ackFor_taken hKnown hHolds hc).exec nofun
      | signalAdd _ hNext =>
        rcases hNext with rfl | ⟨gaps, rfl⟩ <;> trivial
      | _ => trivial
    · obtain ⟨v, -, rfl⟩ := List.mem_map.mp hu
      trivial
  | detection _ => exact ⟨trivial, nofun⟩
  | request hq => exact ⟨hq.attributes hInv.core.areas ht hOp, nofun⟩
  | revoke _ => exact ⟨trivial, nofun⟩

/-- What the threads hold stays attributed. -/
theorem AttributionInv.tasks_move {s s' : System} {op : Op} (h : AttributionInv s)
    (hm : orchestrator.Move s op s') (hAllow : Attributable s op) :
    ∀ (i : Nat) (t : Task), s'.tasks[i]? = some t → t.Attributes s'.shared := by
  have hSpares : ∀ (i : Nat) t, s.tasks[i]? = some t → ∀ c size,
      op = .reserveMemoryContig c size → ∀ x ∈ t.acks c ++ t.toAdd c,
        s.shared.offsetOf x ∉ s.shared.newOffsets c size :=
    fun i t ht c size hOp x hx => hAllow.spares hOp (mem_listed_task ht hx)
  refine forall_tasks (J := fun _ s t => t.Attributes s) hm h.tasks
    (fun i t t' started ht hs => ?_) (fun started hs j u hu => ?_) (fun j u hu hJ => ?_)
  · have hStep := hs.attributes h hAllow (h.tasks i t ht) (hSpares i t ht)
    exact ⟨hStep.1, fun _ => hStep.2⟩
  · cases hs with
    | request =>
      rw [List.mem_singleton.mp hu]
      exact ⟨nofun, nofun, nofun⟩
    | _ => cases hu
  · exact hJ.exec (hSpares j u hu)

/-- What is queued stays attributed. -/
theorem AttributionInv.events_move {s s' : System} {op : Op} (h : AttributionInv s)
    (hm : orchestrator.Move s op s') (hAllow : Attributable s op) :
    ∀ e ∈ (op.exec s.shared).events, e.Attributes (op.exec s.shared) := by
  have hOld : ∀ e ∈ s.shared.events, e.Attributes (op.exec s.shared) := fun e he =>
    (h.events e he).exec fun size hOp x hx => hAllow.spares hOp (mem_listed_event he hx)
  have hChange := channelChange_exec op s.shared
  generalize (op.exec s.shared).vmList = vmList at hChange
  generalize hEvents : (op.exec s.shared).events = events at hChange ⊢
  cases hChange with
  | same => exact hOld
  | registered => exact hOld
  | unregistered => exact hOld
  | taken => exact fun e he => hOld e (List.mem_of_mem_tail he)
  | @acknowledged c extents about =>
    refine forall_append_one hOld ?_
    have hAbout : ∀ x ∈ about, x ∈ (s.shared.device c).unacked := by
      rcases move_cases hm with ⟨i, t, t', started, ht, hs, -⟩ | ⟨started, hs, -⟩
      · exact absurd rfl hs.not_outside
      · cases hs
        assumption
    have hAck : AckFor s.shared c extents about :=
      ⟨fun x hx => h.unacked c x (hAbout x hx), hAllow⟩
    exact hAck.exec nofun
  | released => exact forall_append_one hOld trivial
  | revoked => exact forall_append_one hOld trivial

/-- The command a request sends lists allocations of its own, in their
places. -/
theorem Task.Step.adds {tid : Tid} {s : Shared} {t t' : Task} {started : List Task} {c : VmId}
    {xs : List AllocId} {ok : Bool}
    (h : Task.Step tid s t (.cxlAddDynamicCapacity c xs ok) t' started) (ht : t.Attributes s) :
    ∀ x ∈ xs, Pending s c x := by
  obtain ⟨q, q', rfl, rfl, hq⟩ := h.ofRequest rfl
  cases hq with
  | added => exact ht.1
  | addFailed => exact ht.1
  | allocate hc => rcases hc.performer with h | h <;> cases h
  | drop hr => cases hr
  | returnDead hr => cases hr.performer
  | returnAll hr => cases hr.performer

/-- What QEMU was given stays pending until it answers. -/
theorem AttributionInv.unacked_move {s s' : System} {op : Op} (h : AttributionInv s)
    (hm : orchestrator.Move s op s') (hAllow : Attributable s op) (c : VmId) (x : AllocId)
    (hx : x ∈ ((op.exec s.shared).device c).unacked) :
    Pending (op.exec s.shared) c x ∧ AddAccepted (op.exec s.shared).log c x := by
  rcases unacked_exec hx with hOld | ⟨xs, rfl, hMem⟩
  · obtain ⟨hPending, hAccepted⟩ := h.unacked c x hOld
    exact ⟨hPending.exec fun size hOp => hAllow.spares hOp (mem_listed_unacked hOld),
      hAccepted.mono (evolves_exec op s.shared).log⟩
  · rcases move_cases hm with ⟨i, t, t', started, ht, hs, -⟩ | ⟨started, hs, -⟩
    · exact ⟨(hs.adds (h.tasks i t ht) x hMem).exec nofun, xs, List.mem_cons_self .., hMem⟩
    · cases hs

/-- The four parts hold on together. -/
theorem AttributionInv.move {s s' : System} {op : Op} (h : AttributionInv s)
    (hm : orchestrator.Move s op s') (hAllow : Attributable s op) : AttributionInv s' where
  core := h.core.move hm
  attributed := by
    rw [hm.shared_eq]
    exact ⟨h.log_move hm, marked_exec h.core.areas h.attributed.marked op⟩
  unacked := by
    rw [hm.shared_eq]
    exact h.unacked_move hm hAllow
  events := by
    rw [hm.shared_eq]
    exact h.events_move hm hAllow
  tasks := h.tasks_move hm hAllow

theorem attributionInv_init {vm : VmId → Vm} {donor : VmId → DonorState}
    (hFresh : FreshDonors donor) : AttributionInv (initSystem vm donor) where
  core := coreInv_init hFresh
  attributed := ⟨fun o earlier h => absurd (List.suffix_nil.mp h) (List.cons_ne_nil _ _), nofun⟩
  unacked := nofun
  events := nofun
  tasks := by
    intro i t ht
    have hMem := List.mem_of_getElem? ht
    simp only [initSystem, List.mem_cons, List.not_mem_nil, or_false] at hMem
    rcases hMem with rfl | rfl <;> trivial

/-- **Acknowledgements reach their allocation.** In every run that keeps to
`Attributable`, an allocation is marked by an acknowledgement that is about
it, of an add command that listed it, and the guest is told about allocations
that were acknowledged so. -/
theorem acknowledgements_attributed {s : System} (h : ReachableBy Attributable s) :
    Attributed s.shared := by
  obtain ⟨vm, donor, hFresh, hRun⟩ := h
  have hInv : AttributionInv s :=
    hRun.invariant (fun _ _ _ hInv hm hAllow => hInv.move hm hAllow) (attributionInv_init hFresh)
  exact hInv.attributed

-- ---------------------------------------------------------------------------
-- Two short runs
-- ---------------------------------------------------------------------------

/-- After `demoCommit` the request leaves `allocate_eph_memory`, drops
nothing, and QEMU accepts its add command. -/
def demoAdded : List (Label Op Choice) :=
  demoCommit ++ [.task 2 .go, .task 2 .go, .task 2 .go, .task 2 .go, .task 2 .go, .task 2 .go,
    .task 2 .go, .task 2 .go, .task 2 (.outcome true)]

/-- QEMU acknowledges it, and the guest is told. -/
def demoTold : List (Label Op Choice) :=
  demoAdded ++ [.outside (.emitAdd 1 [⟨0, granularity⟩] [1]), .task 0 .go, .task 0 .go,
    .task 2 .go, .task 2 .go, .task 2 .go, .task 2 (.outcome true)]

theorem demoTold_runs : (orchestrator.runIf (fun s op => decide (Attributable s op)) demo
    demoTold).isSome = true := by decide +kernel

theorem acknowledgements_attributed_told :
    .ephMemResponse 1 1 ∈ (demoAfter demoTold).shared.log ∧
      Attributed (demoAfter demoTold).shared := by
  have hTold : .ephMemResponse 1 1 ∈ (demoAfter demoTold).shared.log := by decide +kernel
  exact ⟨hTold, acknowledgements_attributed (demo_reachableBy demoTold_runs)⟩

/-- The request gives up before the acknowledgement comes: allocation 1 leaves
its offset and goes back to the donor. The guest takes the extent and lets go
of it, and both events wait for the handler. -/
def demoGaveUp : List (Label Op Choice) :=
  demoAdded ++ [.task 2 .timeout, .task 2 .go, .task 2 .go,
    -- organize, abandon, look at the donor
    .task 2 .go, .task 2 .go, .task 2 .go, .task 2 .go,
    -- release_reserved_memory finds it unmarked
    .task 2 (.sub 0 .go), .task 2 (.sub 0 .go), .task 2 (.sub 0 .go), .task 2 .go,
    -- return_and_bookkeep_eph_memory
    .task 2 (.sub 0 (.outcome true)), .task 2 (.sub 0 .go), .task 2 (.sub 0 .go), .task 2 .go,
    .task 2 .go, .task 2 .go,
    .outside (.emitAdd 1 [⟨0, granularity⟩] [1]),
    .outside (.emitRelease 1 [⟨0, granularity⟩] [1])]

/-- The next request gets allocation 2 at the same offset; the handler then
takes the acknowledgement of allocation 1. -/
def demoMistaken : List (Label Op Choice) :=
  demoGaveUp ++ [.outside (.startRequest 1 granularity),
    .task 3 .go, .task 3 .go, .task 3 .go, .task 3 .go, .task 3 .go,
    .task 3 (.granted (some granularity)), .task 3 .go, .task 3 .go, .task 3 .go,
    .task 3 .go, .task 3 .go, .task 3 .go, .task 3 .go, .task 3 .go, .task 3 .go, .task 3 .go,
    .task 3 .go, .task 3 (.outcome true),
    .task 0 .go, .task 0 .go,
    .task 3 .go, .task 3 .go, .task 3 .go, .task 3 (.outcome true)]

theorem demoMistaken_runs : (orchestrator.runIf (fun s op => decide (Truthful s op)) demo
    demoMistaken).isSome = true := by decide +kernel

/-- The late acknowledgement of allocation 1 marks allocation 2, and the guest
is told about allocation 2, which QEMU never acknowledged. -/
theorem acknowledgement_mistaken :
    ∃ s, ReachableBy Truthful s ∧ .addAcknowledged 1 [2] [1] ∈ s.shared.log ∧
      (s.shared.alloc 2).dcdSet = true ∧ .ephMemResponse 1 2 ∈ s.shared.log ∧
      (∀ c marked about, .addAcknowledged c marked about ∈ s.shared.log → 2 ∉ about) ∧
      ¬ Attributed s.shared := by
  have hReach : ReachableBy Truthful (demoAfter demoMistaken) :=
    demo_reachableBy demoMistaken_runs
  have hAck : .addAcknowledged 1 [2] [1] ∈ (demoAfter demoMistaken).shared.log := by
    decide +kernel
  have hSet : ((demoAfter demoMistaken).shared.alloc 2).dcdSet = true := by decide +kernel
  have hTold : .ephMemResponse 1 2 ∈ (demoAfter demoMistaken).shared.log := by decide +kernel
  have hOnly : ∀ o ∈ (demoAfter demoMistaken).shared.log,
      (match o with
        | .addAcknowledged _ _ about => decide (2 ∉ about)
        | _ => true) = true := by decide +kernel
  refine ⟨_, hReach, hAck, hSet, hTold, fun c marked about hMem => ?_, fun hAttr => ?_⟩
  · exact of_decide_eq_true (hOnly _ hMem)
  · obtain ⟨before, after, hLog⟩ := List.append_of_mem hAck
    have hJust := hAttr.entries (.addAcknowledged 1 [2] [1]) after ⟨before, hLog.symm⟩
    have hWrong := (hJust 2 (List.mem_singleton.mpr rfl)).1
    exact absurd hWrong (by decide)

end EphMemory.Orchestrator
