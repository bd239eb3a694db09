import EphMemory.Orchestrator.Frame

/-!
# Orchestrator — the steps of each thread

What each thread can do, once: `next` of a thread only ever makes one of the
steps listed here. The invariants are proved by cases on these relations, so
they do not look into `next` again.

* `ReleaseCall.Step`, `GiveBack.Step`, `ReturnCall.Step`, `AllocCall.Step` —
  the calls;
* `Request.Step`, `Revoke.Step`, `EventLoop.Step`, `Detection.Step` — the
  threads;
* `Task.Step` and `task_step` — a task of the system.
-/

namespace EphMemory.Orchestrator

open EphMemory.Lib

/-- One of the parallel calls made the step. -/
theorem stepNth_some {α : Type} {f : α → Option (Op × α)} {i : Nat} {calls calls' : List α}
    {op : Op} (h : stepNth f i calls = some (op, calls')) :
    ∃ a a', calls[i]? = some a ∧ f a = some (op, a') ∧ calls' = calls.set i a' := by
  unfold stepNth at h
  split at h
  · cases h
  · rename_i a ha
    split at h
    · cases h
    · rename_i op' a' hf
      cases h
      exact ⟨a, a', ha, hf, rfl⟩

-- ---------------------------------------------------------------------------
-- ConsumerState::release_reserved_memory
-- ---------------------------------------------------------------------------

inductive ReleaseCall.Step (tid : Tid) (s : Shared) : ReleaseCall → Op → ReleaseCall → Prop
  | enter {c : VmId} {allocs taken : List AllocId} :
      s.consumerLock c = none →
      Step tid s ⟨c, allocs, taken, .enter⟩ (.lockConsumer c tid)
        ⟨c, allocs, taken, .claim allocs []⟩
  | claim {c : VmId} {allocs taken todo toRelease : List AllocId} {x : AllocId} :
      Step tid s ⟨c, allocs, taken, .claim (x :: todo) toRelease⟩
        (.claimRelease c x allocs (decide (x ∈ taken)))
        ⟨c, allocs, taken, .claim todo (toRelease ++ (s.claimAt c x).toRelease)⟩
  | nothing {c : VmId} {allocs taken : List AllocId} :
      Step tid s ⟨c, allocs, taken, .claim [] []⟩ (.unlockConsumer c) ⟨c, allocs, taken, .done⟩
  | claimed {c : VmId} {allocs taken toRelease : List AllocId} :
      Step tid s ⟨c, allocs, taken, .claim [] toRelease⟩ (.unlockConsumer c)
        ⟨c, allocs, taken, .send toRelease⟩
  | sent {c : VmId} {allocs taken toRelease : List AllocId} :
      Step tid s ⟨c, allocs, taken, .send toRelease⟩
        (.cxlReleaseDynamicCapacity c allocs toRelease true) ⟨c, allocs, taken, .wait toRelease⟩
  | failed {c : VmId} {allocs taken toRelease : List AllocId} :
      Step tid s ⟨c, allocs, taken, .send toRelease⟩
        (.cxlReleaseDynamicCapacity c allocs toRelease false)
        ⟨c, allocs, taken, .manual toRelease⟩
  | confirmed {c : VmId} {allocs taken toRelease : List AllocId} :
      (∀ x ∈ toRelease, (s.allocatedAreas c).get? (s.offsetOf x) = none) →
      Step tid s ⟨c, allocs, taken, .wait toRelease⟩ .nop ⟨c, allocs, taken, .done⟩
  | timedOut {c : VmId} {allocs taken toRelease : List AllocId} :
      (∃ x ∈ toRelease, ∃ y, (s.allocatedAreas c).get? (s.offsetOf x) = some y) →
      Step tid s ⟨c, allocs, taken, .wait toRelease⟩ (.releaseTimedOut c toRelease)
        ⟨c, allocs, taken, .manual toRelease⟩
  | manual {c : VmId} {allocs taken toRelease : List AllocId} :
      Step tid s ⟨c, allocs, taken, .manual toRelease⟩ (.removeAreas c allocs toRelease)
        ⟨c, allocs, taken, .done⟩

/-- Whatever a release does next is one of its steps. -/
theorem ReleaseCall.step_of_next {tid : Tid} {s : Shared} {r r' : ReleaseCall} {ch : Choice}
    {op : Op} (h : r.next tid s ch = some (op, r')) : ReleaseCall.Step tid s r op r' := by
  obtain ⟨c, allocs, taken, pc⟩ := r
  unfold next at h
  split at h <;> rename_i hpc <;> simp only at hpc <;> subst hpc
  · split at h <;> cases h
    exact .enter ‹_›
  · cases h
    split
    · rename_i hnil
      rw [hnil]
      exact .nothing
    · exact .claimed
  · cases h
    exact .claim
  · split at h <;> cases h
    split
    · rename_i hok
      rw [hok]
      exact .sent
    · rename_i hok
      rw [Bool.not_eq_true] at hok
      rw [hok]
      exact .failed
  · split at h
    · split at h
      · rename_i hAny
        split at h <;> cases h
        obtain ⟨x, hx, hy⟩ := List.any_eq_true.mp hAny
        exact .timedOut ⟨x, hx, OrdMap.contains_iff.mp hy⟩
      · rename_i hAny
        cases h
        refine .confirmed fun x hx => ?_
        by_contra hne
        refine hAny (List.any_eq_true.mpr ⟨x, hx, ?_⟩)
        exact Option.ne_none_iff_isSome.mp hne
    · cases h
  · split at h <;> cases h
    exact .manual
  · cases h

-- ---------------------------------------------------------------------------
-- DonorState::return_and_bookkeep_eph_memory
-- ---------------------------------------------------------------------------

inductive GiveBack.Step (s : Shared) : GiveBack → Op → GiveBack → Prop
  | sent {d : DonorAllocation} {ids : List AllocId} :
      Step s ⟨d, ids, .send⟩ (.ephMemReturnCapacity d (ids.length * granularity) ids true)
        ⟨d, ids, .book ids⟩
  | failed {d : DonorAllocation} {ids : List AllocId} :
      Step s ⟨d, ids, .send⟩ (.ephMemReturnCapacity d (ids.length * granularity) ids false)
        ⟨d, ids, .done⟩
  | book {d : DonorAllocation} {ids todo : List AllocId} {x : AllocId} :
      s.donorLock d.donorVm = none →
      Step s ⟨d, ids, .book (x :: todo)⟩ (.bookkeep d x) ⟨d, ids, .book todo⟩
  | booked {d : DonorAllocation} {ids : List AllocId} :
      Step s ⟨d, ids, .book []⟩ .nop ⟨d, ids, .done⟩

/-- Whatever a give-back does next is one of its steps. -/
theorem GiveBack.step_of_next {s : Shared} {g g' : GiveBack} {ch : Choice} {op : Op}
    (h : g.next s ch = some (op, g')) : GiveBack.Step s g op g' := by
  obtain ⟨d, ids, pc⟩ := g
  unfold next at h
  split at h <;> rename_i hpc <;> simp only at hpc <;> subst hpc
  · split at h <;> cases h
    split
    · rename_i hok
      rw [hok]
      exact .sent
    · rename_i hok
      rw [Bool.not_eq_true] at hok
      rw [hok]
      exact .failed
  · cases h
    exact .booked
  · split at h <;> cases h
    exact .book ‹_›
  · cases h

-- ---------------------------------------------------------------------------
-- Vm::return_eph_memory_from_consumer
-- ---------------------------------------------------------------------------

inductive ReturnCall.Step (tid : Tid) (s : Shared) : ReturnCall → Op → ReturnCall → Prop
  | group {allocs todo : List AllocId} {x : AllocId} {cons : List (VmId × List AllocId)}
      {dons : List (DonorAllocation × List AllocId)} :
      s.exited (s.alloc x).consumerVm = false →
      Step tid s ⟨allocs, .organize (x :: todo) cons dons⟩ .nop
        ⟨allocs, .take x todo (pushGroup (s.alloc x).consumerVm x cons) dons⟩
  | consumerGone {allocs todo : List AllocId} {x : AllocId} {cons : List (VmId × List AllocId)}
      {dons : List (DonorAllocation × List AllocId)} :
      s.exited (s.alloc x).consumerVm = true →
      Step tid s ⟨allocs, .organize (x :: todo) cons dons⟩ .nop ⟨allocs, .take x todo cons dons⟩
  | organized {allocs : List AllocId} {cons : List (VmId × List AllocId)}
      {dons : List (DonorAllocation × List AllocId)} :
      Step tid s ⟨allocs, .organize [] cons dons⟩ .nop
        ⟨allocs, .release (cons.map fun g => ⟨g.1, g.2, dons.flatMap Prod.snd, .enter⟩) dons⟩
  | notTaken {allocs todo : List AllocId} {x : AllocId} {cons : List (VmId × List AllocId)}
      {dons : List (DonorAllocation × List AllocId)} :
      (s.alloc x).abandonOrTakeDonor.1 = none →
      Step tid s ⟨allocs, .take x todo cons dons⟩ (.abandon x) ⟨allocs, .organize todo cons dons⟩
  | taken {allocs todo : List AllocId} {x : AllocId} {cons : List (VmId × List AllocId)}
      {dons : List (DonorAllocation × List AllocId)} {d : DonorAllocation} :
      (s.alloc x).abandonOrTakeDonor.1 = some d →
      Step tid s ⟨allocs, .take x todo cons dons⟩ (.abandon x) ⟨allocs, .check x d todo cons dons⟩
  | donorThere {allocs todo : List AllocId} {x : AllocId} {cons : List (VmId × List AllocId)}
      {dons : List (DonorAllocation × List AllocId)} {d : DonorAllocation} :
      s.exited d.donorVm = false →
      Step tid s ⟨allocs, .check x d todo cons dons⟩ .nop
        ⟨allocs, .organize todo cons (pushGroup d x dons)⟩
  | donorGone {allocs todo : List AllocId} {x : AllocId} {cons : List (VmId × List AllocId)}
      {dons : List (DonorAllocation × List AllocId)} {d : DonorAllocation} :
      s.exited d.donorVm = true →
      Step tid s ⟨allocs, .check x d todo cons dons⟩ .nop ⟨allocs, .organize todo cons dons⟩
  | release {allocs : List AllocId} {calls : List ReleaseCall}
      {dons : List (DonorAllocation × List AllocId)} {i : Nat} {r r' : ReleaseCall} {op : Op} :
      calls[i]? = some r → ReleaseCall.Step tid s r op r' →
      Step tid s ⟨allocs, .release calls dons⟩ op ⟨allocs, .release (calls.set i r') dons⟩
  | released {allocs : List AllocId} {calls : List ReleaseCall}
      {dons : List (DonorAllocation × List AllocId)} :
      (∀ r ∈ calls, r.pc = .done) →
      Step tid s ⟨allocs, .release calls dons⟩ .nop
        ⟨allocs, .giveBack (dons.map fun g => ⟨g.1, g.2, .send⟩)⟩
  | giveBack {allocs : List AllocId} {calls : List GiveBack} {i : Nat} {g g' : GiveBack}
      {op : Op} :
      calls[i]? = some g → GiveBack.Step s g op g' →
      Step tid s ⟨allocs, .giveBack calls⟩ op ⟨allocs, .giveBack (calls.set i g')⟩
  | returned {allocs : List AllocId} {calls : List GiveBack} :
      (∀ g ∈ calls, g.pc = .done) →
      Step tid s ⟨allocs, .giveBack calls⟩ .nop ⟨allocs, .done⟩

/-- Whatever a return does next is one of its steps, whichever of its parallel
calls is scheduled. -/
theorem ReturnCall.step_of_next {tid : Tid} {s : Shared} {r r' : ReturnCall} {ch : Choice}
    {op : Op} (h : r.next tid s ch = some (op, r')) : ReturnCall.Step tid s r op r' := by
  obtain ⟨allocs, pc⟩ := r
  unfold next at h
  split at h <;> rename_i hpc <;> simp only at hpc <;> subst hpc
  · cases h
    split
    · exact .consumerGone ‹_›
    · exact .group (Bool.eq_false_of_not_eq_true ‹_›)
  · cases h
    exact .organized
  · split at h <;> cases h
    · exact .notTaken ‹_›
    · exact .taken ‹_›
  · cases h
    split
    · exact .donorGone ‹_›
    · exact .donorThere (Bool.eq_false_of_not_eq_true ‹_›)
  · split at h
    · split at h <;> cases h
      rename_i hn
      obtain ⟨a, a', ha, hf, rfl⟩ := stepNth_some hn
      exact .release ha (ReleaseCall.step_of_next hf)
    · split at h <;> cases h
      rename_i hAll
      exact .released fun r hr => by simpa [ReleaseCall.isDone] using List.all_eq_true.mp hAll r hr
    · cases h
  · split at h
    · split at h <;> cases h
      rename_i hn
      obtain ⟨a, a', ha, hf, rfl⟩ := stepNth_some hn
      exact .giveBack ha (GiveBack.step_of_next hf)
    · split at h <;> cases h
      rename_i hAll
      exact .returned fun g hg => by simpa [GiveBack.isDone] using List.all_eq_true.mp hAll g hg
    · cases h
  · cases h

-- ---------------------------------------------------------------------------
-- DonorState::allocate_eph_memory
-- ---------------------------------------------------------------------------

inductive AllocCall.Step (s : Shared) : AllocCall → Op → AllocCall → Prop
  | backedAll {backed : List AllocId} {last : Option SocketPath} :
      Step s ⟨backed, [], last, .loop⟩ .nop ⟨backed, [], last, .done⟩
  | look {backed rest : List AllocId} {last : Option SocketPath} :
      Step s ⟨backed, rest, last, .loop⟩ .readVmList
        ⟨backed, rest, last, .scan (candidates s last)⟩
  | noDonor {backed rest : List AllocId} {last : Option SocketPath} :
      Step s ⟨backed, rest, last, .scan []⟩ .unreadVmList ⟨backed, rest, last, .done⟩
  | full {backed rest : List AllocId} {last : Option SocketPath} {v : VmId} {vms : List VmId} :
      Step s ⟨backed, rest, last, .scan (v :: vms)⟩ .nop ⟨backed, rest, last, .scan vms⟩
  | reserve {backed rest : List AllocId} {last : Option SocketPath} {v : VmId} {vms : List VmId}
      {r : DonatableRegion} {size : Nat} :
      s.donorLock v = none → s.region? ⟨v, r.path⟩ = some r → r.hasRoom = true →
      size = r.sizeToAllocate (granularity * rest.length) → size / granularity ≤ rest.length →
      Step s ⟨backed, rest, last, .scan (v :: vms)⟩
        (.reserveFromRegion ⟨v, r.path⟩ size (rest.take (size / granularity)))
        ⟨backed, rest, last, .donate ⟨v, r.path⟩ size⟩
  | reserveOut {backed rest : List AllocId} {last : Option SocketPath} {v : VmId}
      {vms : List VmId} {r : DonatableRegion} :
      rest.length < r.sizeToAllocate (granularity * rest.length) / granularity →
      Step s ⟨backed, rest, last, .scan (v :: vms)⟩ (.panic .sliceIndex)
        ⟨backed, rest, last, .done⟩
  | donate {backed rest : List AllocId} {last : Option SocketPath} {d : DonorAllocation}
      {size : Nat} {granted : Option Nat} :
      Step s ⟨backed, rest, last, .donate d size⟩ (.ephMemDonateCapacity d size granted)
        ⟨backed, rest, last, .confirm d size granted⟩
  | refused {backed rest : List AllocId} {last : Option SocketPath} {d : DonorAllocation}
      {size : Nat} :
      s.donorLock d.donorVm = none →
      Step s ⟨backed, rest, last, .confirm d size none⟩
        (.handleReservedAlloc d (rest.take (size / granularity)) size 0)
        ⟨backed, rest, some (s.vm d.donorVm).qmpSocketPath, .loop⟩
  | regionGone {backed rest : List AllocId} {last : Option SocketPath} {d : DonorAllocation}
      {size granted : Nat} :
      s.region? d = none →
      Step s ⟨backed, rest, last, .confirm d size (some granted)⟩
        (.handleReservedAlloc d (rest.take (size / granularity)) size granted)
        ⟨backed, rest, last, .commit d 0 []⟩
  | owing {backed rest : List AllocId} {last : Option SocketPath} {d : DonorAllocation}
      {size granted : Nat} {r : DonatableRegion} :
      s.donorLock d.donorVm = none → s.region? d = some r →
      r.finalSize size granted / granularity ≤ (rest.take (size / granularity)).length →
      Step s ⟨backed, rest, last, .confirm d size (some granted)⟩
        (.handleReservedAlloc d (rest.take (size / granularity)) size granted)
        ⟨backed, rest, last, .handBack d (r.finalSize size granted / granularity)
          (r.toRevoke size granted + DonatableRegion.excess size granted)⟩
  | confirmed {backed rest : List AllocId} {last : Option SocketPath} {d : DonorAllocation}
      {size granted : Nat} {r : DonatableRegion} :
      s.donorLock d.donorVm = none → s.region? d = some r →
      r.finalSize size granted / granularity ≤ (rest.take (size / granularity)).length →
      r.toRevoke size granted + DonatableRegion.excess size granted = 0 →
      Step s ⟨backed, rest, last, .confirm d size (some granted)⟩
        (.handleReservedAlloc d (rest.take (size / granularity)) size granted)
        ⟨backed, rest, last, .commit d (r.finalSize size granted / granularity) []⟩
  | confirmOut {backed rest : List AllocId} {last : Option SocketPath} {d : DonorAllocation}
      {size granted : Nat} {r : DonatableRegion} :
      (rest.take (size / granularity)).length < r.finalSize size granted / granularity →
      Step s ⟨backed, rest, last, .confirm d size (some granted)⟩ (.panic .sliceIndex)
        ⟨backed, rest, last, .done⟩
  | handBack {backed rest : List AllocId} {last : Option SocketPath} {d : DonorAllocation}
      {n toRevoke : Nat} {ok : Bool} :
      Step s ⟨backed, rest, last, .handBack d n toRevoke⟩ (.ephMemReturnCapacity d toRevoke [] ok)
        ⟨backed, rest, last, .commit d n []⟩
  | allLive {backed rest : List AllocId} {last : Option SocketPath} {d : DonorAllocation} :
      Step s ⟨backed, rest, last, .commit d 0 []⟩ .nop
        ⟨backed, rest, some (s.vm d.donorVm).qmpSocketPath, .loop⟩
  | someAbandoned {backed rest abandoned : List AllocId} {last : Option SocketPath}
      {d : DonorAllocation} :
      Step s ⟨backed, rest, last, .commit d 0 abandoned⟩ .nop
        ⟨backed, rest, last, .giveBack ⟨d, abandoned, .send⟩⟩
  | commitOut {backed abandoned : List AllocId} {last : Option SocketPath} {d : DonorAllocation}
      {n : Nat} :
      Step s ⟨backed, [], last, .commit d (n + 1) abandoned⟩ (.panic .sliceIndex)
        ⟨backed, [], last, .done⟩
  | setDonor {backed rest abandoned : List AllocId} {last : Option SocketPath}
      {d : DonorAllocation} {n : Nat} {x : AllocId} :
      (s.alloc x).donorInfo = none →
      Step s ⟨backed, x :: rest, last, .commit d (n + 1) abandoned⟩ (.setDonorInfo x d)
        ⟨backed, rest, last, .commitState d x n abandoned⟩
  | donorSet {backed rest abandoned : List AllocId} {last : Option SocketPath}
      {d : DonorAllocation} {n : Nat} {x : AllocId} :
      (s.alloc x).donorInfo ≠ none →
      Step s ⟨backed, x :: rest, last, .commit d (n + 1) abandoned⟩ (.panic .donorInfoSetTwice)
        ⟨backed, x :: rest, last, .done⟩
  | committedTwice {backed rest abandoned : List AllocId} {last : Option SocketPath}
      {d : DonorAllocation} {n : Nat} {x : AllocId} :
      (s.alloc x).parked = true →
      Step s ⟨backed, rest, last, .commitState d x n abandoned⟩ (.commitState x)
        ⟨backed, rest, last, .done⟩
  | live {backed rest abandoned : List AllocId} {last : Option SocketPath}
      {d : DonorAllocation} {n : Nat} {x : AllocId} :
      (s.alloc x).state = .pendingCommit →
      Step s ⟨backed, rest, last, .commitState d x n abandoned⟩ (.commitState x)
        ⟨backed ++ [x], rest, last, .commit d n abandoned⟩
  | dead {backed rest abandoned : List AllocId} {last : Option SocketPath}
      {d : DonorAllocation} {n : Nat} {x : AllocId} :
      (s.alloc x).state = .abandoned →
      Step s ⟨backed, rest, last, .commitState d x n abandoned⟩ (.commitState x)
        ⟨backed ++ [x], rest, last, .commit d n (abandoned ++ [x])⟩
  | giveBack {backed rest : List AllocId} {last : Option SocketPath} {g g' : GiveBack} {op : Op} :
      GiveBack.Step s g op g' →
      Step s ⟨backed, rest, last, .giveBack g⟩ op ⟨backed, rest, last, .giveBack g'⟩
  | gaveBack {backed rest : List AllocId} {last : Option SocketPath} {g : GiveBack} :
      g.pc = .done →
      Step s ⟨backed, rest, last, .giveBack g⟩ .nop ⟨backed, rest, last, .done⟩

/-- Whatever a grant does next is one of its steps. -/
theorem AllocCall.step_of_next {s : Shared} {a a' : AllocCall} {ch : Choice} {op : Op}
    (h : a.next s ch = some (op, a')) : AllocCall.Step s a op a' := by
  obtain ⟨backed, rest, last, pc⟩ := a
  unfold next at h
  split at h <;> rename_i hpc <;> simp only at hpc <;> subst hpc
  · -- the loop
    split at h <;> cases h
    · rename_i hnil
      simp only at hnil
      subst hnil
      exact .backedAll
    · exact .look
  · cases h
    exact .noDonor
  · -- one donor
    split at h
    · rename_i hLock
      split at h
      · cases h
        exact .full
      · rename_i r hr
        have hMem := List.mem_of_find?_eq_some hr
        simp only at h
        split at h <;> cases h
        · rename_i hLe
          exact .reserve hLock (DonorState.findRegion_of_mem hMem) (List.find?_some hr) rfl hLe
        · rename_i hLe
          exact .reserveOut (Nat.lt_of_not_le hLe)
    · cases h
  · split at h <;> cases h
    exact .donate
  · -- handle_reserved_alloc
    rename_i d size granted
    split at h
    · rename_i hLock
      split at h
      · cases h
        exact .refused hLock
      · split at h
        · cases h
          exact .regionGone ‹_›
        · rename_i granted _ r hr
          simp only at h
          split at h <;> rename_i hLe <;> cases h
          · split
            · exact .owing hLock hr hLe
            · rename_i hZero
              exact .confirmed hLock hr hLe (Nat.eq_zero_of_not_pos hZero)
          · exact .confirmOut (Nat.lt_of_not_le hLe)
    · cases h
  · split at h <;> cases h
    exact .handBack
  · split at h <;> cases h
    · rename_i hnil
      subst hnil
      exact .allLive
    · exact .someAbandoned
  · split at h
    · rename_i hnil
      simp only at hnil
      subst hnil
      cases h
      exact .commitOut
    · rename_i hcons
      simp only at hcons
      subst hcons
      split at h <;> cases h
      · exact .setDonor ‹_›
      · exact .donorSet ‹_›
  · rename_i x n abandoned
    cases hs : (s.alloc x).state with
    | pendingCommit =>
      simp only [EphAllocation.commitState, hs] at h
      cases h
      exact .live hs
    | committed =>
      simp only [EphAllocation.commitState, hs] at h
      cases h
      exact .committedTwice (by simp [EphAllocation.parked, hs])
    | pendingRelease =>
      simp only [EphAllocation.commitState, hs] at h
      cases h
      exact .committedTwice (by simp [EphAllocation.parked, hs])
    | abandoned =>
      simp only [EphAllocation.commitState, hs] at h
      cases h
      exact .dead hs
  · split at h
    · cases h
      rename_i hDone
      exact .gaveBack (by simpa [GiveBack.isDone] using hDone)
    · split at h <;> cases h
      rename_i hg
      exact .giveBack (GiveBack.step_of_next hg)
  · cases h

-- ---------------------------------------------------------------------------
-- ConsumerState::handle_eph_mem_request
-- ---------------------------------------------------------------------------

inductive Request.Step (tid : Tid) (s : Shared) : Request → Op → Request → Prop
  | tooLarge {c : VmId} {size : Nat} :
      Step tid s ⟨c, .start size⟩ .nop ⟨c, .done false⟩
  | rounded {c : VmId} {size aligned : Nat} :
      checkedNextMultipleOf size = some aligned →
      Step tid s ⟨c, .start size⟩ .nop ⟨c, .reserve aligned []⟩
  | reserve {c : VmId} {remaining : Nat} {rsvd : List AllocId} :
      s.consumerLock c = none → s.newOffsets c remaining ≠ [] →
      Step tid s ⟨c, .reserve remaining rsvd⟩ (.reserveMemoryContig c remaining)
        ⟨c, .reserve (remaining - (s.newOffsets c remaining).length * granularity)
          (rsvd ++ s.newIds c remaining)⟩
  | noRoom {c : VmId} {remaining : Nat} :
      Step tid s ⟨c, .reserve remaining []⟩ .nop ⟨c, .done false⟩
  | reserved {c : VmId} {remaining : Nat} {rsvd : List AllocId} :
      Step tid s ⟨c, .reserve remaining rsvd⟩ .nop ⟨c, .allocate (.start rsvd) rsvd⟩
  | allocate {c : VmId} {call call' : AllocCall} {rsvd : List AllocId} {op : Op} :
      AllocCall.Step s call op call' →
      Step tid s ⟨c, .allocate call rsvd⟩ op ⟨c, .allocate call' rsvd⟩
  | allocated {c : VmId} {call : AllocCall} {rsvd : List AllocId} :
      call.pc = .done →
      Step tid s ⟨c, .allocate call rsvd⟩ .nop ⟨c, .drop ⟨c, call.rest, [], .enter⟩ rsvd⟩
  | drop {c : VmId} {call call' : ReleaseCall} {rsvd : List AllocId} {op : Op} :
      ReleaseCall.Step tid s call op call' →
      Step tid s ⟨c, .drop call rsvd⟩ op ⟨c, .drop call' rsvd⟩
  | dropped {c : VmId} {call : ReleaseCall} {rsvd : List AllocId} :
      call.pc = .done → Step tid s ⟨c, .drop call rsvd⟩ .nop ⟨c, .retain rsvd []⟩
  | keep {c : VmId} {todo kept : List AllocId} {x : AllocId} :
      (s.alloc x).state = .committed → (s.alloc x).releaseRequested = false →
      Step tid s ⟨c, .retain (x :: todo) kept⟩ .nop ⟨c, .retain todo (kept ++ [x])⟩
  | skip {c : VmId} {todo kept : List AllocId} {x : AllocId} :
      (s.alloc x).state = .committed → (s.alloc x).releaseRequested = true →
      Step tid s ⟨c, .retain (x :: todo) kept⟩ .nop ⟨c, .retain todo kept⟩
  | skipOther {c : VmId} {todo kept : List AllocId} {x : AllocId} :
      (s.alloc x).state ≠ .committed →
      Step tid s ⟨c, .retain (x :: todo) kept⟩ .nop ⟨c, .retain todo kept⟩
  | noneKept {c : VmId} : Step tid s ⟨c, .retain [] []⟩ .nop ⟨c, .done false⟩
  | kept {c : VmId} {kept : List AllocId} :
      Step tid s ⟨c, .retain [] kept⟩ .nop ⟨c, .add kept⟩
  | added {c : VmId} {rsvd : List AllocId} :
      Step tid s ⟨c, .add rsvd⟩ (.cxlAddDynamicCapacity c rsvd true) ⟨c, .wait rsvd⟩
  | addFailed {c : VmId} {rsvd : List AllocId} :
      Step tid s ⟨c, .add rsvd⟩ (.cxlAddDynamicCapacity c rsvd false)
        ⟨c, .returnAll (.start rsvd)⟩
  | waited {c : VmId} {rsvd : List AllocId} :
      Step tid s ⟨c, .wait rsvd⟩ .nop ⟨c, .partition rsvd [] []⟩
  | live {c : VmId} {todo live dead : List AllocId} {x : AllocId} :
      (s.alloc x).isLive = true →
      Step tid s ⟨c, .partition (x :: todo) live dead⟩ .nop
        ⟨c, .partition todo (live ++ [x]) dead⟩
  | dead {c : VmId} {todo live dead : List AllocId} {x : AllocId} :
      (s.alloc x).isLive = false →
      Step tid s ⟨c, .partition (x :: todo) live dead⟩ .nop
        ⟨c, .partition todo live (dead ++ [x])⟩
  | allLive {c : VmId} {live : List AllocId} :
      Step tid s ⟨c, .partition [] live []⟩ .nop ⟨c, afterDead live⟩
  | someDead {c : VmId} {live dead : List AllocId} :
      Step tid s ⟨c, .partition [] live dead⟩ .nop ⟨c, .returnDead (.start dead) live⟩
  | returnDead {c : VmId} {call call' : ReturnCall} {live : List AllocId} {op : Op} :
      ReturnCall.Step tid s call op call' →
      Step tid s ⟨c, .returnDead call live⟩ op ⟨c, .returnDead call' live⟩
  | returnedDead {c : VmId} {call : ReturnCall} {live : List AllocId} :
      call.pc = .done → Step tid s ⟨c, .returnDead call live⟩ .nop ⟨c, afterDead live⟩
  | responded {c : VmId} {live : List AllocId} :
      Step tid s ⟨c, .respond [] live⟩ .nop ⟨c, .done true⟩
  | respond {c : VmId} {todo live : List AllocId} {x : AllocId} :
      Step tid s ⟨c, .respond (x :: todo) live⟩ (.ephMemResponse c x) ⟨c, .respond todo live⟩
  | respondFailed {c : VmId} {todo live : List AllocId} {x : AllocId} :
      Step tid s ⟨c, .respond (x :: todo) live⟩ .nop ⟨c, .returnAll (.start live)⟩
  | returnAll {c : VmId} {call call' : ReturnCall} {op : Op} :
      ReturnCall.Step tid s call op call' →
      Step tid s ⟨c, .returnAll call⟩ op ⟨c, .returnAll call'⟩
  | returnedAll {c : VmId} {call : ReturnCall} :
      call.pc = .done → Step tid s ⟨c, .returnAll call⟩ .nop ⟨c, .done false⟩
  | requestDone {c : VmId} {ok : Bool} : Step tid s ⟨c, .done ok⟩ (.requestDone c) ⟨c, .returned⟩

theorem ReleaseCall.pc_of_isDone {r : ReleaseCall} (h : r.isDone = true) : r.pc = .done := by
  simpa [isDone] using h

theorem ReturnCall.pc_of_isDone {r : ReturnCall} (h : r.isDone = true) : r.pc = .done := by
  simpa [isDone] using h

theorem AllocCall.pc_of_isDone {a : AllocCall} (h : a.isDone = true) : a.pc = .done := by
  simpa [isDone] using h

/-- The reservation loop, one reservation a turn, waits for the consumer's mutex. -/
theorem Request.next_reserve (tid : Tid) (s : Shared) (ch : Choice) (c : VmId)
    (remaining : Nat) (rsvd : List AllocId) :
    Request.next tid s ⟨c, .reserve remaining rsvd⟩ ch =
      if remaining > 0 ∧ s.consumerLock c ≠ none then none
      else if remaining > 0 ∧ s.newOffsets c remaining ≠ [] then
        some (.reserveMemoryContig c remaining,
          ⟨c, .reserve (remaining - (s.newOffsets c remaining).length * granularity)
            (rsvd ++ s.newIds c remaining)⟩)
      else if rsvd = [] then some (.nop, ⟨c, .done false⟩)
      else some (.nop, ⟨c, .allocate (.start rsvd) rsvd⟩) := rfl

/-- The size is rounded up first, and out of range the request fails. -/
theorem Request.next_start (tid : Tid) (s : Shared) (ch : Choice) (c : VmId) (size : Nat) :
    Request.next tid s ⟨c, .start size⟩ ch =
      match checkedNextMultipleOf size with
      | none => some (.nop, ⟨c, .done false⟩)
      | some size => some (.nop, ⟨c, .reserve size []⟩) := rfl

/-- A request's first step: it goes on with a size, or fails. -/
theorem Request.step_of_start {tid : Tid} {s : Shared} {c : VmId} {size : Nat} {q' : Request}
    {ch : Choice} {op : Op} (h : Request.next tid s ⟨c, .start size⟩ ch = some (op, q')) :
    Request.Step tid s ⟨c, .start size⟩ op q' := by
  rw [next_start] at h
  generalize hAligned : checkedNextMultipleOf size = aligned at h
  cases aligned with
  | none =>
    cases h
    exact .tooLarge
  | some aligned =>
    cases h
    exact .rounded hAligned

/-- A turn of the reservation loop: it reserves more, allocates, or fails with
nothing reserved. -/
theorem Request.step_of_reserve {tid : Tid} {s : Shared} {c : VmId} {remaining : Nat}
    {rsvd : List AllocId} {q' : Request} {ch : Choice} {op : Op}
    (h : Request.next tid s ⟨c, .reserve remaining rsvd⟩ ch = some (op, q')) :
    Request.Step tid s ⟨c, .reserve remaining rsvd⟩ op q' := by
  rw [next_reserve] at h
  by_cases hBusy : remaining > 0 ∧ s.consumerLock c ≠ none
  · rw [if_pos hBusy] at h
    cases h
  · rw [if_neg hBusy] at h
    by_cases hSome : remaining > 0 ∧ s.newOffsets c remaining ≠ []
    · rw [if_pos hSome] at h
      cases h
      refine .reserve ?_ hSome.2
      by_contra hne
      exact hBusy ⟨hSome.1, hne⟩
    · rw [if_neg hSome] at h
      by_cases hnil : rsvd = []
      · rw [if_pos hnil] at h
        cases h
        rw [hnil]
        exact .noRoom
      · rw [if_neg hnil] at h
        cases h
        exact .reserved

/-- Keeping what is live is one step an allocation. -/
theorem Request.step_of_retain {tid : Tid} {s : Shared} {c : VmId} {todo kept : List AllocId}
    {x : AllocId} :
    Request.Step tid s ⟨c, .retain (x :: todo) kept⟩ .nop
      ⟨c, .retain todo (if (s.alloc x).isCommitted && !(s.alloc x).isReleaseRequested
        then kept ++ [x] else kept)⟩ := by
  by_cases hs : (s.alloc x).state = .committed
  · cases hr : (s.alloc x).releaseRequested with
    | true =>
      rw [if_neg (by simp [EphAllocation.isReleaseRequested, hr])]
      exact .skip hs hr
    | false =>
      rw [if_pos (by simp [EphAllocation.isCommitted, EphAllocation.isReleaseRequested, hs, hr])]
      exact .keep hs hr
  · rw [if_neg (by simp [EphAllocation.isCommitted, hs])]
    exact .skipOther hs

/-- Whatever a request does next is one of its steps. -/
theorem Request.step_of_next {tid : Tid} {s : Shared} {q q' : Request} {ch : Choice} {op : Op}
    (h : q.next tid s ch = some (op, q')) : Request.Step tid s q op q' := by
  obtain ⟨c, pc⟩ := q
  cases pc with
  | start size => exact step_of_start h
  | reserve remaining rsvd => exact step_of_reserve h
  | allocate call rsvd =>
    unfold next at h
    simp only at h
    split at h
    · cases h
      exact .allocated (AllocCall.pc_of_isDone ‹_›)
    · split at h <;> cases h
      rename_i hn
      exact .allocate (AllocCall.step_of_next hn)
  | drop call rsvd =>
    unfold next at h
    simp only at h
    split at h
    · cases h
      exact .dropped (ReleaseCall.pc_of_isDone ‹_›)
    · split at h <;> cases h
      rename_i hn
      exact .drop (ReleaseCall.step_of_next hn)
  | retain todo kept =>
    cases todo with
    | cons x todo =>
      unfold next at h
      cases h
      exact step_of_retain
    | nil =>
      unfold next at h
      cases h
      split
      · rename_i hnil
        subst hnil
        exact .noneKept
      · exact .kept
  | add rsvd =>
    unfold next at h
    simp only at h
    split at h <;> cases h
    split
    · rename_i hok
      rw [hok]
      exact .added
    · rename_i hok
      rw [Bool.not_eq_true] at hok
      rw [hok]
      exact .addFailed
  | wait rsvd =>
    unfold next at h
    simp only at h
    split at h
    · cases h
      exact .waited
    · split at h <;> cases h
      exact .waited
    · cases h
  | partition todo live dead =>
    cases todo with
    | cons x todo =>
      unfold next at h
      cases h
      split
      · exact .live ‹_›
      · exact .dead (Bool.eq_false_of_not_eq_true ‹_›)
    | nil =>
      unfold next at h
      cases h
      split
      · rename_i hnil
        subst hnil
        exact .allLive
      · exact .someDead
  | returnDead call live =>
    unfold next at h
    simp only at h
    split at h
    · cases h
      exact .returnedDead (ReturnCall.pc_of_isDone ‹_›)
    · split at h <;> cases h
      rename_i hn
      exact .returnDead (ReturnCall.step_of_next hn)
  | respond todo live =>
    cases todo with
    | nil =>
      unfold next at h
      cases h
      exact .responded
    | cons x todo =>
      unfold next at h
      simp only at h
      split at h <;> cases h
      · exact .respond
      · exact .respondFailed
  | returnAll call =>
    unfold next at h
    simp only at h
    split at h
    · cases h
      exact .returnedAll (ReturnCall.pc_of_isDone ‹_›)
    · split at h <;> cases h
      rename_i hn
      exact .returnAll (ReturnCall.step_of_next hn)
  | done ok =>
    cases h
    exact .requestDone
  | returned => cases h

-- ---------------------------------------------------------------------------
-- DonorState::revoke_eph_memory
-- ---------------------------------------------------------------------------

inductive Revoke.Step (tid : Tid) (s : Shared) : Revoke → Op → Revoke → Prop
  | nothing {d : DonorAllocation} {size : Nat} :
      Step tid s ⟨d, .start size⟩ .nop ⟨d, .done⟩
  | enter {d : DonorAllocation} {size aligned : Nat} {r : DonatableRegion} :
      checkedNextMultipleOf size = some aligned → s.donorLock d.donorVm = none →
      s.region? d = some r →
      Step tid s ⟨d, .start size⟩ (.beginRevoke d aligned tid)
        ⟨d, .select r.allocations.values.reverse [] aligned⟩
  | enough {d : DonorAllocation} {todo claimed : List AllocId} {remaining : Nat} :
      todo = [] ∨ remaining = 0 →
      Step tid s ⟨d, .select todo claimed remaining⟩ (.bookDebt d remaining)
        ⟨d, .giveBack (.start claimed)⟩
  | claim {d : DonorAllocation} {todo claimed : List AllocId} {x : AllocId} {remaining : Nat} :
      remaining ≠ 0 → (s.alloc x).state = .committed →
      Step tid s ⟨d, .select (x :: todo) claimed remaining⟩ (.tryClaim d x)
        ⟨d, .select todo (claimed ++ [x]) (remaining - granularity)⟩
  | pass {d : DonorAllocation} {todo claimed : List AllocId} {x : AllocId} {remaining : Nat} :
      (s.alloc x).state ≠ .committed →
      Step tid s ⟨d, .select (x :: todo) claimed remaining⟩ (.tryClaim d x)
        ⟨d, .select todo claimed remaining⟩
  | giveBack {d : DonorAllocation} {call call' : ReturnCall} {op : Op} :
      ReturnCall.Step tid s call op call' →
      Step tid s ⟨d, .giveBack call⟩ op ⟨d, .giveBack call'⟩
  | gaveBack {d : DonorAllocation} {call : ReturnCall} :
      call.pc = .done → Step tid s ⟨d, .giveBack call⟩ .nop ⟨d, .done⟩

/-- A revoke claims what is committed. -/
theorem tryClaimForRevoke_fst (a : EphAllocation) :
    a.tryClaimForRevoke.1 = true ↔ a.state = .committed := by
  unfold EphAllocation.tryClaimForRevoke
  split <;> simp_all

/-- The walk over the region's allocations stops when enough are claimed. -/
theorem Revoke.next_select (tid : Tid) (s : Shared) (ch : Choice) (d : DonorAllocation)
    (x : AllocId) (todo claimed : List AllocId) (remaining : Nat) :
    Revoke.next tid s ⟨d, .select (x :: todo) claimed remaining⟩ ch =
      if remaining = 0 then some (.bookDebt d 0, ⟨d, .giveBack (.start claimed)⟩)
      else some (.tryClaim d x, ⟨d,
        if (s.alloc x).tryClaimForRevoke.1 then
          .select todo (claimed ++ [x]) (remaining - granularity)
        else .select todo claimed remaining⟩) := rfl

/-- A revoke waits for its donor's mutex, and ends where there is no such region. -/
theorem Revoke.next_start (tid : Tid) (s : Shared) (ch : Choice) (d : DonorAllocation)
    (size : Nat) :
    Revoke.next tid s ⟨d, .start size⟩ ch =
      match checkedNextMultipleOf size with
      | none => some (.nop, ⟨d, .done⟩)
      | some size =>
        if s.donorLock d.donorVm = none then
          match s.region? d with
          | none => some (.nop, ⟨d, .done⟩)
          | some r =>
            some (.beginRevoke d size tid, ⟨d, .select r.allocations.values.reverse [] size⟩)
        else none := rfl

/-- A revoke's first step: it begins, or there is nothing to do. -/
theorem Revoke.step_of_start {tid : Tid} {s : Shared} {d : DonorAllocation} {size : Nat}
    {v' : Revoke} {ch : Choice} {op : Op}
    (h : Revoke.next tid s ⟨d, .start size⟩ ch = some (op, v')) :
    Revoke.Step tid s ⟨d, .start size⟩ op v' := by
  rw [next_start] at h
  generalize hAligned : checkedNextMultipleOf size = aligned at h
  cases aligned with
  | none =>
    cases h
    exact .nothing
  | some aligned =>
    simp only at h
    split at h
    · split at h <;> cases h
      · exact .nothing
      · exact .enter hAligned ‹_› ‹_›
    · cases h

/-- Whatever a revoke does next is one of its steps. -/
theorem Revoke.step_of_next {tid : Tid} {s : Shared} {v v' : Revoke} {ch : Choice} {op : Op}
    (h : v.next tid s ch = some (op, v')) : Revoke.Step tid s v op v' := by
  obtain ⟨d, pc⟩ := v
  cases pc with
  | start size => exact step_of_start h
  | select todo claimed remaining =>
    cases todo with
    | nil =>
      unfold next at h
      cases h
      exact .enough (Or.inl rfl)
    | cons x todo =>
      rw [next_select] at h
      by_cases hRem : remaining = 0
      · rw [if_pos hRem] at h
        cases h
        rw [← hRem]
        exact .enough (Or.inr hRem)
      · rw [if_neg hRem] at h
        by_cases hs : (s.alloc x).tryClaimForRevoke.1 = true
        · rw [if_pos hs] at h
          cases h
          exact .claim hRem ((tryClaimForRevoke_fst _).mp hs)
        · rw [if_neg hs] at h
          cases h
          exact .pass fun hc => hs ((tryClaimForRevoke_fst _).mpr hc)
  | giveBack call =>
    unfold next at h
    simp only at h
    split at h
    · cases h
      exact .gaveBack (ReturnCall.pc_of_isDone ‹_›)
    · split at h <;> cases h
      rename_i hn
      exact .giveBack (ReturnCall.step_of_next hn)
  | done => cases h

-- ---------------------------------------------------------------------------
-- The event handler
-- ---------------------------------------------------------------------------

inductive EventLoop.Step (s : Shared) : EventLoop → Op → EventLoop → List Revoke → Prop
  | ignored : Step s .idle .nextEvent .idle []
  | addEvent {path : SocketPath} {source c : VmId} {extents : List Extent}
      {about : List AllocId} {rest : List QmpEvent} :
      s.events = ⟨path, source, .cxlAddDynamicCapacityResponse extents about⟩ :: rest →
      s.getConsumer path = some c → Step s .idle .nextEvent (.signalAdd c extents about) []
  | releaseEvent {path : SocketPath} {source c : VmId} {extents : List Extent}
      {about : List AllocId} {rest : List QmpEvent} :
      s.events = ⟨path, source, .cxlReleaseDynamicCapacity extents about⟩ :: rest →
      s.getConsumer path = some c → Step s .idle .nextEvent (.signalRelease c extents about) []
  | revokeEvent {path : SocketPath} {source v : VmId} {qom : QomPath} {size : Nat}
      {rest : List QmpEvent} :
      s.events = ⟨path, source, .ephMemRevoke qom size⟩ :: rest →
      s.getDonor path = some v → Step s .idle .nextEvent .idle [⟨⟨v, qom⟩, .start size⟩]
  | signalAdd {c : VmId} {extents : List Extent} {about : List AllocId} {l : EventLoop} :
      s.consumerLock c = none →
      l = .idle ∨ (∃ gaps, l = .releaseGaps c gaps) →
      Step s (.signalAdd c extents about) (.signalAddDc c extents about) l []
  | releaseGaps {c : VmId} {extents : List Extent} {ok : Bool} :
      Step s (.releaseGaps c extents) (.releaseGaps c extents ok) .idle []
  | signalRelease {c : VmId} {extents : List Extent} {about : List AllocId} :
      s.consumerLock c = none →
      Step s (.signalRelease c extents about) (.signalReleaseDc c extents about) .idle []

/-- Whatever the event handler does next is one of its steps. -/
theorem EventLoop.step_of_next {s : Shared} {l l' : EventLoop} {ch : Choice} {op : Op}
    {started : List Revoke} (h : l.next s ch = some (op, l', started)) :
    EventLoop.Step s l op l' started := by
  cases l with
  | idle =>
    unfold next at h
    simp only at h
    split at h
    · cases h
    · rename_i e rest he
      obtain ⟨path, source, data⟩ := e
      unfold dispatch at h
      split at h <;> rename_i hdata <;> simp only at hdata <;> subst hdata
      · split at h <;> cases h
        · exact .ignored
        · exact .addEvent he ‹_›
      · split at h <;> cases h
        · exact .ignored
        · exact .releaseEvent he ‹_›
      · split at h <;> cases h
        · exact .ignored
        · exact .revokeEvent he ‹_›
  | signalAdd c extents about =>
    unfold next at h
    simp only at h
    split at h <;> cases h
    refine .signalAdd ‹_› ?_
    split
    · exact Or.inl rfl
    · exact Or.inr ⟨_, rfl⟩
  | releaseGaps c extents =>
    unfold next at h
    simp only at h
    split at h <;> cases h
    exact .releaseGaps
  | signalRelease c extents about =>
    unfold next at h
    simp only at h
    split at h <;> cases h
    exact .signalRelease ‹_›

-- ---------------------------------------------------------------------------
-- The VM detection thread
-- ---------------------------------------------------------------------------

inductive Detection.Step (tid : Tid) (s : Shared) : Detection → Op → Detection → Prop
  | register {v : VmId} :
      v ∉ s.registered → Step tid s .idle (.register v) .idle
  | remove {paths : List SocketPath} :
      Step tid s .idle (.unregister paths) (.removing (paths.eraseDups.filterMap s.vmList.get?))
  | noMore : Step tid s (.removing []) .nop .idle
  | exitConsumer {v : VmId} {vms : List VmId} :
      Step tid s (.removing (v :: vms)) (.setExited v) (.consumerLoop v vms)
  | exitDonor {v : VmId} {vms : List VmId} :
      (s.vm v).consumerSize = none →
      Step tid s (.removing (v :: vms)) (.setExited v) (.donorEnter v vms)
  | again {v : VmId} {vms : List VmId} :
      unrequested s v ≠ [] →
      Step tid s (.consumerLoop v vms) .nop (.consumerReturn (.start (unrequested s v)) v vms)
  | consumerDone {v : VmId} {vms : List VmId} :
      unrequested s v = [] → Step tid s (.consumerLoop v vms) .nop (.donorEnter v vms)
  | consumerReturn {call call' : ReturnCall} {v : VmId} {vms : List VmId} {op : Op} :
      ReturnCall.Step tid s call op call' →
      Step tid s (.consumerReturn call v vms) op (.consumerReturn call' v vms)
  | consumerReturned {call : ReturnCall} {v : VmId} {vms : List VmId} :
      call.pc = .done → Step tid s (.consumerReturn call v vms) .nop (.consumerLoop v vms)
  | notDonor {v : VmId} {vms : List VmId} :
      (s.donor v).donatableRegions = [] →
      Step tid s (.donorEnter v vms) (.removalFinished v) (.removing vms)
  | snapshot {v : VmId} {vms : List VmId} :
      s.donorLock v = none →
      Step tid s (.donorEnter v vms) (.beginSnapshot v tid)
        (.donorCollect ((s.donor v).donatableRegions.flatMap fun r => r.allocations.values) [] v
          vms)
  | collect {x : AllocId} {todo allocs : List AllocId} {v : VmId} {vms : List VmId} :
      (s.alloc x).state = .committed →
      Step tid s (.donorCollect (x :: todo) allocs v vms) .nop
        (.donorCollect todo (allocs ++ [x]) v vms)
  | passOver {x : AllocId} {todo allocs : List AllocId} {v : VmId} {vms : List VmId} :
      (s.alloc x).state ≠ .committed →
      Step tid s (.donorCollect (x :: todo) allocs v vms) .nop (.donorCollect todo allocs v vms)
  | collected {allocs : List AllocId} {v : VmId} {vms : List VmId} :
      Step tid s (.donorCollect [] allocs v vms) (.unlockDonor v)
        (.donorReturn (.start allocs) v vms)
  | donorReturn {call call' : ReturnCall} {v : VmId} {vms : List VmId} {op : Op} :
      ReturnCall.Step tid s call op call' →
      Step tid s (.donorReturn call v vms) op (.donorReturn call' v vms)
  | donorReturned {call : ReturnCall} {v : VmId} {vms : List VmId} :
      call.pc = .done →
      Step tid s (.donorReturn call v vms) (.removalFinished v) (.removing vms)

/-- Whatever the detection does next is one of its steps. -/
theorem Detection.step_of_next {tid : Tid} {s : Shared} {l l' : Detection} {ch : Choice} {op : Op}
    (h : l.next tid s ch = some (op, l')) : Detection.Step tid s l op l' := by
  unfold next at h
  split at h
  · split at h
    · split at h
      · split at h <;> cases h
        rename_i hNew
        exact .register fun hMem => hNew (Or.inr hMem)
      · cases h
        exact .remove
      · cases h
    · cases h
  · cases h
    exact .noMore
  · cases h
    split
    · exact .exitConsumer
    · rename_i hNone
      exact .exitDonor (Option.not_isSome_iff_eq_none.mp hNone)
  · split at h
    · split at h <;> cases h
      · exact .consumerDone ‹_›
      · exact .again ‹_›
    · cases h
  · split at h
    · cases h
      exact .consumerReturned (ReturnCall.pc_of_isDone ‹_›)
    · split at h <;> cases h
      rename_i hn
      exact .consumerReturn (ReturnCall.step_of_next hn)
  · split at h
    · cases h
      exact .notDonor ‹_›
    · split at h <;> cases h
      exact .snapshot ‹_›
  · cases h
    split
    · rename_i hs
      exact .collect (by simpa [EphAllocation.isCommitted] using hs)
    · rename_i hs
      exact .passOver (by simpa [EphAllocation.isCommitted] using hs)
  · cases h
    exact .collected
  · split at h
    · cases h
      exact .donorReturned (ReturnCall.pc_of_isDone ‹_›)
    · split at h <;> cases h
      rename_i hn
      exact .donorReturn (ReturnCall.step_of_next hn)

-- ---------------------------------------------------------------------------
-- The system
-- ---------------------------------------------------------------------------

inductive Task.Step (tid : Tid) (s : Shared) : Task → Op → Task → List Task → Prop
  | events {l l' : EventLoop} {op : Op} {started : List Revoke} :
      EventLoop.Step s l op l' started →
      Step tid s (.events l) op (.events l') (started.map .revoke)
  | detection {l l' : Detection} {op : Op} :
      Detection.Step tid s l op l' → Step tid s (.detection l) op (.detection l') []
  | request {q q' : Request} {op : Op} :
      Request.Step tid s q op q' → Step tid s (.request q) op (.request q') []
  | revoke {v v' : Revoke} {op : Op} :
      Revoke.Step tid s v op v' → Step tid s (.revoke v) op (.revoke v') []

/-- **The steps cover the code**: each thread moves by one of the steps of its kind. -/
theorem Task.step_of_next {tid : Tid} {s : Shared} {t t' : Task} {ch : Choice} {op : Op}
    {started : List Task} (h : t.next tid s ch = some (op, t', started)) :
    Task.Step tid s t op t' started := by
  unfold next at h
  split at h <;> split at h <;> cases h <;> rename_i hn
  · exact .events (EventLoop.step_of_next hn)
  · exact .detection (Detection.step_of_next hn)
  · exact .request (Request.step_of_next hn)
  · exact .revoke (Revoke.step_of_next hn)

-- ---------------------------------------------------------------------------
-- Who performs an operation
-- ---------------------------------------------------------------------------

/-- The code an operation belongs to. Those of the calls that release and
return memory are `shared`: every thread makes such calls. -/
inductive Performer where
  | shared
  | handler
  | detection
  | request
  | grant
  | revoke
  | outside

def Op.performer : Op → Performer
  | .nextEvent => .handler
  | .signalAddDc _ _ _ => .handler
  | .releaseGaps _ _ _ => .handler
  | .signalReleaseDc _ _ _ => .handler
  | .register _ => .detection
  | .unregister _ => .detection
  | .setExited _ => .detection
  | .beginSnapshot _ _ => .detection
  | .unlockDonor _ => .detection
  | .removalFinished _ => .detection
  | .reserveMemoryContig _ _ => .request
  | .cxlAddDynamicCapacity _ _ _ => .request
  | .ephMemResponse _ _ => .request
  | .requestDone _ => .request
  | .reserveFromRegion _ _ _ => .grant
  | .ephMemDonateCapacity _ _ _ => .grant
  | .handleReservedAlloc _ _ _ _ => .grant
  | .setDonorInfo _ _ => .grant
  | .commitState _ => .grant
  | .beginRevoke _ _ _ => .revoke
  | .tryClaim _ _ => .revoke
  | .bookDebt _ _ => .revoke
  | .startRequest _ _ => .outside
  | .emitAdd _ _ _ => .outside
  | .emitRelease _ _ _ => .outside
  | .emitRevoke _ _ _ => .outside
  | _ => .shared

theorem ReleaseCall.Step.performer {tid : Tid} {s : Shared} {r r' : ReleaseCall} {op : Op}
    (h : ReleaseCall.Step tid s r op r') : op.performer = .shared := by
  cases h <;> rfl

theorem GiveBack.Step.performer {s : Shared} {g g' : GiveBack} {op : Op}
    (h : GiveBack.Step s g op g') : op.performer = .shared := by
  cases h <;> rfl

theorem ReturnCall.Step.performer {tid : Tid} {s : Shared} {r r' : ReturnCall} {op : Op}
    (h : ReturnCall.Step tid s r op r') : op.performer = .shared := by
  cases h with
  | release _ hr => exact hr.performer
  | giveBack _ hg => exact hg.performer
  | _ => rfl

/-- A grant performs besides only what is a grant's. -/
theorem AllocCall.Step.performer {s : Shared} {a a' : AllocCall} {op : Op}
    (h : AllocCall.Step s a op a') : op.performer = .shared ∨ op.performer = .grant := by
  cases h with
  | giveBack hg => exact Or.inl hg.performer
  | backedAll => exact Or.inl rfl
  | look => exact Or.inl rfl
  | noDonor => exact Or.inl rfl
  | full => exact Or.inl rfl
  | reserveOut _ => exact Or.inl rfl
  | confirmOut _ => exact Or.inl rfl
  | handBack => exact Or.inl rfl
  | allLive => exact Or.inl rfl
  | someAbandoned => exact Or.inl rfl
  | commitOut => exact Or.inl rfl
  | donorSet _ => exact Or.inl rfl
  | gaveBack _ => exact Or.inl rfl
  | _ => exact Or.inr rfl

/-- The event handler performs only what is the handler's. -/
theorem EventLoop.Step.performer {s : Shared} {l l' : EventLoop} {op : Op}
    {started : List Revoke} (h : EventLoop.Step s l op l' started) :
    op.performer = .handler := by
  cases h <;> rfl

theorem Detection.Step.performer {tid : Tid} {s : Shared} {l l' : Detection} {op : Op}
    (h : Detection.Step tid s l op l') : op.performer = .shared ∨ op.performer = .detection := by
  cases h with
  | consumerReturn hr => exact Or.inl hr.performer
  | donorReturn hr => exact Or.inl hr.performer
  | noMore => exact Or.inl rfl
  | again _ => exact Or.inl rfl
  | consumerDone _ => exact Or.inl rfl
  | consumerReturned _ => exact Or.inl rfl
  | collect _ => exact Or.inl rfl
  | passOver _ => exact Or.inl rfl
  | _ => exact Or.inr rfl

theorem Revoke.Step.performer {tid : Tid} {s : Shared} {v v' : Revoke} {op : Op}
    (h : Revoke.Step tid s v op v') : op.performer = .shared ∨ op.performer = .revoke := by
  cases h with
  | giveBack hr => exact Or.inl hr.performer
  | nothing => exact Or.inl rfl
  | gaveBack _ => exact Or.inl rfl
  | _ => exact Or.inr rfl

/-- An operation of a request is its own, of the grant it makes or shared. -/
theorem Request.Step.performer {tid : Tid} {s : Shared} {q q' : Request} {op : Op}
    (h : Request.Step tid s q op q') : op.performer = .shared ∨ op.performer = .request ∨
      ∃ call call' rsvd, q.pc = .allocate call rsvd ∧ q'.pc = .allocate call' rsvd ∧
        q'.consumer = q.consumer ∧ AllocCall.Step s call op call' := by
  cases h with
  | allocate hc => exact Or.inr (Or.inr ⟨_, _, _, rfl, rfl, rfl, hc⟩)
  | drop hr => exact Or.inl hr.performer
  | returnDead hr => exact Or.inl hr.performer
  | returnAll hr => exact Or.inl hr.performer
  | reserve _ _ => exact Or.inr (Or.inl rfl)
  | added => exact Or.inr (Or.inl rfl)
  | addFailed => exact Or.inr (Or.inl rfl)
  | respond => exact Or.inr (Or.inl rfl)
  | requestDone => exact Or.inr (Or.inl rfl)
  | _ => exact Or.inl rfl

/-- An operation of a grant is performed inside `allocate_eph_memory`. -/
theorem Task.Step.grant {tid : Tid} {s : Shared} {t t' : Task} {op : Op} {started : List Task}
    (h : Task.Step tid s t op t' started) (hOp : op.performer = .grant) :
    ∃ c call call' rsvd, t = .request ⟨c, .allocate call rsvd⟩ ∧
      t' = .request ⟨c, .allocate call' rsvd⟩ ∧ AllocCall.Step s call op call' := by
  cases h with
  | events hl =>
    rw [hl.performer] at hOp
    cases hOp
  | detection hl =>
    rcases hl.performer with h | h <;> rw [h] at hOp <;> cases hOp
  | revoke hv =>
    rcases hv.performer with h | h <;> rw [h] at hOp <;> cases hOp
  | @request q q' _ hq =>
    obtain ⟨c, pc⟩ := q
    obtain ⟨c', pc'⟩ := q'
    rcases hq.performer with h | h | ⟨call, call', rsvd, hPc, hPc', hc, hStep⟩
    · rw [h] at hOp
      cases hOp
    · rw [h] at hOp
      cases hOp
    · cases hPc
      cases hPc'
      cases hc
      exact ⟨c, call, call', rsvd, rfl, rfl, hStep⟩

/-- An operation of a revoke is performed by a revoke thread. -/
theorem Task.Step.ofRevoke {tid : Tid} {s : Shared} {t t' : Task} {op : Op}
    {started : List Task} (h : Task.Step tid s t op t' started) (hOp : op.performer = .revoke) :
    ∃ v v', t = .revoke v ∧ t' = .revoke v' ∧ Revoke.Step tid s v op v' := by
  cases h with
  | events hl =>
    rw [hl.performer] at hOp
    cases hOp
  | detection hl =>
    rcases hl.performer with h | h <;> rw [h] at hOp <;> cases hOp
  | revoke hv => exact ⟨_, _, rfl, rfl, hv⟩
  | request hq =>
    rcases hq.performer with h | h | ⟨_, _, _, -, -, -, hStep⟩
    · rw [h] at hOp
      cases hOp
    · rw [h] at hOp
      cases hOp
    · rcases hStep.performer with h | h <;> rw [h] at hOp <;> cases hOp

/-- An operation of the event handler is performed by it. -/
theorem Task.Step.handler {tid : Tid} {s : Shared} {t t' : Task} {op : Op} {started : List Task}
    (h : Task.Step tid s t op t' started) (hOp : op.performer = .handler) :
    ∃ l l' spawned, t = .events l ∧ t' = .events l' ∧ EventLoop.Step s l op l' spawned := by
  cases h with
  | events hl => exact ⟨_, _, _, rfl, rfl, hl⟩
  | detection hl =>
    rcases hl.performer with h | h <;> rw [h] at hOp <;> cases hOp
  | revoke hv =>
    rcases hv.performer with h | h <;> rw [h] at hOp <;> cases hOp
  | request hq =>
    rcases hq.performer with h | h | ⟨_, _, _, -, -, -, hStep⟩
    · rw [h] at hOp
      cases hOp
    · rw [h] at hOp
      cases hOp
    · rcases hStep.performer with h | h <;> rw [h] at hOp <;> cases hOp

/-- An operation of a request is performed by a request. -/
theorem Task.Step.ofRequest {tid : Tid} {s : Shared} {t t' : Task} {op : Op}
    {started : List Task} (h : Task.Step tid s t op t' started) (hOp : op.performer = .request) :
    ∃ q q', t = .request q ∧ t' = .request q' ∧ Request.Step tid s q op q' := by
  cases h with
  | events hl =>
    rw [hl.performer] at hOp
    cases hOp
  | detection hl =>
    rcases hl.performer with h | h <;> rw [h] at hOp <;> cases hOp
  | revoke hv =>
    rcases hv.performer with h | h <;> rw [h] at hOp <;> cases hOp
  | request hq => exact ⟨_, _, rfl, rfl, hq⟩

/-- An operation of a removal is performed by the VM detection thread. -/
theorem Task.Step.ofDetection {tid : Tid} {s : Shared} {t t' : Task} {op : Op}
    {started : List Task} (h : Task.Step tid s t op t' started)
    (hOp : op.performer = .detection) :
    ∃ l l', t = .detection l ∧ t' = .detection l' ∧ Detection.Step tid s l op l' := by
  cases h with
  | events hl =>
    rw [hl.performer] at hOp
    cases hOp
  | revoke hv =>
    rcases hv.performer with h | h <;> rw [h] at hOp <;> cases hOp
  | request hq =>
    rcases hq.performer with h | h | ⟨_, _, _, -, -, -, hStep⟩
    · rw [h] at hOp
      cases hOp
    · rw [h] at hOp
      cases hOp
    · rcases hStep.performer with h | h <;> rw [h] at hOp <;> cases hOp
  | detection hl => exact ⟨_, _, rfl, rfl, hl⟩

/-- No thread does what the environment does. -/
theorem Task.Step.not_outside {tid : Tid} {s : Shared} {t t' : Task} {op : Op}
    {started : List Task} (h : Task.Step tid s t op t' started) : op.performer ≠ .outside := by
  intro hOp
  cases h with
  | events hl =>
    rw [hl.performer] at hOp
    cases hOp
  | detection hl =>
    rcases hl.performer with h | h <;> rw [h] at hOp <;> cases hOp
  | revoke hv =>
    rcases hv.performer with h | h <;> rw [h] at hOp <;> cases hOp
  | request hq =>
    rcases hq.performer with h | h | ⟨_, _, _, -, -, -, hStep⟩
    · rw [h] at hOp
      cases hOp
    · rw [h] at hOp
      cases hOp
    · rcases hStep.performer with h | h <;> rw [h] at hOp <;> cases hOp

-- ---------------------------------------------------------------------------
-- The environment
-- ---------------------------------------------------------------------------

/-- The moves of the environment: an operation and the tasks it starts. -/
inductive OutsideStep (s : Shared) : Op → List Task → Prop
  | request {c : VmId} {size : Nat} :
      OutsideStep s (.startRequest c size) [.request ⟨c, .start size⟩]
  | add {c : VmId} {extents : List Extent} {about : List AllocId} :
      (∀ x ∈ about, x ∈ (s.device c).unacked) → OutsideStep s (.emitAdd c extents about) []
  | release {c : VmId} {extents : List Extent} {about : List AllocId} :
      (∀ x ∈ about, x ∈ (s.device c).dcd) → OutsideStep s (.emitRelease c extents about) []
  | revoke {v : VmId} {path : QomPath} {size : Nat} :
      OutsideStep s (.emitRevoke v path size) []

/-- Whatever comes from outside is one of the environment's moves. -/
theorem outsideStep_of_outside {s : Shared} {op : Op} {started : List Task}
    (h : outside s op = some started) : OutsideStep s op started := by
  unfold outside at h
  split at h
  · split at h <;> cases h
    exact .request
  · split at h <;> cases h
    exact .add ‹_›
  · split at h <;> cases h
    exact .release ‹_›
  · cases h
    exact .revoke
  · cases h

-- ---------------------------------------------------------------------------
-- The rules of the pool, for these threads
-- ---------------------------------------------------------------------------

/-- A move of the system is a step of one of its threads or one of the
environment. -/
theorem move_cases {c d : System} {op : Op} (hm : orchestrator.Move c op d) :
    (∃ i t t' started, c.tasks[i]? = some t ∧ Task.Step i c.shared t op t' started ∧
      d.tasks = c.tasks.set i t' ++ started) ∨
    ∃ started, OutsideStep c.shared op started ∧ d.tasks = c.tasks ++ started := by
  cases hm with
  | @task i t t' ch started ht hn =>
    exact Or.inl ⟨i, t, t', started, ht, Task.step_of_next hn, rfl⟩
  | @outside started hs => exact Or.inr ⟨started, outsideStep_of_outside hs, rfl⟩

/-- A property of each thread and the shared state, kept by every step of the
thread and stable under the operations of the others. -/
theorem forall_tasks {c d : System} {op : Op} {J : Tid → Shared → Task → Prop}
    (hm : orchestrator.Move c op d)
    (hJ : ∀ i t, c.tasks[i]? = some t → J i c.shared t)
    (hOwn : ∀ i t t' started, c.tasks[i]? = some t → Task.Step i c.shared t op t' started →
      J i (op.exec c.shared) t' ∧ ∀ j, ∀ u ∈ started, J j (op.exec c.shared) u)
    (hOutside : ∀ started, OutsideStep c.shared op started →
      ∀ j, ∀ u ∈ started, J j (op.exec c.shared) u)
    (hStable : ∀ j u, c.tasks[j]? = some u → J j c.shared u → J j (op.exec c.shared) u) :
    ∀ j u, d.tasks[j]? = some u → J j d.shared u := by
  refine hm.forall_tasks hJ (fun i t ch t' started ht hn => ?_) (fun started hs => ?_) hStable
  · exact hOwn i t t' started ht (Task.step_of_next hn)
  · exact hOutside started (outsideStep_of_outside hs)

/-- The same for a property that an operation may take from the thread that
performs it. -/
theorem forall_tasks_ne {c d : System} {op : Op} {J : Tid → Shared → Task → Prop}
    (hm : orchestrator.Move c op d)
    (hOwn : ∀ i t t' started, c.tasks[i]? = some t → Task.Step i c.shared t op t' started →
      J i (op.exec c.shared) t' ∧ (∀ j, ∀ u ∈ started, J j (op.exec c.shared) u) ∧
        ∀ j u, j ≠ i → c.tasks[j]? = some u → J j (op.exec c.shared) u)
    (hOutside : ∀ started, OutsideStep c.shared op started →
      (∀ j, ∀ u ∈ started, J j (op.exec c.shared) u) ∧
        ∀ j u, c.tasks[j]? = some u → J j (op.exec c.shared) u) :
    ∀ j u, d.tasks[j]? = some u → J j d.shared u := by
  refine hm.forall_tasks_ne (fun i t ch t' started ht hn => ?_) (fun started hs => ?_)
  · exact hOwn i t t' started ht (Task.step_of_next hn)
  · exact hOutside started (outsideStep_of_outside hs)

/-- A measure of the shared state that no operation raises by more than
`gain`, and weights of the threads that pay for it. -/
theorem total_le {c d : System} {op : Op} {μ : Shared → Int} {w : Task → Int} {gain : Int}
    (hm : orchestrator.Move c op d)
    (hExec : μ (op.exec c.shared) ≤ μ c.shared + gain)
    (hTask : ∀ i t t' started, c.tasks[i]? = some t → Task.Step i c.shared t op t' started →
      w t' + Machine.weigh w started + gain ≤ w t)
    (hOutside : ∀ started, OutsideStep c.shared op started →
      Machine.weigh w started + gain ≤ 0) :
    Machine.total μ w d ≤ Machine.total μ w c := by
  refine hm.total_le (fun i t ch t' started ht hn => ?_) (fun started hs => ?_)
  · have h := hTask i t t' started ht (Task.step_of_next hn)
    show μ (op.exec c.shared) + w t' + Machine.weigh w started ≤ _
    omega
  · have h := hOutside started (outsideStep_of_outside hs)
    show μ (op.exec c.shared) + Machine.weigh w started ≤ _
    omega

/-- The same for a measure whose every change the threads' weights match. -/
theorem total_eq {c d : System} {op : Op} {μ : Shared → Int} {w : Task → Int} {gain : Int}
    (hm : orchestrator.Move c op d)
    (hExec : μ (op.exec c.shared) = μ c.shared + gain)
    (hTask : ∀ i t t' started, c.tasks[i]? = some t → Task.Step i c.shared t op t' started →
      w t' + Machine.weigh w started + gain = w t)
    (hOutside : ∀ started, OutsideStep c.shared op started →
      Machine.weigh w started + gain = 0) :
    Machine.total μ w d = Machine.total μ w c := by
  refine hm.total_eq (fun i t ch t' started ht hn => ?_) (fun started hs => ?_)
  · have h := hTask i t t' started ht (Task.step_of_next hn)
    show μ (op.exec c.shared) + w t' + Machine.weigh w started = _
    omega
  · have h := hOutside started (outsideStep_of_outside hs)
    show μ (op.exec c.shared) + Machine.weigh w started = _
    omega

end EphMemory.Orchestrator
