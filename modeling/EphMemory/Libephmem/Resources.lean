import EphMemory.Libephmem.Handles

/-!
# Libephmem — who owns what

However the calls of a program's threads interleave and whichever of them fail:
a descriptor and a mapping are one call's or one handle's, until they are given
back. So a handle's file stays open and its memory mapped as long as the program
has it, nobody else's memory is there, and nothing is left over.

* `Pc.fd?`, `Pc.area?` — what a call or a handle owns;
* `Call.Fits` — what it relies on;
* `HandleInv`, `HandleInv.move` — the invariant;
* `handles_sound` — the handles, and what is left when the calls have ended.
-/

namespace EphMemory.Libephmem.Alloc

open EphMemory.Lib

-- ---------------------------------------------------------------------------
-- What a call owns
-- ---------------------------------------------------------------------------

def Pc.fd? : Pc → Option Fd
  | .connect fd => some fd
  | .closeSock fd => some fd
  | .ftruncate fd => some fd
  | .mmap fd => some fd
  | .pkeyMprotect fd _ => some fd
  | .unmapFailed fd _ => some fd
  | .closeFailed fd => some fd
  | .live fd _ => some fd
  | .close fd => some fd
  | _ => none

def Pc.area? : Pc → Option Handle
  | .pkeyMprotect _ area => some area
  | .unmapFailed _ area => some area
  | .live _ area => some area
  | _ => none

/-- The call runs `libephmem_init`. -/
def Pc.inits : Pc → Bool
  | .socket | .connect _ | .closeSock _ | .initFailed | .sigaction | .pkeyAlloc | .initDone => true
  | _ => false

/-- The call has found the library set up. -/
def Pc.pastInit : Pc → Bool
  | .once | .socket | .connect _ | .closeSock _ | .initFailed | .sigaction | .pkeyAlloc
  | .initDone => false
  | _ => true

/-- An open descriptor that is not the connection to ephemerald. -/
def Process.Lent (p : Process) (fd : Fd) : Prop := fd ∈ p.fds ∧ p.ephemeraldSock ≠ some fd

/-- What a call relies on: there is no connection before it has made one; once
it has found the library set up that stays so; a mapping has the size of the
call, and a handle's memory the key. -/
structure Call.Fits (p : Process) (c : Call) : Prop where
  unconnected : c.pc = .socket ∨ (∃ fd, c.pc = .connect fd) ∨ (∃ fd, c.pc = .closeSock fd) →
    p.ephemeraldSock = none
  pastInit : c.pc.pastInit = true → p.initialized = .done
  size : ∀ area, c.pc.area? = some area → c.size = some area.size
  keyed : ∀ fd area, c.pc = .live fd area → p.usingPkey = true → area ∈ p.keyed

structure HandleInv (s : Program) : Prop where
  once : Machine.Held (fun p => p.initialized = .running) (fun c => c.pc.inits = true) s
  files : ∀ fd, Machine.Held (fun p => p.Lent fd) (fun c => c.pc.fd? = some fd) s
  areas : ∀ area, Machine.Held (fun p => area ∈ p.maps) (fun c => c.pc.area? = some area) s
  apart : s.shared.maps.Pairwise Apart
  unconnected : s.shared.initialized = .idle → s.shared.ephemeraldSock = none
  connected : ∀ fd, s.shared.ephemeraldSock = some fd → fd ∈ s.shared.fds
  fits : ∀ (i : Nat) c, s.tasks[i]? = some c → c.Fits s.shared

-- ---------------------------------------------------------------------------
-- The steps
-- ---------------------------------------------------------------------------

section Steps

variable {p : Process} {c c' : Call} {op : Op}

/-- One call at a time initializes. -/
theorem Call.Step.passes_once (h : Call.Step p c op c') :
    Machine.Passes (p.initialized = .running) ((op.exec p).initialized = .running)
      (c.pc.inits = true) (c'.pc.inits = true) := by
  cases h with
  | begin hIdle => exact .takes (by simp [hIdle]) rfl (by simp [Pc.inits]) rfl
  | initFailed => exact .drops rfl (by simp [Op.exec]) (by simp [Pc.inits])
  | initDone => exact .drops rfl (by simp [Op.exec]) (by simp [Pc.inits])
  | _ => exact .same Iff.rfl (by simp [Pc.inits])

/-- Opening a descriptor lends out no other. -/
theorem lent_opened {fd k : Fd} (hne : k ≠ fd) : ((Op.opened fd).exec p).Lent k ↔ p.Lent k := by
  simp [Process.Lent, Op.exec, hne]

/-- Closing a descriptor takes back no other. -/
theorem lent_close {fd k : Fd} (hne : k ≠ fd) : ((Op.close fd).exec p).Lent k ↔ p.Lent k := by
  simp [Process.Lent, Op.exec, hne]

/-- A descriptor that is closed is with nobody. -/
theorem not_lent_close (fd : Fd) : ¬ ((Op.close fd).exec p).Lent fd := by
  simp [Process.Lent, Op.exec]

/-- A descriptor has one owner: a call, or the process for its connection. -/
theorem Call.Step.passes_files (h : Call.Step p c op c') (hFits : c.Fits p)
    (hConn : ∀ fd, p.ephemeraldSock = some fd → fd ∈ p.fds) (k : Fd) :
    Machine.Passes (p.Lent k) ((op.exec p).Lent k) (c.pc.fd? = some k) (c'.pc.fd? = some k) := by
  have hOpen : ∀ fd, fd ∉ p.fds → c.pc.fd? = none → c'.pc.fd? = some fd → op = .opened fd →
      Machine.Passes (p.Lent k) ((op.exec p).Lent k) (c.pc.fd? = some k) (c'.pc.fd? = some k) := by
    rintro fd hNew hFd hFd' rfl
    by_cases hk : k = fd
    · subst hk
      refine .takes (fun hLent => hNew hLent.1) ⟨List.mem_cons_self .., fun hSock => ?_⟩
        (by simp [hFd]) hFd'
      exact hNew (hConn k hSock)
    · exact .same (lent_opened hk) (by simp [hFd, hFd', Ne.symm hk])
  have hClose : ∀ fd, c.pc.fd? = some fd → c'.pc.fd? = none → op = .close fd →
      Machine.Passes (p.Lent k) ((op.exec p).Lent k) (c.pc.fd? = some k) (c'.pc.fd? = some k) := by
    rintro fd hFd hFd' rfl
    by_cases hk : k = fd
    · subst hk
      exact .drops hFd (not_lent_close k) (by simp [hFd'])
    · exact .same (lent_close hk) (by simp [hFd, hFd', Ne.symm hk])
  cases h with
  | socket hNew => exact hOpen _ hNew rfl rfl rfl
  | create hNew => exact hOpen _ hNew rfl rfl rfl
  | closeSock => exact hClose _ rfl rfl rfl
  | closeFailed => exact hClose _ rfl rfl rfl
  | close => exact hClose _ rfl rfl rfl
  | @connected size fd =>
    -- the connection is no longer the call's
    have hNone := hFits.unconnected (Or.inr (Or.inl ⟨fd, rfl⟩))
    by_cases hk : k = fd
    · subst hk
      exact .drops rfl (by simp [Process.Lent, Op.exec]) (by simp [Pc.fd?])
    · exact .same (by simp [Process.Lent, Op.exec, hNone, Ne.symm hk])
        (by simp [Pc.fd?, Ne.symm hk])
  | _ => exact .same Iff.rfl (by simp [Pc.fd?])

/-- The kernel maps where nothing is mapped. -/
theorem Process.Offers.fresh {size : Option (BitVec 64)} {area : Handle}
    (h : p.Offers size area) : area ∉ p.maps := by
  intro hMem
  obtain ⟨-, hSize, hApart⟩ := h
  have hPos : 0 < area.size.toNat := by
    rw [Nat.pos_iff_ne_zero]
    exact fun hZero => hSize (BitVec.eq_of_toNat_eq hZero)
  rcases hApart area hMem with hLe | hLe <;> omega

/-- A mapping has one owner as well. -/
theorem Call.Step.passes_areas (h : Call.Step p c op c') (m : Handle) :
    Machine.Passes (m ∈ p.maps) (m ∈ (op.exec p).maps) (c.pc.area? = some m)
      (c'.pc.area? = some m) := by
  have hMap : ∀ size area, p.Offers size area → c.pc.area? = none → c'.pc.area? = some area →
      op = .mmap area → Machine.Passes (m ∈ p.maps) (m ∈ (op.exec p).maps)
        (c.pc.area? = some m) (c'.pc.area? = some m) := by
    rintro size area hOffers hArea hArea' rfl
    by_cases hm : m = area
    · subst hm
      exact .takes hOffers.fresh (List.mem_cons_self ..) (by simp [hArea]) hArea'
    · exact .same (by simp [Op.exec, hm]) (by simp [hArea, hArea', Ne.symm hm])
  have hUnmap : ∀ area, c.pc.area? = some area → c'.pc.area? = none → op = .munmap area →
      Machine.Passes (m ∈ p.maps) (m ∈ (op.exec p).maps) (c.pc.area? = some m)
        (c'.pc.area? = some m) := by
    rintro area hArea hArea' rfl
    by_cases hm : m = area
    · subst hm
      exact .drops hArea (by simp [Op.exec]) (by simp [hArea'])
    · exact .same (by simp [Op.exec, hm]) (by simp [hArea, hArea', Ne.symm hm])
  cases h with
  | mapped hOffers _ => exact hMap _ _ hOffers rfl rfl rfl
  | mappedKeyed hOffers _ => exact hMap _ _ hOffers rfl rfl rfl
  | unmapFailed => exact hUnmap _ rfl rfl rfl
  | free => exact hUnmap _ rfl rfl rfl
  | _ => exact .same Iff.rfl (by simp [Pc.area?])

/-- A call finds what it relies on. -/
theorem Call.Step.fits (h : Call.Step p c op c') (hFits : c.Fits p)
    (hIdle : p.initialized = .idle → p.ephemeraldSock = none) : c'.Fits (op.exec p) where
  unconnected hPc := by
    cases h with
    | begin hNot => exact hIdle hNot
    | socket _ => exact hFits.unconnected (Or.inl rfl)
    | refused => exact hFits.unconnected (Or.inr (Or.inl ⟨_, rfl⟩))
    | _ => simp at hPc
  pastInit hPast := by
    cases h with
    | ready hDone => exact hDone
    | initFailed => rfl
    | initDone => rfl
    | begin _ => cases hPast
    | noSocket => cases hPast
    | socket _ => cases hPast
    | connected => cases hPast
    | refused => cases hPast
    | closeSock => cases hPast
    | sigaction => cases hPast
    | pkeyAlloc => cases hPast
    | _ => exact hFits.pastInit rfl
  size area hArea := by
    cases h with
    | mapped hOffers _ =>
      cases hArea
      exact hOffers.1
    | mappedKeyed hOffers _ =>
      cases hArea
      exact hOffers.1
    | keyed => exact hFits.size area hArea
    | notKeyed => exact hFits.size area hArea
    | _ => cases hArea
  keyed fd area hLive hKey := by
    cases h with
    | mapped _ hNone =>
      have hSome : p.usingPkey = true := hKey
      rw [hNone] at hSome
      cases hSome
    | keyed =>
      cases hLive
      exact List.mem_cons_self ..
    | _ => cases hLive

/-- Mappings stay apart, since a new one is offered apart from all of them. -/
theorem Call.Step.apart (h : Call.Step p c op c') (hApart : p.maps.Pairwise Apart) :
    (op.exec p).maps.Pairwise Apart := by
  cases h with
  | mapped hOffers _ => exact List.pairwise_cons.mpr ⟨hOffers.2.2, hApart⟩
  | mappedKeyed hOffers _ => exact List.pairwise_cons.mpr ⟨hOffers.2.2, hApart⟩
  | unmapFailed => exact hApart.filter _
  | free => exact hApart.filter _
  | _ => exact hApart

/-- The connection is made while the library is set up. -/
theorem Call.Step.unconnected (h : Call.Step p c op c')
    (hIdle : p.initialized = .idle → p.ephemeraldSock = none)
    (hInit : c.pc.inits = true → p.initialized = .running) :
    (op.exec p).initialized = .idle → (op.exec p).ephemeraldSock = none := by
  intro hNow
  cases h with
  | begin _ => cases hNow
  | initFailed => cases hNow
  | initDone => cases hNow
  | connected =>
    have hThen : p.initialized = .idle := hNow
    rw [hInit rfl] at hThen
    cases hThen
  | _ => exact hIdle hNow

/-- Nobody closes the connection. -/
theorem Call.Step.connection (h : Call.Step p c op c')
    (hConn : ∀ fd, p.ephemeraldSock = some fd → fd ∈ p.fds)
    (hOwn : ∀ fd, c.pc.fd? = some fd → p.Lent fd) :
    ∀ fd, (op.exec p).ephemeraldSock = some fd → fd ∈ (op.exec p).fds := by
  have hClose : ∀ fd, c.pc.fd? = some fd → op = .close fd →
      ∀ k, (op.exec p).ephemeraldSock = some k → k ∈ (op.exec p).fds := by
    rintro fd hFd rfl k hk
    refine List.mem_filter.mpr ⟨hConn k hk, decide_eq_true ?_⟩
    rintro rfl
    exact (hOwn k hFd).2 hk
  intro k hk
  cases h with
  | closeSock => exact hClose _ rfl rfl k hk
  | closeFailed => exact hClose _ rfl rfl k hk
  | close => exact hClose _ rfl rfl k hk
  | socket _ => exact List.mem_cons_of_mem _ (hConn k hk)
  | create _ => exact List.mem_cons_of_mem _ (hConn k hk)
  | connected =>
    cases hk
    exact (hOwn k rfl).1
  | _ => exact hConn k hk

/-- The steps of others leave a call what it relies on: they do not run
`libephmem_init` while it does, nor once it is past it, and they unmap other
memory. -/
theorem Call.Fits.others {u : Call} (h : u.Fits p) (hStep : Call.Step p c op c')
    (hInit : c.pc.inits = true → p.initialized = .running ∧ u.pc.inits = false)
    (hArea : ∀ area, c.pc.area? = some area → u.pc.area? ≠ some area) : u.Fits (op.exec p) where
  unconnected hPc := by
    cases hStep with
    | connected =>
      -- two calls would run `libephmem_init`
      have hNot := (hInit rfl).2
      rcases hPc with hPc | ⟨fd, hPc⟩ | ⟨fd, hPc⟩ <;> rw [hPc] at hNot <;> cases hNot
    | _ => exact h.unconnected hPc
  pastInit hPast := by
    cases hStep with
    | begin hIdle =>
      rw [h.pastInit hPast] at hIdle
      cases hIdle
    | initFailed => rfl
    | initDone => rfl
    | _ => exact h.pastInit hPast
  size := h.size
  keyed fd area hLive hKey := by
    have hUnmap : ∀ a, c.pc.area? = some a → area ∈ p.keyed.filter (· ≠ a) ∨ p.usingPkey = false := by
      intro a ha
      cases hUsing : p.usingPkey with
      | false => exact Or.inr rfl
      | true =>
        refine Or.inl (List.mem_filter.mpr ⟨h.keyed fd area hLive hUsing, decide_eq_true ?_⟩)
        rintro rfl
        exact hArea area ha (by rw [hLive]; rfl)
    cases hStep with
    | pkeyAlloc =>
      have hRunning := (hInit rfl).1
      rw [h.pastInit (by rw [hLive]; rfl)] at hRunning
      cases hRunning
    | keyed => exact List.mem_cons_of_mem _ (h.keyed fd area hLive hKey)
    | unmapFailed =>
      rcases hUnmap _ rfl with hMem | hNone
      · exact hMem
      · have hUsing : p.usingPkey = true := hKey
        rw [hNone] at hUsing
        cases hUsing
    | free =>
      rcases hUnmap _ rfl with hMem | hNone
      · exact hMem
      · have hUsing : p.usingPkey = true := hKey
        rw [hNone] at hUsing
        cases hUsing
    | _ => exact h.keyed fd area hLive hKey

end Steps

-- ---------------------------------------------------------------------------
-- Every run
-- ---------------------------------------------------------------------------

section Move

variable {s s' : Program} {op : Op}

/-- **The steps cover the code.** -/
theorem step_of_next {i : Nat} {p : Process} {c c' : Call} {ch : Choice}
    {started : List Call} (h : program.next i p c ch = some (op, c', started)) :
    started = [] ∧ Call.Step p c op c' := by
  obtain ⟨r, hr, hEq⟩ := Option.map_eq_some_iff.mp h
  cases hEq
  exact ⟨rfl, Call.step_of_next hr⟩

/-- From outside comes a call, and it starts at `call_once`. -/
theorem started_of_outside {p : Process} {started : List Call}
    (h : program.outside p op = some started) :
    ∃ size, op = .start size ∧ started = [⟨size, .once⟩] := by
  change outside p op = some started at h
  unfold outside at h
  split at h
  · cases h
    exact ⟨_, rfl, rfl⟩
  · cases h

/-- The one call that moves passes on what it owns. -/
theorem HandleInv.move (h : HandleInv s) (hm : program.Move s op s') : HandleInv s' := by
  have hShared : s'.shared = op.exec s.shared := hm.shared_eq
  refine ⟨?_, fun fd => ?_, fun area => ?_, ?_, ?_, ?_, ?_⟩
  · refine h.once.move hm (fun i t ch t' started _ hn => ?_) fun started hs => ?_
    · obtain ⟨rfl, hStep⟩ := step_of_next hn
      exact ⟨hStep.passes_once, nofun⟩
    · obtain ⟨size, rfl, rfl⟩ := started_of_outside hs
      exact Or.inl ⟨Iff.rfl, by simp [Pc.inits]⟩
  · refine (h.files fd).move hm (fun i t ch t' started ht hn => ?_) fun started hs => ?_
    · obtain ⟨rfl, hStep⟩ := step_of_next hn
      exact ⟨hStep.passes_files (h.fits i t ht) h.connected fd, nofun⟩
    · obtain ⟨size, rfl, rfl⟩ := started_of_outside hs
      exact Or.inl ⟨Iff.rfl, by simp [Pc.fd?]⟩
  · refine (h.areas area).move hm (fun i t ch t' started _ hn => ?_) fun started hs => ?_
    · obtain ⟨rfl, hStep⟩ := step_of_next hn
      exact ⟨hStep.passes_areas area, nofun⟩
    · obtain ⟨size, rfl, rfl⟩ := started_of_outside hs
      exact Or.inl ⟨Iff.rfl, by simp [Pc.area?]⟩
  · cases hm with
    | task ht hn =>
      obtain ⟨-, hStep⟩ := step_of_next hn
      exact hStep.apart h.apart
    | outside hs =>
      obtain ⟨size, rfl, -⟩ := started_of_outside hs
      exact h.apart
  · cases hm with
    | task ht hn =>
      obtain ⟨-, hStep⟩ := step_of_next hn
      exact hStep.unconnected h.unconnected fun hInits => h.once.up ht hInits
    | outside hs =>
      obtain ⟨size, rfl, -⟩ := started_of_outside hs
      exact h.unconnected
  · cases hm with
    | task ht hn =>
      obtain ⟨-, hStep⟩ := step_of_next hn
      exact hStep.connection h.connected fun fd hFd => (h.files fd).up ht hFd
    | outside hs =>
      obtain ⟨size, rfl, -⟩ := started_of_outside hs
      exact h.connected
  · refine hm.forall_tasks_ne (J := fun _ p c => c.Fits p) (fun i t ch t' started ht hn => ?_)
      fun started hs => ?_
    · obtain ⟨rfl, hStep⟩ := step_of_next hn
      refine ⟨hStep.fits (h.fits i t ht) h.unconnected, nofun, fun j u hji hu => ?_⟩
      refine (h.fits j u hu).others hStep (fun hInits => ⟨h.once.up ht hInits, ?_⟩) fun m hm hm' => ?_
      · rw [← Bool.not_eq_true]
        exact fun hInits' => hji (h.once.unique hu ht hInits' hInits)
      · exact hji ((h.areas m).unique hu ht hm' hm)
    · obtain ⟨size, rfl, rfl⟩ := started_of_outside hs
      refine ⟨fun j u hu => ?_, fun j u hu => ?_⟩
      · rw [List.mem_singleton.mp hu]
        exact ⟨fun hPc => by simp at hPc, nofun, nofun, nofun⟩
      · exact ⟨(h.fits j u hu).unconnected, (h.fits j u hu).pastInit, (h.fits j u hu).size,
          (h.fits j u hu).keyed⟩

theorem handleInv_init : HandleInv initProgram where
  once := by
    show -ind (Once.idle = .running) + 0 = 0
    rw [ind_false (by simp)]
    rfl
  files fd := by
    show -ind (fd ∈ [] ∧ none ≠ some fd) + 0 = 0
    rw [ind_false (by simp)]
    rfl
  areas area := by
    show -ind (area ∈ []) + 0 = 0
    rw [ind_false (by simp)]
    rfl
  apart := .nil
  unconnected _ := rfl
  connected := nofun
  fits := nofun

theorem Reachable.handleInv (h : Reachable s) : HandleInv s :=
  h.invariant (fun _ _ _ hInv hm _ => hInv.move hm) handleInv_init

end Move

instance : Std.Symm Apart := ⟨fun _ _ h => h.symm⟩

/-- An address lies in one mapping. -/
theorem eq_of_pairwise_apart {l : List Handle} (h : l.Pairwise Apart) {a b : Handle} (ha : a ∈ l)
    (hb : b ∈ l) {addr : Addr} (hAddr : InRange addr a) (hAddr' : InRange addr b) : a = b := by
  by_contra hne
  obtain ⟨hLe, hLt⟩ := hAddr
  obtain ⟨hLe', hLt'⟩ := hAddr'
  rcases h.forall ha hb hne with hApart | hApart <;> omega

/-- No call is in progress: the program has the handle, or the call has ended. -/
def Pc.rests : Pc → Bool
  | .live _ _ | .done => true
  | _ => false

/-- A call at rest that has a descriptor has returned a handle. -/
theorem Pc.live_of_fd {pc : Pc} {fd : Fd} (h : pc.rests = true) (hFd : pc.fd? = some fd) :
    ∃ area, pc = .live fd area := by
  cases pc with
  | live fd' area =>
    cases hFd
    exact ⟨area, rfl⟩
  | done => cases hFd
  | _ => cases h

/-- A call at rest that has a mapping has returned a handle. -/
theorem Pc.live_of_area {pc : Pc} {area : Handle} (h : pc.rests = true)
    (hArea : pc.area? = some area) : ∃ fd, pc = .live fd area := by
  cases pc with
  | live fd area' =>
    cases hArea
    exact ⟨fd, rfl⟩
  | done => cases hArea
  | _ => cases h

/-- **Handles are sound.** However the calls of a program's threads interleave,
and whichever of the calls to the kernel fail: as long as the program has a
handle, its file is open, and memory of the size asked for is mapped and carries
the protection key if there is one; an address is in the memory of one handle at
most; and when no call is in progress, what is open and what is mapped is the
handles', but for the connection. -/
theorem handles_sound {s : Program} (h : Reachable s) :
    (∀ (i : Nat) c fd area, s.tasks[i]? = some c → c.pc = .live fd area →
      c.size = some area.size ∧ fd ∈ s.shared.fds ∧ area ∈ s.shared.maps ∧
        (s.shared.usingPkey = true → area ∈ s.shared.keyed)) ∧
    (∀ (i j : Nat) c c' fd fd' area area' addr, s.tasks[i]? = some c → s.tasks[j]? = some c' →
      c.pc = .live fd area → c'.pc = .live fd' area' →
      addrInRange addr area = true → addrInRange addr area' = true → i = j) ∧
    ((∀ c ∈ s.tasks, c.pc.rests = true) →
      (∀ fd ∈ s.shared.fds, s.shared.ephemeraldSock = some fd ∨
        ∃ c ∈ s.tasks, ∃ area, c.pc = .live fd area) ∧
      ∀ area ∈ s.shared.maps, ∃ c ∈ s.tasks, ∃ fd, c.pc = .live fd area) := by
  have hInv := h.handleInv
  have hMapped : ∀ (i : Nat) c fd area, s.tasks[i]? = some c → c.pc = .live fd area →
      c.pc.area? = some area := by
    intro i c fd area _ hLive
    rw [hLive]
    rfl
  refine ⟨fun i c fd area hc hLive => ?_, ?_, fun hRests => ⟨fun fd hFd => ?_, fun area hArea => ?_⟩⟩
  · have hFits := hInv.fits i c hc
    have hArea := hMapped i c fd area hc hLive
    refine ⟨hFits.size area hArea, ?_, (hInv.areas area).up hc hArea, hFits.keyed fd area hLive⟩
    exact ((hInv.files fd).up hc (by rw [hLive]; rfl)).1
  · intro i j c c' fd fd' area area' addr hc hc' hLive hLive' hIn hIn'
    have hArea := hMapped i c fd area hc hLive
    have hArea' := hMapped j c' fd' area' hc' hLive'
    have hEq := eq_of_pairwise_apart hInv.apart ((hInv.areas area).up hc hArea)
      ((hInv.areas area').up hc' hArea') (addrInRange_iff.mp hIn) (addrInRange_iff.mp hIn')
    subst hEq
    exact (hInv.areas area).unique hc hc' hArea hArea'
  · by_cases hSock : s.shared.ephemeraldSock = some fd
    · exact Or.inl hSock
    · obtain ⟨c, hc, hHolds⟩ := (hInv.files fd).holder ⟨hFd, hSock⟩
      exact Or.inr ⟨c, hc, Pc.live_of_fd (hRests c hc) hHolds⟩
  · obtain ⟨c, hc, hHolds⟩ := (hInv.areas area).holder hArea
    exact ⟨c, hc, Pc.live_of_area (hRests c hc) hHolds⟩

/-- A first allocation, whose memory gets the protection key, while a second one
waits for the library to be set up; the key cannot be had for the second. -/
def demoHandles : List (Label Op Choice) :=
  [.outside (.start (some 4096)), .outside (.start (some 4096)),
    .task 0 .go, .task 0 (.fd (some 3)), .task 0 (.ok true), .task 0 (.ok true),
    .task 0 (.ok true), .task 0 .go, .task 0 .go, .task 1 .go, .task 1 .go,
    .task 0 (.fd (some 4)), .task 1 (.fd (some 5)), .task 1 (.ok true), .task 0 (.ok true),
    .task 1 (.mapped (some ⟨0x10000, 4096, by decide⟩)), .task 1 (.ok false),
    .task 0 (.mapped (some ⟨0x20000, 4096, by decide⟩)), .task 0 (.ok true),
    .task 1 .go, .task 1 .go]

def demoProgram : Program := program.after initProgram demoHandles

theorem demoProgram_reachable : Reachable demoProgram :=
  Machine.steps_after (by decide +kernel)

theorem handles_sound_demo :
    demoProgram.tasks =
      [⟨some 4096, .live 4 ⟨0x20000, 4096, by decide⟩⟩, ⟨some 4096, .done⟩] ∧
    (∀ fd ∈ demoProgram.shared.fds, demoProgram.shared.ephemeraldSock = some fd ∨
      ∃ c ∈ demoProgram.tasks, ∃ area, c.pc = .live fd area) ∧
    demoProgram.shared.fds = [4, 3] := by
  have hRests : ∀ c ∈ demoProgram.tasks, c.pc.rests = true := by decide +kernel
  obtain ⟨-, -, hLeft⟩ := handles_sound demoProgram_reachable
  exact ⟨by decide +kernel, (hLeft hRests).1, by decide +kernel⟩

end EphMemory.Libephmem.Alloc
