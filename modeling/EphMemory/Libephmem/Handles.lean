import EphMemory.Lib.Held
import EphMemory.Libephmem.Attempt

/-!
# Libephmem — the life of a handle

`libephmem_alloc` opens a file in EphMFS, sizes it and maps it; `libephmem_free`
unmaps and closes it. Any of the calls to the kernel may fail, and what was
opened by then has to be given back. The first call of a process sets the
library up.

* `Process` — what the kernel holds for the library: descriptors, mappings,
  which of them carry the protection key;
* `Call` — a thread in `libephmem_alloc`, then the handle it made, then a thread
  in `libephmem_free`; or one in `libephmem_reserve` up to its first check;
* `Call.next` — the steps, one for each call to the kernel;
* `Call.Step` — the same as a relation.

The program frees a handle once, if at all. A descriptor that is closed and a
mapping that is removed are free to be used again: what the kernel hands out is
the environment's choice, as long as it is not in use.
-/

namespace EphMemory.Libephmem.Alloc

open EphMemory.Lib

abbrev Fd := Nat

/-- `libephmem_initialized`. -/
inductive Once where
  | idle
  | running
  | done
  deriving DecidableEq, Repr

structure Process where
  initialized : Once
  setupSucceeded : Bool
  /-- `ephemerald_sock_fd`, none for -1 -/
  ephemeraldSock : Option Fd
  /-- `ephmem_pkey != -1` -/
  usingPkey : Bool
  /-- the descriptors that are open -/
  fds : List Fd
  /-- what `mmap` returned, as far as it is still mapped -/
  maps : List Handle
  /-- what `pkey_mprotect` was called for -/
  keyed : List Handle
  deriving DecidableEq

/-- Two mappings have no address in common. -/
def Apart (a b : Handle) : Prop :=
  a.ptr.toNat + a.size.toNat ≤ b.ptr.toNat ∨ b.ptr.toNat + b.size.toNat ≤ a.ptr.toNat

instance (a b : Handle) : Decidable (Apart a b) := by
  unfold Apart
  infer_instance

-- ---------------------------------------------------------------------------
-- Operations
-- ---------------------------------------------------------------------------

inductive Op where
  | nop
  | beginInit
  /-- `socket` or `open` -/
  | opened (fd : Fd)
  | close (fd : Fd)
  | connected (fd : Fd)
  | pkeyAlloc (ok : Bool)
  | endInit (succeeded : Bool)
  | mmap (area : Handle)
  | pkeyMprotect (area : Handle)
  | munmap (area : Handle)
  /-- The program calls the library: `libephmem_alloc` with a size, or
  `libephmem_reserve`. -/
  | start (size : Option (BitVec 64))
  deriving DecidableEq

def Op.exec : Op → Process → Process
  | .nop, p => p
  | .beginInit, p => { p with initialized := .running }
  | .opened fd, p => { p with fds := fd :: p.fds }
  | .close fd, p => { p with fds := p.fds.filter (· ≠ fd) }
  | .connected fd, p => { p with ephemeraldSock := some fd }
  | .pkeyAlloc ok, p => { p with usingPkey := ok }
  | .endInit ok, p => { p with initialized := .done, setupSucceeded := ok }
  | .mmap area, p => { p with maps := area :: p.maps }
  | .pkeyMprotect area, p => { p with keyed := area :: p.keyed }
  | .munmap area, p =>
    { p with maps := p.maps.filter (· ≠ area), keyed := p.keyed.filter (· ≠ area) }
  | .start _, p => p

-- ---------------------------------------------------------------------------
-- The calls
-- ---------------------------------------------------------------------------

inductive Pc where
  /-- `std::call_once` -/
  | once
  -- `libephmem_init`
  | socket
  | connect (fd : Fd)
  | closeSock (fd : Fd)
  | initFailed
  | sigaction
  | pkeyAlloc
  | initDone
  /-- `libephmem_setup_succeeded` -/
  | check
  -- `libephmem_create_file`
  | create
  | ftruncate (fd : Fd)
  | mmap (fd : Fd)
  | pkeyMprotect (fd : Fd) (area : Handle)
  | unmapFailed (fd : Fd) (area : Handle)
  | closeFailed (fd : Fd)
  /-- The program has the handle. -/
  | live (fd : Fd) (area : Handle)
  /-- `libephmem_free` has unmapped. -/
  | close (fd : Fd)
  | done
  deriving DecidableEq

/-- `size` is the argument of `libephmem_alloc`, none in `libephmem_reserve`. -/
structure Call where
  size : Option (BitVec 64)
  pc : Pc
  deriving DecidableEq

/-- What the kernel returns, and what the program does with a handle. -/
inductive Choice where
  | go
  | fd (fd : Option Fd)
  | ok (ok : Bool)
  | mapped (area : Option Handle)
  | free
  deriving DecidableEq

/-- What `mmap` may return for a size: memory that is not in use. It refuses an
empty mapping. -/
def Process.Offers (p : Process) (size : Option (BitVec 64)) (area : Handle) : Prop :=
  size = some area.size ∧ area.size ≠ 0 ∧ ∀ m ∈ p.maps, Apart area m

instance (p : Process) (size : Option (BitVec 64)) (area : Handle) :
    Decidable (p.Offers size area) := by
  unfold Process.Offers
  infer_instance

def Call.next (p : Process) (c : Call) (ch : Choice) : Option (Op × Call) :=
  match c.pc, ch with
  | .once, .go =>
    match p.initialized with
    | .idle => some (.beginInit, { c with pc := .socket })
    | .running => none
    | .done => some (.nop, { c with pc := .check })
  -- `connect_to_ephemerald`; without a descriptor the path was too long or `socket` failed
  | .socket, .fd none => some (.nop, { c with pc := .initFailed })
  | .socket, .fd (some fd) =>
    if fd ∈ p.fds then none else some (.opened fd, { c with pc := .connect fd })
  | .connect fd, .ok true => some (.connected fd, { c with pc := .sigaction })
  | .connect fd, .ok false => some (.nop, { c with pc := .closeSock fd })
  | .closeSock fd, .go => some (.close fd, { c with pc := .initFailed })
  | .initFailed, .go => some (.endInit false, { c with pc := .check })
  -- a failure is printed
  | .sigaction, .ok _ => some (.nop, { c with pc := .pkeyAlloc })
  | .pkeyAlloc, .ok ok => some (.pkeyAlloc ok, { c with pc := .initDone })
  | .initDone, .go => some (.endInit true, { c with pc := .check })
  | .check, .go =>
    some (.nop, { c with pc := if p.setupSucceeded ∧ c.size.isSome then .create else .done })
  | .create, .fd none => some (.nop, { c with pc := .done })
  | .create, .fd (some fd) =>
    if fd ∈ p.fds then none else some (.opened fd, { c with pc := .ftruncate fd })
  | .ftruncate fd, .ok ok => some (.nop, { c with pc := if ok then .mmap fd else .closeFailed fd })
  | .mmap fd, .mapped none => some (.nop, { c with pc := .closeFailed fd })
  | .mmap fd, .mapped (some area) =>
    if p.Offers c.size area then
      some (.mmap area,
        { c with pc := if p.usingPkey then .pkeyMprotect fd area else .live fd area })
    else none
  | .pkeyMprotect fd area, .ok true =>
    some (.pkeyMprotect area, { c with pc := .live fd area })
  | .pkeyMprotect fd area, .ok false => some (.nop, { c with pc := .unmapFailed fd area })
  | .unmapFailed fd area, .go => some (.munmap area, { c with pc := .closeFailed fd })
  | .closeFailed fd, .go => some (.close fd, { c with pc := .done })
  | .live fd area, .free => some (.munmap area, { c with pc := .close fd })
  | .close fd, .go => some (.close fd, { c with pc := .done })
  | _, _ => none

/-- The steps of a call, with what the kernel returned. -/
inductive Call.Step (p : Process) : Call → Op → Call → Prop
  | begin {size : Option (BitVec 64)} :
      p.initialized = .idle → Step p ⟨size, .once⟩ .beginInit ⟨size, .socket⟩
  | ready {size : Option (BitVec 64)} :
      p.initialized = .done → Step p ⟨size, .once⟩ .nop ⟨size, .check⟩
  | noSocket {size : Option (BitVec 64)} : Step p ⟨size, .socket⟩ .nop ⟨size, .initFailed⟩
  | socket {size : Option (BitVec 64)} {fd : Fd} :
      fd ∉ p.fds → Step p ⟨size, .socket⟩ (.opened fd) ⟨size, .connect fd⟩
  | connected {size : Option (BitVec 64)} {fd : Fd} :
      Step p ⟨size, .connect fd⟩ (.connected fd) ⟨size, .sigaction⟩
  | refused {size : Option (BitVec 64)} {fd : Fd} :
      Step p ⟨size, .connect fd⟩ .nop ⟨size, .closeSock fd⟩
  | closeSock {size : Option (BitVec 64)} {fd : Fd} :
      Step p ⟨size, .closeSock fd⟩ (.close fd) ⟨size, .initFailed⟩
  | initFailed {size : Option (BitVec 64)} :
      Step p ⟨size, .initFailed⟩ (.endInit false) ⟨size, .check⟩
  | sigaction {size : Option (BitVec 64)} : Step p ⟨size, .sigaction⟩ .nop ⟨size, .pkeyAlloc⟩
  | pkeyAlloc {size : Option (BitVec 64)} {ok : Bool} :
      Step p ⟨size, .pkeyAlloc⟩ (.pkeyAlloc ok) ⟨size, .initDone⟩
  | initDone {size : Option (BitVec 64)} :
      Step p ⟨size, .initDone⟩ (.endInit true) ⟨size, .check⟩
  | proceed {n : BitVec 64} :
      p.setupSucceeded = true → Step p ⟨some n, .check⟩ .nop ⟨some n, .create⟩
  | stop {size : Option (BitVec 64)} : Step p ⟨size, .check⟩ .nop ⟨size, .done⟩
  | noFile {size : Option (BitVec 64)} : Step p ⟨size, .create⟩ .nop ⟨size, .done⟩
  | create {size : Option (BitVec 64)} {fd : Fd} :
      fd ∉ p.fds → Step p ⟨size, .create⟩ (.opened fd) ⟨size, .ftruncate fd⟩
  | sized {size : Option (BitVec 64)} {fd : Fd} :
      Step p ⟨size, .ftruncate fd⟩ .nop ⟨size, .mmap fd⟩
  | notSized {size : Option (BitVec 64)} {fd : Fd} :
      Step p ⟨size, .ftruncate fd⟩ .nop ⟨size, .closeFailed fd⟩
  | notMapped {size : Option (BitVec 64)} {fd : Fd} :
      Step p ⟨size, .mmap fd⟩ .nop ⟨size, .closeFailed fd⟩
  | mapped {size : Option (BitVec 64)} {fd : Fd} {area : Handle} :
      p.Offers size area → p.usingPkey = false →
      Step p ⟨size, .mmap fd⟩ (.mmap area) ⟨size, .live fd area⟩
  | mappedKeyed {size : Option (BitVec 64)} {fd : Fd} {area : Handle} :
      p.Offers size area → p.usingPkey = true →
      Step p ⟨size, .mmap fd⟩ (.mmap area) ⟨size, .pkeyMprotect fd area⟩
  | keyed {size : Option (BitVec 64)} {fd : Fd} {area : Handle} :
      Step p ⟨size, .pkeyMprotect fd area⟩ (.pkeyMprotect area) ⟨size, .live fd area⟩
  | notKeyed {size : Option (BitVec 64)} {fd : Fd} {area : Handle} :
      Step p ⟨size, .pkeyMprotect fd area⟩ .nop ⟨size, .unmapFailed fd area⟩
  | unmapFailed {size : Option (BitVec 64)} {fd : Fd} {area : Handle} :
      Step p ⟨size, .unmapFailed fd area⟩ (.munmap area) ⟨size, .closeFailed fd⟩
  | closeFailed {size : Option (BitVec 64)} {fd : Fd} :
      Step p ⟨size, .closeFailed fd⟩ (.close fd) ⟨size, .done⟩
  | free {size : Option (BitVec 64)} {fd : Fd} {area : Handle} :
      Step p ⟨size, .live fd area⟩ (.munmap area) ⟨size, .close fd⟩
  | close {size : Option (BitVec 64)} {fd : Fd} :
      Step p ⟨size, .close fd⟩ (.close fd) ⟨size, .done⟩

/-- **The steps cover the code** of a call, whichever it is. -/
theorem Call.step_of_next {p : Process} {c c' : Call} {ch : Choice} {op : Op}
    (h : c.next p ch = some (op, c')) : Call.Step p c op c' := by
  obtain ⟨size, pc⟩ := c
  cases pc with
  | once =>
    cases ch with
    | go =>
      simp only [next] at h
      split at h
      · cases h
        exact .begin ‹_›
      · cases h
      · cases h
        exact .ready ‹_›
    | _ => cases h
  | socket =>
    cases ch with
    | fd fd =>
      cases fd with
      | none =>
        cases h
        exact .noSocket
      | some fd =>
        simp only [next] at h
        split at h
        · cases h
        · cases h
          exact .socket ‹_›
    | _ => cases h
  | connect fd =>
    cases ch with
    | ok ok =>
      cases ok with
      | false =>
        cases h
        exact .refused
      | true =>
        cases h
        exact .connected
    | _ => cases h
  | closeSock fd =>
    cases ch with
    | go =>
      cases h
      exact .closeSock
    | _ => cases h
  | initFailed =>
    cases ch with
    | go =>
      cases h
      exact .initFailed
    | _ => cases h
  | sigaction =>
    cases ch with
    | ok ok =>
      cases h
      exact .sigaction
    | _ => cases h
  | pkeyAlloc =>
    cases ch with
    | ok ok =>
      cases h
      exact .pkeyAlloc
    | _ => cases h
  | initDone =>
    cases ch with
    | go =>
      cases h
      exact .initDone
    | _ => cases h
  | check =>
    cases ch with
    | go =>
      simp only [next] at h
      cases h
      split
      · rename_i hReady
        obtain ⟨n, rfl⟩ := Option.isSome_iff_exists.mp hReady.2
        exact .proceed hReady.1
      · exact .stop
    | _ => cases h
  | create =>
    cases ch with
    | fd fd =>
      cases fd with
      | none =>
        cases h
        exact .noFile
      | some fd =>
        simp only [next] at h
        split at h
        · cases h
        · cases h
          exact .create ‹_›
    | _ => cases h
  | ftruncate fd =>
    cases ch with
    | ok ok =>
      cases ok with
      | false =>
        cases h
        exact .notSized
      | true =>
        cases h
        exact .sized
    | _ => cases h
  | mmap fd =>
    cases ch with
    | mapped area =>
      cases area with
      | none =>
        cases h
        exact .notMapped
      | some area =>
        simp only [next] at h
        split at h
        · rename_i hOffers
          cases hKey : p.usingPkey with
          | false =>
            rw [hKey] at h
            cases h
            exact .mapped hOffers hKey
          | true =>
            rw [hKey] at h
            cases h
            exact .mappedKeyed hOffers hKey
        · cases h
    | _ => cases h
  | pkeyMprotect fd area =>
    cases ch with
    | ok ok =>
      cases ok with
      | false =>
        cases h
        exact .notKeyed
      | true =>
        cases h
        exact .keyed
    | _ => cases h
  | unmapFailed fd area =>
    cases ch with
    | go =>
      cases h
      exact .unmapFailed
    | _ => cases h
  | closeFailed fd =>
    cases ch with
    | go =>
      cases h
      exact .closeFailed
    | _ => cases h
  | live fd area =>
    cases ch with
    | free =>
      cases h
      exact .free
    | _ => cases h
  | close fd =>
    cases ch with
    | go =>
      cases h
      exact .close
    | _ => cases h
  | done => cases ch <;> cases h

def outside (_ : Process) : Op → Option (List Call)
  | .start size => some [⟨size, .once⟩]
  | _ => none

abbrev Program := Config Process Call

/-- A program that uses the library. -/
def program : Machine Process Call Op Choice where
  next _ p c ch := (c.next p ch).map fun r => (r.1, r.2, [])
  exec := Op.exec
  outside := outside

/-- Nothing has been called yet. -/
def initProgram : Program := ⟨⟨.idle, false, none, false, [], [], []⟩, []⟩

def Reachable (s : Program) : Prop := program.Steps (fun _ _ => True) initProgram s

end EphMemory.Libephmem.Alloc
