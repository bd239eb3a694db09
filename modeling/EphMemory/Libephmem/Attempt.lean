import Mathlib

/-!
# Libephmem — attempts

`libephmem_attempt` runs a function that may touch memory which has been
revoked. An access to such memory raises SIGBUS, and the handler jumps out of
the function, back to where `libephmem_attempt` saved its place.

* `Thread` — the context of the current attempt and the thread's rights for the
  protection key;
* `libephmemAttempt`, `libephmemPut`, `libephmemGet`, `libephmemSigHandler`;
* `Fn` — what a function may do: accesses to memory, each of which may fault,
  and calls of the three, at any depth;
* `Fn.run` — what it does;
* `Fn.run_inside` — how it ends inside an attempt;
* `attempt_discipline` — what `libephmem_attempt` makes of every function.
-/

namespace EphMemory.Libephmem

-- ---------------------------------------------------------------------------
-- Handles and threads
-- ---------------------------------------------------------------------------

abbrev Addr := BitVec 64

/-- A handle; its memory is mapped. -/
structure Handle where
  ptr : Addr
  size : BitVec 64
  mapped : ptr.toNat + size.toNat < 2 ^ 64
  deriving DecidableEq

/-- What `pkey_set` sets: 0 or `PKEY_DISABLE_ACCESS`. -/
inductive Rights where
  | enabled
  | disabled
  deriving DecidableEq, Repr

/-- `cur_attempt_context`, the rights, and how often `sigsetjmp` was called.
The numbers of those calls are what `env` can be. -/
structure Thread where
  env : Option Nat
  handle : Option Handle
  inAttempt : Bool
  rights : Rights
  saves : Nat
  deriving DecidableEq

/-- What the library finds on the system. -/
structure Platform where
  /-- there is a protection key -/
  usingPkey : Bool
  pkeySetOk : Rights → Bool
  /-- the rights in a signal handler -/
  inHandler : Rights → Rights

/-- The `si_code` of a SIGBUS. -/
inductive SiCode where
  | adraln
  | adrerr
  | objerr
  | mceerrAr
  | mceerrAo
  | other
  deriving DecidableEq, Repr

def SiCode.syncSigbus : SiCode → Bool
  | .mceerrAr | .adrerr | .objerr => true
  | .adraln | .mceerrAo | .other => false

/-- The faults of an access: `BUS_ADRERR`, `BUS_OBJERR` and `BUS_MCEERR_AR`. -/
inductive Fault where
  | adrerr
  | objerr
  | mceerrAr
  deriving DecidableEq, Repr

def Fault.siCode : Fault → SiCode
  | .adrerr => .adrerr
  | .objerr => .objerr
  | .mceerrAr => .mceerrAr

-- ---------------------------------------------------------------------------
-- Runs
-- ---------------------------------------------------------------------------

/-- What happens on the way. -/
inductive Event where
  | printed (text : String)
  | fault (addr : Addr)
  /-- a call inside a function returned `value` -/
  | nested (value : Int) (before after : Thread)
  deriving DecidableEq

/-- How a piece of code ends. -/
inductive Outcome (α : Type) where
  | returned (value : α) (t : Thread)
  /-- by `siglongjmp` -/
  | jumped (env : Option Nat) (t : Thread)
  /-- the signal's default action: the process is gone -/
  | defaultAction

structure Run (α : Type) where
  events : List Event
  outcome : Outcome α

namespace Run

variable {α β : Type}

def bind (r : Run α) (f : α → Thread → Run β) : Run β :=
  match r.outcome with
  | .returned a t => ⟨r.events ++ (f a t).events, (f a t).outcome⟩
  | .jumped env t => ⟨r.events, .jumped env t⟩
  | .defaultAction => ⟨r.events, .defaultAction⟩

/-- The call that ran was made by a function, on the thread as `before`. -/
def nested (before : Thread) (r : Run Int) : Run Int :=
  r.bind fun value t => ⟨[.nested value before t], .returned value t⟩

end Run

-- ---------------------------------------------------------------------------
-- The library
-- ---------------------------------------------------------------------------

/-- `addr_in_range`; the sum is one of `uintptr_t`. -/
def addrInRange (addr : Addr) (handle : Handle) : Bool :=
  decide (addr ≥ handle.ptr) && decide (addr < handle.ptr + handle.size)

/-- `libephmem_sig_handler`. Without a jump the access is made again, now with
the default action. -/
def libephmemSigHandler (p : Platform) (code : SiCode) (siAddr : Addr) (t : Thread) :
    Outcome Unit :=
  match t.handle with
  | some handle =>
    if t.inAttempt && code.syncSigbus && addrInRange siAddr handle then
      .jumped t.env { t with rights := p.inHandler t.rights }
    else .defaultAction
  | none => .defaultAction

/-- `pkey_set`, when there is a key; none when it fails. -/
def setRights (p : Platform) (rights : Rights) (t : Thread) : Option Thread :=
  if p.usingPkey then
    if p.pkeySetOk rights then some { t with rights } else none
  else some t

/-- The end of `libephmem_attempt`, on either way out of the function. -/
def leaveAttempt (p : Platform) (result : Int) (t : Thread) : Run Int :=
  match setRights p .disabled { t with inAttempt := false } with
  | some t => ⟨[], .returned result t⟩
  | none =>
    ⟨[.printed "Failed to disable access to ephemeral memory"],
      .returned (-1) { t with inAttempt := false }⟩

/-- What `libephmem_attempt` does when the function returned, or `sigsetjmp`
did again. Only a jump to `place` makes this call's `sigsetjmp` do so. -/
def afterFn (p : Platform) (place : Nat) (r : Run Unit) : Run Int :=
  match r.outcome with
  | .returned _ t => ⟨r.events ++ (leaveAttempt p 0 t).events, (leaveAttempt p 0 t).outcome⟩
  | .jumped env t =>
    if env = some place then
      ⟨r.events ++ (leaveAttempt p 1 t).events, (leaveAttempt p 1 t).outcome⟩
    else ⟨r.events, .jumped env t⟩
  | .defaultAction => ⟨r.events, .defaultAction⟩

/-- `libephmem_attempt`. A handle or a function may be a null pointer; what the
function does to the thread is an argument. -/
def libephmemAttempt (p : Platform) (handle : Option Handle) (fn : Option (Thread → Run Unit))
    (t : Thread) : Run Int :=
  match handle, fn with
  | some handle, some fn =>
    if t.inAttempt then
      ⟨[.printed "libephmem_attempt: Already in attempt context"], .returned (-1) t⟩
    else
      match setRights p .enabled t with
      | none => ⟨[.printed "Failed to enable access to ephemeral memory"], .returned (-1) t⟩
      | some t =>
        afterFn p t.saves (fn { t with
          env := some t.saves, saves := t.saves + 1, handle := some handle, inAttempt := true })
  | _, _ =>
    ⟨[.printed "libephmem_attempt: NULL handle or function pointer"], .returned (-1) t⟩

/-- `libephmem_put` and `libephmem_get`, but for the text; `copy` is what
`memcpy` does. -/
def libephmemCopy (p : Platform) (text : String) (handle : Handle) (offset len : BitVec 64)
    (copy : Thread → Run Unit) (t : Thread) : Run Int :=
  if offset > handle.size ∨ len > handle.size - offset then ⟨[.printed text], .returned (-1) t⟩
  else libephmemAttempt p (some handle) (some copy) t

def libephmemPut (p : Platform) : Handle → BitVec 64 → BitVec 64 → (Thread → Run Unit) → Thread →
    Run Int :=
  libephmemCopy p "libephmem_put: Attempt to write beyond allocated memory"

def libephmemGet (p : Platform) : Handle → BitVec 64 → BitVec 64 → (Thread → Run Unit) → Thread →
    Run Int :=
  libephmemCopy p "libephmem_get: Attempt to read beyond allocated memory"

-- ---------------------------------------------------------------------------
-- Functions
-- ---------------------------------------------------------------------------

/-- What a function does. It goes on after a call with what the call returned. -/
inductive Fn where
  | done
  /-- an access that does not fault, to memory with the key or without -/
  | access (keyed : Bool) (next : Fn)
  | fault (kind : Fault) (addr : Addr) (next : Fn)
  | attempt (handle : Option Handle) (fn : Fn) (next : Int → Fn)
  | attemptNull (handle : Option Handle) (next : Int → Fn)
  | put (dst : Handle) (offset len : BitVec 64) (copy : Fn) (next : Int → Fn)
  | get (src : Handle) (offset len : BitVec 64) (copy : Fn) (next : Int → Fn)

namespace Fn

/-- Run a function. An access to memory with the key needs the right to it:
there is no handler for SIGSEGV. -/
def run (p : Platform) : Fn → Thread → Run Unit
  | .done, t => ⟨[], .returned () t⟩
  | .access keyed next, t =>
    if keyed && p.usingPkey && t.rights = .disabled then ⟨[], .defaultAction⟩ else next.run p t
  | .fault kind addr next, t =>
    (Run.mk [.fault addr] (libephmemSigHandler p kind.siCode addr t)).bind
      fun _ t => next.run p t
  | .attempt handle fn next, t =>
    ((libephmemAttempt p handle (some (fn.run p)) t).nested t).bind fun v t => (next v).run p t
  | .attemptNull handle next, t =>
    ((libephmemAttempt p handle none t).nested t).bind fun v t => (next v).run p t
  | .put dst offset len copy next, t =>
    ((libephmemPut p dst offset len (copy.run p) t).nested t).bind fun v t => (next v).run p t
  | .get src offset len copy next, t =>
    ((libephmemGet p src offset len (copy.run p) t).nested t).bind fun v t => (next v).run p t

end Fn

-- ---------------------------------------------------------------------------
-- Inside an attempt
-- ---------------------------------------------------------------------------

/-- The address lies in the handle's memory. -/
def InRange (addr : Addr) (handle : Handle) : Prop :=
  handle.ptr.toNat ≤ addr.toNat ∧ addr.toNat < handle.ptr.toNat + handle.size.toNat

/-- Mapped memory does not wrap around, so the sum is exact. -/
theorem addrInRange_iff {addr : Addr} {handle : Handle} :
    addrInRange addr handle = true ↔ InRange addr handle := by
  unfold addrInRange InRange
  rw [Bool.and_eq_true, decide_eq_true_eq, decide_eq_true_eq, ge_iff_le, BitVec.le_def,
    BitVec.lt_def, BitVec.toNat_add, Nat.mod_eq_of_lt handle.mapped]

/-- The faults the kernel reports are those the handler takes for synchronous. -/
theorem Fault.syncSigbus_siCode (f : Fault) : f.siCode.syncSigbus = true := by
  cases f <;> rfl

def Event.fault? : Event → Option Addr
  | .printed _ => none
  | .fault addr => some addr
  | .nested .. => none

/-- The address of the first access that faulted. -/
def firstFault (events : List Event) : Option Addr := events.findSome? Event.fault?

/-- Every call made by a function was refused and left the thread as it was. -/
def NestedRefused (events : List Event) : Prop :=
  ∀ v before after, .nested v before after ∈ events → v = -1 ∧ after = before

/-- The thread while the function of an attempt runs. -/
structure Inside (p : Platform) (handle : Handle) (t : Thread) : Prop where
  handle : t.handle = some handle
  inAttempt : t.inAttempt = true
  rights : p.usingPkey = true → t.rights = .enabled

/-- How a function ends inside an attempt: with the thread as it was, by a jump
to the attempt's place, or with the default action. -/
structure Ends (p : Platform) (handle : Handle) (t : Thread) (r : Run Unit) : Prop where
  nested : NestedRefused r.events
  quiet : firstFault r.events = none → r.outcome = .returned () t
  inside : ∀ addr, firstFault r.events = some addr → InRange addr handle →
    r.outcome = .jumped t.env { t with rights := p.inHandler t.rights }
  outside : ∀ addr, firstFault r.events = some addr → ¬ InRange addr handle →
    r.outcome = .defaultAction

/-- Events that are no faults may come before. -/
theorem Ends.cons {p : Platform} {handle : Handle} {t : Thread} {r r' : Run Unit}
    (h : Ends p handle t r) (events : List Event) (hEvents : r'.events = events ++ r.events)
    (hOutcome : r'.outcome = r.outcome) (hFault : firstFault events = none)
    (hNested : NestedRefused events) : Ends p handle t r' := by
  have hFirst : firstFault r'.events = firstFault r.events := by
    unfold firstFault at hFault ⊢
    rw [hEvents, List.findSome?_append, hFault, Option.none_or]
  refine ⟨fun v before after hMem => ?_, ?_, ?_, ?_⟩
  · rw [hEvents] at hMem
    rcases List.mem_append.mp hMem with hNew | hOld
    · exact hNested v before after hNew
    · exact h.nested v before after hOld
  · rw [hFirst, hOutcome]
    exact h.quiet
  · rw [hFirst, hOutcome]
    exact h.inside
  · rw [hFirst, hOutcome]
    exact h.outside

/-- Inside an attempt no other is made. -/
theorem libephmemAttempt_refused (p : Platform) (handle : Option Handle)
    (fn : Option (Thread → Run Unit)) {t : Thread} (h : t.inAttempt = true) :
    ∃ text, libephmemAttempt p handle fn t = ⟨[.printed text], .returned (-1) t⟩ := by
  unfold libephmemAttempt
  split
  · rw [if_pos h]
    exact ⟨_, rfl⟩
  · exact ⟨_, rfl⟩

/-- Inside an attempt a copy is refused before it touches anything. -/
theorem libephmemCopy_refused (p : Platform) (message : String) (handle : Handle)
    (offset len : BitVec 64) (copy : Thread → Run Unit) {t : Thread} (h : t.inAttempt = true) :
    ∃ text, libephmemCopy p message handle offset len copy t =
      ⟨[.printed text], .returned (-1) t⟩ := by
  unfold libephmemCopy
  split
  · exact ⟨_, rfl⟩
  · exact libephmemAttempt_refused p _ _ h

/-- So a function goes on after a call as if the thread had done nothing. -/
theorem Ends.call {p : Platform} {handle : Handle} {t : Thread} {r : Run Int}
    {next : Int → Thread → Run Unit}
    (hRefused : ∃ text, r = ⟨[.printed text], .returned (-1) t⟩)
    (h : Ends p handle t (next (-1) t)) : Ends p handle t ((r.nested t).bind next) := by
  obtain ⟨text, rfl⟩ := hRefused
  refine h.cons [.printed text, .nested (-1) t t] rfl rfl rfl
    fun v before after hMem => ?_
  rcases List.mem_cons.mp hMem with hPrinted | hMem
  · cases hPrinted
  · cases List.mem_singleton.mp hMem
    exact ⟨rfl, rfl⟩

/-- Inside an attempt the handler jumps just when the fault is in range. -/
theorem Inside.libephmemSigHandler {p : Platform} {handle : Handle} {t : Thread}
    (h : Inside p handle t) (kind : Fault) (addr : Addr) :
    libephmemSigHandler p kind.siCode addr t =
      if addrInRange addr handle then .jumped t.env { t with rights := p.inHandler t.rights }
      else .defaultAction := by
  have hJump : (t.inAttempt && kind.siCode.syncSigbus && addrInRange addr handle) =
      addrInRange addr handle := by
    rw [h.inAttempt, kind.syncSigbus_siCode, Bool.true_and, Bool.true_and]
  unfold Libephmem.libephmemSigHandler
  split
  · rename_i handle' hHandle
    cases h.handle.symm.trans hHandle
    rw [hJump]
  · rename_i hHandle
    cases h.handle.symm.trans hHandle

/-- How every function ends inside an attempt. -/
theorem Fn.run_inside {p : Platform} {handle : Handle} {t : Thread} (h : Inside p handle t)
    (fn : Fn) : Ends p handle t (fn.run p t) := by
  induction fn with
  | done =>
    rw [Fn.run]
    exact ⟨fun _ _ _ hMem => absurd hMem List.not_mem_nil, fun _ => rfl,
      fun _ hFault => (nomatch hFault), fun _ hFault => (nomatch hFault)⟩
  | access keyed next ih =>
    rw [Fn.run, if_neg ?_]
    · exact ih
    · intro hDenied
      rw [Bool.and_eq_true, Bool.and_eq_true, decide_eq_true_eq] at hDenied
      rw [h.rights hDenied.1.2] at hDenied
      cases hDenied.2
  | fault kind addr next _ =>
    have hNested : NestedRefused [.fault addr] := fun v before after hMem =>
      nomatch List.mem_singleton.mp hMem
    rw [Fn.run, h.libephmemSigHandler]
    by_cases hRange : addrInRange addr handle = true
    · rw [if_pos hRange]
      refine ⟨hNested, fun hNone => (nomatch hNone), fun _ _ _ => rfl, fun addr' hFault hOut => ?_⟩
      cases hFault
      exact absurd (addrInRange_iff.mp hRange) hOut
    · rw [if_neg hRange]
      refine ⟨hNested, fun hNone => (nomatch hNone), fun addr' hFault hIn => ?_, fun _ _ _ => rfl⟩
      cases hFault
      exact absurd (addrInRange_iff.mpr hIn) hRange
  | attempt handle' fn next _ ih =>
    rw [Fn.run]
    exact Ends.call (libephmemAttempt_refused p _ _ h.inAttempt) (ih (-1))
  | attemptNull handle' next ih =>
    rw [Fn.run]
    exact Ends.call (libephmemAttempt_refused p _ _ h.inAttempt) (ih (-1))
  | put dst offset len copy next _ ih =>
    rw [Fn.run]
    exact Ends.call (libephmemCopy_refused p _ _ _ _ _ h.inAttempt) (ih (-1))
  | get src offset len copy next _ ih =>
    rw [Fn.run]
    exact Ends.call (libephmemCopy_refused p _ _ _ _ _ h.inAttempt) (ih (-1))

-- ---------------------------------------------------------------------------
-- An attempt
-- ---------------------------------------------------------------------------

/-- Where setting rights does not fail, the thread goes on with them. -/
theorem setRights_eq {p : Platform} (hPkey : ∀ rights, p.pkeySetOk rights = true)
    (rights : Rights) (t : Thread) :
    ∃ t', setRights p rights t = some t' ∧ t'.inAttempt = t.inAttempt ∧
      (p.usingPkey = true → t'.rights = rights) := by
  unfold setRights
  by_cases hUsing : p.usingPkey = true
  · rw [if_pos hUsing, if_pos (hPkey rights)]
    exact ⟨_, rfl, rfl, fun _ => rfl⟩
  · rw [if_neg hUsing]
    exact ⟨_, rfl, rfl, fun h => absurd h hUsing⟩

/-- Whatever way out was taken, the context is left and access is disabled. -/
theorem leaveAttempt_eq {p : Platform} (hPkey : ∀ rights, p.pkeySetOk rights = true)
    (result : Int) (t : Thread) :
    ∃ t', leaveAttempt p result t = ⟨[], .returned result t'⟩ ∧ t'.inAttempt = false ∧
      (p.usingPkey = true → t'.rights = .disabled) := by
  obtain ⟨t', hSet, hIn, hRights⟩ :=
    setRights_eq hPkey .disabled { t with inAttempt := false }
  unfold leaveAttempt
  rw [hSet]
  exact ⟨t', rfl, hIn, hRights⟩

/-- What an attempt on the memory of `handle` comes to. -/
structure Discipline (p : Platform) (handle : Handle) (r : Run Int) : Prop where
  recovered : (∃ t, r.outcome = .returned 1 t) ↔
    ∃ addr, firstFault r.events = some addr ∧ InRange addr handle
  succeeded : (∃ t, r.outcome = .returned 0 t) ↔ firstFault r.events = none
  killed : r.outcome = .defaultAction ↔
    ∃ addr, firstFault r.events = some addr ∧ ¬ InRange addr handle
  /-- when it returns, the attempt is over and access disabled -/
  left : ∀ v t, r.outcome = .returned v t →
    t.inAttempt = false ∧ (p.usingPkey = true → t.rights = .disabled)
  /-- the calls the function made were refused and changed nothing -/
  nested : NestedRefused r.events

/-- Whatever way the function ended, the attempt ends as the library says. -/
theorem Ends.afterFn {p : Platform} (hPkey : ∀ rights, p.pkeySetOk rights = true)
    {handle : Handle} {t : Thread} {body : Run Unit} (h : Ends p handle t body) {place : Nat}
    (hEnv : t.env = some place) : Discipline p handle (afterFn p place body) := by
  unfold Libephmem.afterFn
  cases hFault : firstFault body.events with
  | none =>
    obtain ⟨t', hLeave, hLeft⟩ := leaveAttempt_eq hPkey 0 t
    simp only [h.quiet hFault, hLeave, List.append_nil]
    refine ⟨⟨?_, ?_⟩, ⟨fun _ => hFault, fun _ => ⟨t', rfl⟩⟩, ⟨?_, ?_⟩, ?_, h.nested⟩
    · rintro ⟨t₁, heq⟩
      cases heq
    · rintro ⟨addr, hSome, -⟩
      cases hFault.symm.trans hSome
    · intro heq
      cases heq
    · rintro ⟨addr, hSome, -⟩
      cases hFault.symm.trans hSome
    · intro v t₁ heq
      cases heq
      exact hLeft
  | some addr =>
    by_cases hRange : InRange addr handle
    · obtain ⟨t', hLeave, hLeft⟩ :=
        leaveAttempt_eq hPkey 1 { t with rights := p.inHandler t.rights }
      simp only [h.inside addr hFault hRange, hEnv, if_true] at hLeave ⊢
      simp only [hLeave, List.append_nil]
      refine ⟨⟨fun _ => ⟨addr, hFault, hRange⟩, fun _ => ⟨t', rfl⟩⟩, ⟨?_, ?_⟩, ⟨?_, ?_⟩, ?_,
        h.nested⟩
      · rintro ⟨t₁, heq⟩
        cases heq
      · intro hNone
        cases hFault.symm.trans hNone
      · intro heq
        cases heq
      · rintro ⟨addr', hSome, hOut⟩
        cases hFault.symm.trans hSome
        exact absurd hRange hOut
      · intro v t₁ heq
        cases heq
        exact hLeft
    · simp only [h.outside addr hFault hRange]
      refine ⟨⟨?_, ?_⟩, ⟨?_, ?_⟩, ⟨fun _ => ⟨addr, hFault, hRange⟩, fun _ => rfl⟩, ?_, h.nested⟩
      · rintro ⟨t₁, heq⟩
        cases heq
      · rintro ⟨addr', hSome, hIn⟩
        cases hFault.symm.trans hSome
        exact absurd hIn hRange
      · rintro ⟨t₁, heq⟩
        cases heq
      · intro hNone
        cases hFault.symm.trans hNone
      · intro v t₁ heq
        cases heq

/-- **Attempts are left as they were entered.** Whatever a function does, with
a thread that is in no attempt and with `pkey_set` succeeding:
`libephmem_attempt` returns 1 just when the first access that faults is one to
the handle's memory, 0 just when none faults, and the process dies of the
signal just when the first is elsewhere; when it returns, the thread is in no
attempt and cannot access memory with the key; and every call the function
made was refused and changed nothing. -/
theorem attempt_discipline {p : Platform} (hPkey : ∀ rights, p.pkeySetOk rights = true)
    (handle : Handle) (fn : Fn) {t : Thread} (hOut : t.inAttempt = false) :
    Discipline p handle (libephmemAttempt p (some handle) (some (fn.run p)) t) := by
  obtain ⟨t', hSet, -, hRights⟩ := setRights_eq hPkey .enabled t
  have hInside : Inside p handle { t' with
      env := some t'.saves, saves := t'.saves + 1, handle := some handle, inAttempt := true } :=
    ⟨rfl, rfl, hRights⟩
  unfold libephmemAttempt
  simp only [hOut, Bool.false_eq_true, if_false, hSet]
  exact (Fn.run_inside hInside fn).afterFn hPkey rfl

def demoHandle : Handle := ⟨0x7000, 0x1000, by decide⟩

def demoPlatform : Platform := ⟨true, fun _ => true, fun _ => .disabled⟩

/-- An access, two calls and a fault. -/
def demoFn : Fn :=
  .access true (.attempt (some demoHandle) .done fun _ =>
    .put demoHandle 0 16 .done fun _ => .fault .mceerrAr 0x7010 .done)

theorem attempt_discipline_demo :
    ∃ t, (libephmemAttempt demoPlatform (some demoHandle) (some (demoFn.run demoPlatform))
        ⟨none, none, false, .disabled, 0⟩).outcome = .returned 1 t ∧
      t.inAttempt = false ∧ t.rights = .disabled := by
  have hAll : ∀ rights, demoPlatform.pkeySetOk rights = true := fun _ => rfl
  have h := attempt_discipline hAll demoHandle demoFn
    (t := ⟨none, none, false, .disabled, 0⟩) rfl
  obtain ⟨t, ht⟩ := h.recovered.mpr ⟨0x7010, rfl, by decide, by decide⟩
  exact ⟨t, ht, (h.left 1 t ht).1, (h.left 1 t ht).2 rfl⟩

end EphMemory.Libephmem
