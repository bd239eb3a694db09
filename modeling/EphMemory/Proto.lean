import Mathlib

/-!
# The wire protocol

What `eph_proto` shares between the orchestrator and the daemon of a consumer
guest: the donation granularity with the rounding both sides apply to a
request, and the commands they exchange over vsock. `libephmem` and the daemon
exchange the same commands over a Unix socket.
-/

namespace EphMemory

-- ---------------------------------------------------------------------------
-- Granularity
-- ---------------------------------------------------------------------------

/-- `EPH_MEM_DONATION_GRANULARITY`, 256 MiB. -/
def granularity : Nat := 256 * 1024 * 1024

theorem granularity_pos : 0 < granularity := by decide

/-- `u64::checked_next_multiple_of(EPH_MEM_DONATION_GRANULARITY)`. -/
def checkedNextMultipleOf (n : Nat) : Option Nat :=
  if n % granularity = 0 then some n
  else if n + (granularity - n % granularity) < 2 ^ 64 then
    some (n + (granularity - n % granularity))
  else none

/-- What is rounded up is whole granules. -/
theorem dvd_of_checkedNextMultipleOf {n m : Nat} (h : checkedNextMultipleOf n = some m) :
    granularity ∣ m := by
  unfold checkedNextMultipleOf at h
  split at h
  · rename_i hZero
    cases h
    exact Nat.dvd_of_mod_eq_zero hZero
  · split at h
    · cases h
      have hLt := Nat.mod_lt n granularity_pos
      have hDiv := Nat.div_add_mod n granularity
      refine ⟨n / granularity + 1, ?_⟩
      rw [Nat.mul_add, Nat.mul_one]
      omega
    · cases h

-- ---------------------------------------------------------------------------
-- Commands
-- ---------------------------------------------------------------------------

inductive ConsumerFunction where
  | ephMemRequest
  | ephMemResponse
  deriving DecidableEq, Repr

/-- A command. A field that does not apply is left out of its JSON. -/
structure ConsumerCommand where
  function : ConsumerFunction
  size : Option Nat
  offset : Option Nat
  id : Option Nat
  more : Option Bool
  deriving DecidableEq, Repr

namespace ConsumerCommand

def new (function : ConsumerFunction) (size offset : Option Nat) : ConsumerCommand :=
  ⟨function, size, offset, none, none⟩

def withId (cmd : ConsumerCommand) (id : Option Nat) : ConsumerCommand := { cmd with id := id }

def withMore (cmd : ConsumerCommand) (more : Bool) : ConsumerCommand :=
  { cmd with more := some more }

/-- `cmd.more.unwrap_or(false)`: more responses to the request follow. -/
def hasMore (cmd : ConsumerCommand) : Bool := cmd.more.getD false

/-- The response for an allocation, given by its size and offset. -/
def response (id : Option Nat) (a : Nat × Nat) (more : Bool) : ConsumerCommand :=
  ((new .ephMemResponse (some a.1) (some a.2)).withId id).withMore more

end ConsumerCommand

/-- `send_consumer_response`: one response for each allocation, all but the last
marked `more`. -/
def sendConsumerResponse (id : Option Nat) : List (Nat × Nat) → List ConsumerCommand
  | [] => []
  | a :: rest => .response id a (!rest.isEmpty) :: sendConsumerResponse id rest

/-- The response for each allocation says whether another follows. -/
theorem getElem?_sendConsumerResponse (id : Option Nat) (l : List (Nat × Nat)) (j : Nat) :
    (sendConsumerResponse id l)[j]? =
      l[j]?.map fun a => .response id a (decide (j + 1 < l.length)) := by
  induction l generalizing j with
  | nil => rfl
  | cons a rest ih =>
    cases j with
    | zero =>
      cases rest with
      | nil => rfl
      | cons b rest => simp [sendConsumerResponse]
    | succ j => simp [sendConsumerResponse, ih j]

end EphMemory
