import EphMemory.Ephemerald.Allocations
import EphMemory.Ephemerald.Delivery
import EphMemory.Ephemerald.Identity
import EphMemory.Libephmem.Attempt
import EphMemory.Libephmem.Framing
import EphMemory.Libephmem.OwnGrant
import EphMemory.Libephmem.Resources
import EphMemory.Orchestrator.Addressee
import EphMemory.Orchestrator.Attribution
import EphMemory.Orchestrator.Backing
import EphMemory.Orchestrator.Budget
import EphMemory.Orchestrator.Confirmation
import EphMemory.Orchestrator.DonorExit
import EphMemory.Orchestrator.ExactlyOnce
import EphMemory.Orchestrator.Extents
import EphMemory.Orchestrator.FullGrants
import EphMemory.Orchestrator.GapChoice
import EphMemory.Orchestrator.Grouping
import EphMemory.Orchestrator.Ledger
import EphMemory.Orchestrator.Locks
import EphMemory.Orchestrator.Overflow
import EphMemory.Orchestrator.Quiescence
import EphMemory.Orchestrator.ReserveMemory
import EphMemory.Orchestrator.ReturnExact
import EphMemory.Orchestrator.Revocation
import EphMemory.Orchestrator.Rounds
import EphMemory.Orchestrator.Teardown
import EphMemory.Poc.Levels
import EphMemory.Qmp.Transcript
import EphMemory.Reservation
import EphMemory.Vsock.Exclusive
import EphMemory.Wire
