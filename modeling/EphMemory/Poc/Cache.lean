import EphMemory.Lib.Slots

/-!
# Proof of concept — the two-level cache

The workload of `libephmem_poc.cpp`: blocks are kept in main memory and, when
evicted from there, in ephemeral memory. Each level is a vector of slots, a
map from block ids to indices and a vector of ids, -1 where a slot is empty.
Ephemeral memory can be revoked, which is noticed when it is accessed; the
slot is then taken out of its level.

* `Draws` — what an iteration of the main loop is given: random numbers, and
  the results of `libephmem_attempt` and `libephmem_put`;
* `Cache.handleRevoked` — `handle_revoked_ephmem`;
* `Cache.iteration`, `Cache.run` — the main loop;
* `Config.start` — the checks and the state it starts in.

Times and the statistics printed are left out.
-/

namespace EphMemory.Poc

open EphMemory.Lib

-- ---------------------------------------------------------------------------
-- Blocks, integers and errors
-- ---------------------------------------------------------------------------

/-- `BLOCK_SIZE`: 2 MB. -/
def blockSize : Nat := 2 * 1024 * 1024

/-- The values of a block, an `int` each. -/
abbrev Block := List Int

def computeBlockSum (block : Block) : Int := block.sum

/-- A block after `fill_block`; an `int` has 4 bytes. -/
def fillBlock (value : Int) : Block := List.replicate (blockSize / 4) value

/-- An `unsigned long` converted to `int`. -/
def toInt (n : Nat) : Int := Int.bmod n (2 ^ 32)

/-- `n - 1` on `unsigned long`. -/
def pred64 (n : Nat) : Nat := (n + (2 ^ 64 - 1)) % 2 ^ 64

/-- How the program ends. -/
inductive Exit where
  /-- it prints the message and returns 1 -/
  | error (message : String)
  /-- an index outside a vector, or a handle that was freed -/
  | undefined
  deriving DecidableEq, Repr

/-- The element of a vector. -/
def get {α : Type} (l : List α) (i : Int) : Except Exit α :=
  match at? l i with
  | some a => .ok a
  | none => .error .undefined

/-- A draw from `uniform_int_distribution(0, hi)`, for the random number `r`. -/
def uniform (hi : Int) (r : Nat) : Int := r % (hi + 1)

/-- What `libephmem_attempt` and `libephmem_put` return. -/
inductive AttemptResult where
  /-- 0 -/
  | success
  /-- 1 -/
  | revoked
  /-- -1 -/
  | invalid
  deriving DecidableEq, Repr

/-- What an iteration draws and is told. -/
structure Draws where
  block : Nat
  mainVictim : Nat
  ephVictim : Nat
  attempt : AttemptResult
  put : AttemptResult

-- ---------------------------------------------------------------------------
-- The state of the main loop
-- ---------------------------------------------------------------------------

structure Cache where
  /-- pointers to the blocks in main memory, and what is there -/
  mainMemory : List Nat
  mainBlock : Nat → Block
  /-- handles, and what their memory holds; none when freed -/
  ephMemory : List Nat
  ephBlock : Nat → Option Block
  mainMemorySet : OrdMap Int Int
  mainMemoryRmap : List Int
  ephMemorySet : OrdMap Int Int
  ephMemoryRmap : List Int
  maxMainMemoryBlocks : Nat
  maxEphMemoryBlocks : Nat
  /-- the largest numbers the distributions draw -/
  blockSelector : Int
  mainMemoryEvictionSelector : Int
  ephMemoryEvictionSelector : Int

/-- The largest index of a level; 0 when it has none. -/
def lastIndex (maxBlocks : Nat) : Int := if maxBlocks > 0 then toInt (maxBlocks - 1) else 0

/-- The loop of `handle_revoked_ephmem` from index `i` on, `n` times. -/
def renumber (rmap : List Int) (set : OrdMap Int Int) (i : Nat) : Nat → Except Exit (OrdMap Int Int)
  | 0 => .ok set
  | n + 1 =>
    match get rmap i with
    | .error e => .error e
    | .ok id => renumber rmap (if id ≠ -1 then set.insert id (toInt i) else set) (i + 1) n

/-- How an access to a block went, with the sum over the block. -/
inductive Access where
  | mainHit (sum : Int)
  | ephHit (sum : Int)
  | miss (sum : Int)
  deriving DecidableEq, Repr

namespace Cache

/-- What the memory of a handle holds. -/
def contents (s : Cache) (handle : Nat) : Except Exit Block :=
  match s.ephBlock handle with
  | some block => .ok block
  | none => .error .undefined

/-- `handle_revoked_ephmem`: the slot at `bad_index` is freed and taken out. -/
def handleRevoked (s : Cache) (badIndex : Int) : Except Exit Cache := do
  let revokedBlockId ← get s.ephMemoryRmap badIndex
  let handle ← get s.ephMemory badIndex
  let ephMemorySet :=
    if revokedBlockId ≠ -1 then s.ephMemorySet.erase revokedBlockId else s.ephMemorySet
  let ephMemoryRmap := s.ephMemoryRmap.eraseIdx badIndex.toNat
  let maxEphMemoryBlocks := pred64 s.maxEphMemoryBlocks
  let ephMemorySet ← renumber ephMemoryRmap ephMemorySet badIndex.toNat
    (maxEphMemoryBlocks - badIndex.toNat)
  return { s with
    ephMemory := s.ephMemory.eraseIdx badIndex.toNat
    ephBlock := Function.update s.ephBlock handle none
    ephMemorySet, ephMemoryRmap, maxEphMemoryBlocks
    ephMemoryEvictionSelector := lastIndex maxEphMemoryBlocks }

/-- The slot in ephemeral memory a block is evicted to, -1 when there is none. -/
def ephSlot (s : Cache) (d : Draws) : Except Exit (Cache × Int) :=
  if s.ephMemorySet.size ≥ s.maxEphMemoryBlocks ∧ s.maxEphMemoryBlocks > 0 then do
    let ephMemIndex := uniform s.ephMemoryEvictionSelector d.ephVictim
    let ephEvictBlockId ← get s.ephMemoryRmap ephMemIndex
    if ephEvictBlockId = -1 then
      throw (.error "Failed to find block to evict from ephemeral memory")
    else
      return ({ s with
        ephMemorySet := s.ephMemorySet.erase ephEvictBlockId
        ephMemoryRmap := s.ephMemoryRmap.set ephMemIndex.toNat (-1) }, ephMemIndex)
  else if s.maxEphMemoryBlocks > 0 then return (s, toInt s.ephMemorySet.size)
  else return (s, -1)

/-- Move the block `evict_block_id` at `main_mem_index` to ephemeral memory. -/
def moveToEph (s : Cache) (d : Draws) (evictBlockId mainMemIndex ephMemIndex : Int) :
    Except Exit Cache := do
  let handle ← get s.ephMemory ephMemIndex
  let blockToEvict ← get s.mainMemory mainMemIndex
  let _ ← s.contents handle
  match d.put with
  | .revoked => s.handleRevoked ephMemIndex
  | .invalid => throw (.error "Invalid arguments for libephmem_put")
  | .success =>
    return { s with
      ephBlock := Function.update s.ephBlock handle (some (s.mainBlock blockToEvict))
      ephMemorySet := s.ephMemorySet.insert evictBlockId ephMemIndex
      ephMemoryRmap := s.ephMemoryRmap.set ephMemIndex.toNat evictBlockId }

/-- Evict the block `evict_block_id` from main memory. -/
def evictBlock (s : Cache) (d : Draws) (evictBlockId mainMemIndex : Int) : Except Exit Cache := do
  let (s, ephMemIndex) ← s.ephSlot d
  let s := { s with
    mainMemorySet := s.mainMemorySet.erase evictBlockId
    mainMemoryRmap := s.mainMemoryRmap.set mainMemIndex.toNat (-1) }
  if ephMemIndex ≠ -1 then s.moveToEph d evictBlockId mainMemIndex ephMemIndex
  else return s

/-- Choose a block to evict from main memory; the index it was at. -/
def evict (s : Cache) (d : Draws) : Except Exit (Cache × Int) := do
  let mainMemIndex := uniform s.mainMemoryEvictionSelector d.mainVictim
  let evictBlockId ← get s.mainMemoryRmap mainMemIndex
  if evictBlockId = -1 then
    throw (.error "Failed to find block to evict from main memory")
  else
    let s ← s.evictBlock d evictBlockId mainMemIndex
    return (s, mainMemIndex)

/-- Read the block from disk into main memory. -/
def load (s : Cache) (blockId mainMemIndex : Int) : Except Exit (Access × Cache) := do
  let block ← get s.mainMemory mainMemIndex
  let s := { s with
    mainBlock := Function.update s.mainBlock block (fillBlock blockId)
    mainMemorySet := s.mainMemorySet.insert blockId mainMemIndex
    mainMemoryRmap := s.mainMemoryRmap.set mainMemIndex.toNat blockId }
  return (.miss (computeBlockSum (s.mainBlock block)), s)

/-- The block is in neither memory. -/
def miss (s : Cache) (d : Draws) (blockId : Int) : Except Exit (Access × Cache) :=
  if s.mainMemorySet.size ≥ s.maxMainMemoryBlocks ∧ s.maxMainMemoryBlocks > 0 then do
    let (s, mainMemIndex) ← s.evict d
    s.load blockId mainMemIndex
  else s.load blockId (toInt s.mainMemorySet.size)

/-- The block is not in main memory. -/
def ephAccess (s : Cache) (d : Draws) (blockId : Int) : Except Exit (Access × Cache) :=
  match s.ephMemorySet.get? blockId with
  | none => s.miss d blockId
  | some index => do
    let handle ← get s.ephMemory index
    let block ← s.contents handle
    match d.attempt with
    | .revoked =>
      let s ← s.handleRevoked index
      s.miss d blockId
    | .invalid => throw (.error "Invalid arguments for libephmem_attempt")
    | .success => return (.ephHit (computeBlockSum block), s)

/-- The block an iteration chooses. -/
def blockId (s : Cache) (d : Draws) : Int := uniform s.blockSelector d.block

/-- An iteration of the main loop. -/
def iteration (s : Cache) (d : Draws) : Except Exit (Access × Cache) :=
  match s.mainMemorySet.get? (s.blockId d) with
  | some index => do
    let block ← get s.mainMemory index
    return (.mainHit (computeBlockSum (s.mainBlock block)), s)
  | none => s.ephAccess d (s.blockId d)

/-- The main loop, once for each element of the list. -/
def run (s : Cache) : List Draws → Except Exit Cache
  | [] => .ok s
  | d :: rest =>
    match s.iteration d with
    | .error e => .error e
    | .ok (_, s) => run s rest

end Cache

-- ---------------------------------------------------------------------------
-- The start
-- ---------------------------------------------------------------------------

/-- The block counts of the command line. -/
structure Config where
  totalBlocks : Nat
  maxMainMemoryBlocks : Nat
  maxEphMemoryBlocks : Nat

/-- `a + b` on `unsigned long`. -/
def add64 (a b : Nat) : Nat := (a + b) % 2 ^ 64

namespace Config

/-- The checks of the arguments. -/
def check (c : Config) : Except Exit Unit :=
  if c.totalBlocks = 0 ∨ c.maxMainMemoryBlocks = 0 then
    .error (.error "Error: total_blocks and max_main_memory_blocks must be > 0")
  else if c.totalBlocks < add64 c.maxMainMemoryBlocks c.maxEphMemoryBlocks then
    .error (.error
      "Error: total_blocks must be >= max_main_memory_blocks + max_eph_memory_blocks")
  else .ok ()

/-- The blocks in ephemeral memory once `libephmem_reserve` has returned
`ephMemReserveSize`. -/
def reserved (c : Config) (ephMemReserveSize : Nat) : Nat :=
  if c.maxEphMemoryBlocks > 0 ∧ ephMemReserveSize / blockSize < c.maxEphMemoryBlocks then
    ephMemReserveSize / blockSize
  else c.maxEphMemoryBlocks

/-- The state the main loop starts in with `maxEphMemoryBlocks` blocks in
ephemeral memory, when `mmap` and every `libephmem_alloc` succeed. All memory
is new, and zero. -/
def initial (c : Config) (maxEphMemoryBlocks : Nat) : Cache where
  mainMemory := List.range c.maxMainMemoryBlocks
  mainBlock _ := fillBlock 0
  ephMemory := List.range maxEphMemoryBlocks
  ephBlock handle := if handle < maxEphMemoryBlocks then some (fillBlock 0) else none
  mainMemorySet := .empty
  mainMemoryRmap := List.replicate c.maxMainMemoryBlocks (-1)
  ephMemorySet := .empty
  ephMemoryRmap := List.replicate maxEphMemoryBlocks (-1)
  maxMainMemoryBlocks := c.maxMainMemoryBlocks
  maxEphMemoryBlocks
  blockSelector := toInt (c.totalBlocks - 1)
  mainMemoryEvictionSelector := toInt (c.maxMainMemoryBlocks - 1)
  ephMemoryEvictionSelector := lastIndex maxEphMemoryBlocks

def start (c : Config) (ephMemReserveSize : Nat) : Except Exit Cache := do
  c.check
  return c.initial (c.reserved ephMemReserveSize)

end Config

end EphMemory.Poc
