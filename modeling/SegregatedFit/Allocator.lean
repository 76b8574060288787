import SegregatedFit.Heap.Check
import SegregatedFit.Region

/-!
The allocator: a heap over a region that can grow. It hands out blocks by best fit within the first
size class that has any, grows the region when none has, and resizes a block in place whenever its
neighbourhood allows.
-/

namespace SegregatedFit

-- The least number of bytes asked of the region when no free block fits.
structure ChunkSize where
  val : Nat
  le_val : minBlockSize ≤ val
  val_le : val ≤ maxBlockSize
  aligned : val % alignment = 0
deriving DecidableEq

inductive InitError where
  | invalidChunkSize (size : Nat)
  | heap (cause : GrowError)
deriving DecidableEq, Repr, Inhabited

def InitError.message : InitError → String
  | invalidChunkSize size => s!"invalid chunk size {size}"
  | heap cause => s!"unable to reserve the initial heap: {cause.message}"

namespace ChunkSize

-- Four kibibytes.
def default : ChunkSize := ⟨4096, by decide, by decide, by decide⟩

instance : Inhabited ChunkSize := ⟨default⟩

def ofNat (size : Nat) : Except InitError ChunkSize :=
  if h : minBlockSize ≤ size ∧ size ≤ maxBlockSize ∧ size % alignment = 0 then
    .ok ⟨size, h.1, h.2.1, h.2.2⟩
  else .error (.invalidChunkSize size)

end ChunkSize

structure Allocator (ρ : Type) where
  heap : Heap
  reserve : ρ
  chunk : ChunkSize

namespace Allocator

variable {ρ : Type}

-- Lets a step change the heap.
def update : Allocator ρ → (Heap → Except Fault Heap) → Run (Allocator ρ)
  | ⟨heap, reserve, chunk⟩, step => return ⟨← step heap, reserve, chunk⟩

-- Takes a block back; nothing happens without one.
def free (a : Allocator ρ) : Option Block → Run (Allocator ρ)
  | none => return a
  | some b => a.update (·.release b)

def usableSize (a : Allocator ρ) (b : Block) : Except Fault Nat := b.usableSize a.heap.memory

def payload (a : Allocator ρ) (b : Block) : Except Fault ByteArray := a.heap.payload b

-- Gives the region back.
def toRegion : Allocator ρ → Region ρ
  | ⟨heap, reserve, _⟩ => ⟨heap.memory, reserve⟩

-- Reports every block and the length of every free list, when such events are let through.
def dump (a : Allocator ρ) (filter : LevelFilter) : Run Unit := do
  if filter.admits .trace then
    let memory := a.heap.memory
    Run.emit (.heapSpan 0 (memory.size - 1))
    let (met, cut) := a.heap.trail
    Run.emitAll (met.map .blockSeen)
    if let some fault := cut then Run.quiet (.error fault)
    SizeClass.all.forM fun c => do
      if a.heap.index.endless c then Run.quiet (.error .endlessList)
      let count := (a.heap.index.chain c).length
      if 0 < count then Run.emit (.listCounted c count)

variable [Reserve ρ]

-- Asks the reserve for `delta` more bytes at the end of the heap.
def extend : Allocator ρ → Nat → Run (Except GrowError Block × Allocator ρ)
  | ⟨⟨memory, index, prologue⟩, reserve, chunk⟩, delta => do
    let (answer, ⟨memory, reserve⟩) ← Region.extend ⟨memory, reserve⟩ delta
    return (answer, ⟨⟨memory, index, prologue⟩, reserve, chunk⟩)

-- Extends the heap by `bytes`, rounded up, and returns the free block that the new bytes are in.
def grow (a : Allocator ρ) (bytes : Nat) : Run (Except GrowError Block × Allocator ρ) := do
  let size := alignUp bytes
  match ← a.extend size with
  | (.error cause, a) => return (.error cause, a)
  | (.ok b, a) =>
    let a ← a.update (·.annex b size)
    Run.emit (.heapGrew size b)
    let ⟨heap, reserve, chunk⟩ := a
    let (merged, heap) ← heap.coalesce b
    return (.ok merged, ⟨heap, reserve, chunk⟩)

-- Sets up the sentinels at the end of a region, and the first chunk after them.
def init (region : Region ρ) (chunk : ChunkSize) : Run (Except InitError (Allocator ρ)) := do
  match ← region.extend 16 with
  | (.error cause, _) => return .error (.heap cause)
  | (.ok start, ⟨memory, reserve⟩) =>
    let heap ← Heap.seed memory start
    match ← grow ⟨heap, reserve, chunk⟩ chunk.val with
    | (.error cause, _) => return .error (.heap cause)
    | (.ok _, a) =>
      Run.emit (.heapInitialized (Reserve.base a.reserve) a.heap.memory.size chunk.val)
      return .ok a

-- Hands out a block with at least `size` usable bytes; none for an empty request, for one that no
-- tag can describe, and when the region does not grow.
def allocate (a : Allocator ρ) (size : Nat) : Run (Option Block × Allocator ρ) := do
  if size = 0 then return (none, a)
  match blockSizeFor size with
  | none =>
    Run.emit (.allocationTooLarge size)
    return (none, a)
  | some need =>
    match ← a.heap.findFit need with
    | some b => return (some b, ← a.update (·.place b need))
    | none =>
      match ← a.grow (max need a.chunk.val) with
      | (.ok b, a) => return (some b, ← a.update (·.place b need))
      | (.error cause, a) =>
        Run.emit (.allocationFailed size cause)
        return (none, a)

-- Gives block `b`, of `size` bytes, room for `request` bytes, which take a block of `need` bytes.
-- A block that is large enough stays as it is. A free successor is taken in whole, so that what is
-- left over serves later growth. The last block is extended together with the region by exactly
-- what it lacks. Otherwise the content moves to a new block.
def resize (a : Allocator ρ) (b : Block) (request need : Nat) :
    Run (Option Block × Allocator ρ) := do
  let size ← b.size a.heap.memory
  if need ≤ size then return (some b, a)
  let next ← b.next a.heap.memory
  let after ← Block.tag a.heap.memory next
  let total := size + after.size
  if ¬after.allocated ∧ need ≤ total ∧ total ≤ maxBlockSize then
    let a ← a.update (·.absorb b next after.size total)
    Run.emit (.grewInPlace b total)
    return (some b, a)
  if after.size = 0 then
    match ← a.extend (need - size) with
    | (.error cause, a) =>
      Run.emit (.reallocationFailed request cause)
      return (none, a)
    | (.ok _, a) =>
      let a ← a.update (·.stretch b need)
      Run.emit (.extendedTail b need)
      return (some b, a)
  match ← a.allocate request with
  | (none, a) => return (none, a)
  | (some moved, a) =>
    let count := min (← subtract size overhead) request
    let a ← a.update (·.copy b moved count)
    let a ← a.free (some b)
    return (some moved, a)

-- Resizes a block; without one this allocates, and to size zero it frees. When there is no room the
-- block stays as it is.
def reallocate (a : Allocator ρ) (block : Option Block) (size : Nat) :
    Run (Option Block × Allocator ρ) :=
  match block with
  | none => a.allocate size
  | some b => do
    if size = 0 then return (none, ← a.free (some b))
    match blockSizeFor size with
    | none =>
      Run.emit (.reallocationTooLarge size)
      return (none, a)
    | some need => a.resize b size need

-- The address of a payload.
def address (a : Allocator ρ) (b : Block) : Nat := Reserve.base a.reserve + b

-- Verifies every invariant of the heap and reports the first violation.
def check (a : Allocator ρ) : Run (Except Corruption Unit) := do
  match ← a.heap.check (Reserve.base a.reserve) with
  | .ok () => return .ok ()
  | .error corruption =>
    Run.emit (.checkFailed corruption)
    return .error corruption

end Allocator

end SegregatedFit
