import SegregatedFit.Index

/-!
The heap proper: the bytes with their boundary tags, and the index of the free blocks among them.
A region is laid out as

    pad | prologue | block | block | … | epilogue

where the prologue is an allocated block of eight bytes and the epilogue a lone header of size zero,
so that every block between them has a neighbour on both sides. Here stand the steps that every
request is made of: search, placement, release and merging.
-/

namespace SegregatedFit

structure Heap where
  memory : Memory
  index : Index
  prologue : Block

namespace Heap

instance : Inhabited Heap := ⟨⟨.empty, .empty, 0⟩⟩

-- Merges a block that has just become free with its free neighbours and files the result. A
-- neighbour stays as it is when a tag could not hold the joint size; the successor goes first.
def coalesce : Heap → Block → Except Fault (Block × Heap)
  | ⟨memory, index, prologue⟩, b => do
    let before ← b.prevTag memory
    let next ← b.next memory
    let after ← Block.tag memory next
    let size ← b.size memory
    let mergeNext := !after.allocated && size + after.size ≤ maxBlockSize
    let withNext := if mergeNext then size + after.size else size
    let mergePrev := !before.allocated && withNext + before.size ≤ maxBlockSize
    let start ← if mergePrev then subtract b before.size else pure b
    let index := if mergePrev then index.remove start before.size else index
    let index := if mergeNext then index.remove next after.size else index
    let total := if mergePrev then withNext + before.size else withNext
    let memory ← Block.write memory start (.free total)
    return (start, ⟨memory, index.insert start total, prologue⟩)

-- The smallest of the listed blocks that hold `need` bytes, the first among equals. `best` is the
-- choice so far, with its size; an exact fit ends the search at once.
def bestOf (memory : Memory) (need : Nat) (endless : Bool) :
    Option (Block × Nat) → List Block → Except Fault (Option Block)
  | best, [] => if endless then .error .endlessList else .ok (best.map (·.1))
  | best, b :: rest => do
    let size ← b.size memory
    if size = need then return some b
    let better := need < size && best.all (size < ·.2)
    bestOf memory need endless (if better then some (b, size) else best) rest

-- Best fit inside the first size class that holds any fit.
def findFit (h : Heap) (need : Nat) : Except Fault (Option Block) := search (SizeClass.fitting need)
where
  search : List SizeClass → Except Fault (Option Block)
    | [] => .ok none
    | c :: rest => do
      match ← bestOf h.memory need (h.index.endless c) none (h.index.chain c) with
      | some b => return some b
      | none => search rest

-- Makes the free block `b` an allocated one of `need` bytes. What is left over becomes a free block
-- when it is large enough for one, and otherwise stays with `b`.
def place : Heap → Block → Nat → Except Fault Heap
  | ⟨memory, index, prologue⟩, b, need => do
    let size ← b.size memory
    let index := index.remove b size
    let left ← subtract size need
    if minBlockSize ≤ left then
      let memory ← b.write memory (.used need)
      let rest ← b.next memory
      let memory ← Block.write memory rest (.free left)
      return ⟨memory, index.insert rest left, prologue⟩
    else
      let memory ← b.write memory (.used size)
      return ⟨memory, index, prologue⟩

-- Gives the allocated block `b` back.
def release : Heap → Block → Except Fault Heap
  | ⟨memory, index, prologue⟩, b => do
    let size ← b.size memory
    let memory ← b.write memory (.free size)
    let (_, h) ← coalesce ⟨memory, index, prologue⟩ b
    return h

-- Sets the two sentinels into the sixteen fresh bytes at `start`.
def seed (memory : Memory) (start : Nat) : Except Fault Heap := do
  let memory ← memory.writeWord start 0
  let prologue : Block := start + 8
  let memory ← prologue.write memory (.used overhead)
  let first ← prologue.next memory
  let memory ← Block.writeHeader memory first .epilogue
  return ⟨memory, .empty, prologue⟩

-- Makes the `size` fresh bytes at `b`, at the end of the region, one free block. Its header takes
-- the place of the old epilogue, and a new epilogue follows it.
def annex : Heap → Block → Nat → Except Fault Heap
  | ⟨memory, index, prologue⟩, b, size => do
    let memory ← b.write memory (.free size)
    let next ← b.next memory
    let memory ← Block.writeHeader memory next .epilogue
    return ⟨memory, index, prologue⟩

-- Makes the allocated block `b` span `size` bytes, up to the end of the region.
def stretch : Heap → Block → Nat → Except Fault Heap
  | ⟨memory, index, prologue⟩, b, size => do
    let memory ← b.write memory (.used size)
    let next ← b.next memory
    let memory ← Block.writeHeader memory next .epilogue
    return ⟨memory, index, prologue⟩

-- Joins the free block `next`, of size `gain`, to the allocated block `b` before it.
def absorb : Heap → (b next : Block) → (gain total : Nat) → Except Fault Heap
  | ⟨memory, index, prologue⟩, b, next, gain, total => do
    let memory ← b.write memory (.used total)
    return ⟨memory, index.remove next gain, prologue⟩

-- The payload bytes of a block, all of which must lie inside the region.
def payload (h : Heap) (b : Block) : Except Fault ByteArray := do
  h.memory.slice b (← b.usableSize h.memory)

-- Writes `bytes` at the start of the payload of `b`, which must have room for them.
def fill : Heap → Block → ByteArray → Except Fault Heap
  | ⟨memory, index, prologue⟩, b, bytes => do
    let usable ← b.usableSize memory
    if usable < bytes.size ∨ memory.size < b + usable then throw .outOfBounds
    return ⟨← memory.overwrite b bytes, index, prologue⟩

-- Whether byte `i` of the payload of `b` is `f i`, for every `i < count`.
def holds (h : Heap) (b : Block) (count : Nat) (f : Nat → UInt8) : Except Fault Bool := do
  let usable ← b.usableSize h.memory
  if usable < count ∨ h.memory.size < b + usable then throw .outOfBounds
  return h.memory.agrees b f count

-- Copies the `count` bytes at `source` to `target`.
def copy : Heap → (source target count : Nat) → Except Fault Heap
  | ⟨memory, index, prologue⟩, source, target, count => do
    let bytes ← memory.slice source count
    return ⟨← memory.overwrite target bytes, index, prologue⟩

end Heap

end SegregatedFit
