import SegregatedFit.Heap

/-!
The walk over the blocks between the prologue and the epilogue, and the occupancy it adds up to.
-/

namespace SegregatedFit

structure BlockInfo where
  offset : Nat
  size : Nat
  allocated : Bool
deriving DecidableEq, Repr, Inhabited

structure HeapStats where
  heapBytes : Nat
  allocatedBlocks : Nat
  allocatedBytes : Nat
  freeBlocks : Nat
  freeBytes : Nat
deriving DecidableEq, Repr, Inhabited

namespace HeapStats

def ofSize (heapBytes : Nat) : HeapStats := ⟨heapBytes, 0, 0, 0, 0⟩

def count (s : HeapStats) (b : BlockInfo) : HeapStats :=
  if b.allocated then
    { s with
      allocatedBlocks := s.allocatedBlocks + 1
      allocatedBytes := s.allocatedBytes + b.size }
  else
    { s with
      freeBlocks := s.freeBlocks + 1
      freeBytes := s.freeBytes + b.size }

end HeapStats

namespace Heap

-- The blocks met from `b` on, after those in `met`, and the fault that cut the walk short, if one
-- did. A tag of size zero ends it. Every other block is at least eight bytes long, so `fuel` blocks
-- span `8 * fuel` bytes, and a walk that uses up its fuel has left the region.
def walkFrom (memory : Memory) :
    (fuel : Nat) → Block → (met : Array BlockInfo) → Array BlockInfo × Option Fault
  | 0, _, met => (met, some .outOfBounds)
  | fuel + 1, b, met =>
    match b.tag memory with
    | .error fault => (met, some fault)
    | .ok tag =>
      if tag.size = 0 then (met, none)
      else walkFrom memory fuel (b + tag.size) (met.push ⟨b, tag.size, tag.allocated⟩)

-- The blocks met before the walk ends or leaves the region.
def trail (h : Heap) : Array BlockInfo × Option Fault :=
  match h.prologue.next h.memory with
  | .error fault => (#[], some fault)
  | .ok first => walkFrom h.memory (h.memory.size / 8 + 2) first #[]

def blocks (h : Heap) : Except Fault (List BlockInfo) :=
  match h.trail with
  | (met, none) => .ok met.toList
  | (_, some fault) => .error fault

def stats (h : Heap) : Except Fault HeapStats :=
  return (← h.blocks).foldl .count (.ofSize h.memory.size)

end Heap

end SegregatedFit
