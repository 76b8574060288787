import SegregatedFit.Region.ProcessBreak
import Std.Data.TreeMap

/-!
Data segments: several numbered heaps that all grow by moving one process break, next to parties that
move it without telling them.
-/

namespace SegregatedFit

structure BreakHeap where
  start : Nat
  memory : Memory

structure DataSegment where
  limit : ProcessBreak
  heaps : Std.TreeMap Nat BreakHeap

namespace DataSegment

def ofBreak (limit : ProcessBreak) : DataSegment := ⟨limit, ∅⟩

-- Starts heap `number` anew at the break, which has been read as `seen`.
def openAt (d : DataSegment) (seen number : Nat) : Except GrowError Nat × DataSegment :=
  match BreakReserve.openAt d.limit seen with
  | (.ok start, limit) => (.ok start, ⟨limit, d.heaps.insert number ⟨start, .empty⟩⟩)
  | (.error cause, limit) => (.error cause, { d with limit })

-- Starts heap `number` anew, with nobody else at work.
def openHeap (d : DataSegment) (number : Nat) : Except GrowError DataSegment :=
  match d.openAt d.limit.current number with
  | (.ok _, d) => .ok d
  | (.error cause, _) => .error cause

def moveAway (d : DataSegment) (delta : Nat) : DataSegment :=
  { d with limit := d.limit.moveAway delta }

-- The region of a heap, with the break as it stands.
def region? (d : DataSegment) (number : Nat) : Option (Region BreakReserve) :=
  d.heaps[number]?.map fun heap => ⟨heap.memory, heap.start, d.limit⟩

-- Puts a region back that was taken out with `region?`.
def setRegion (d : DataSegment) (number : Nat) : Region BreakReserve → DataSegment
  | ⟨memory, start, limit⟩ => ⟨limit, d.heaps.insert number ⟨start, memory⟩⟩

-- Extends heap `number`; there is no answer when there is no such heap.
def extend (d : DataSegment) (number delta : Nat) :
    Option (Run (Except GrowError Nat × DataSegment)) :=
  (d.region? number).map fun region => do
    let (answer, region) ← region.extend delta
    return (answer, d.setRegion number region)

end DataSegment

end SegregatedFit
