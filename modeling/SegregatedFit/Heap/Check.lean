import SegregatedFit.Heap
import SegregatedFit.Corruption
import Std.Data.TreeSet

/-!
The consistency check: a walk over the blocks, a walk over the free lists, and a comparison of the
number of free blocks that each of them met. It answers with the first violation. Its reads are
guarded, so it answers on every content of the heap.
-/

namespace SegregatedFit.Heap

-- Checks the blocks from `b` on, `free` free ones having been met before, and returns the number of
-- all free ones. Each step goes on by sixteen bytes or more and stays inside the region, so it
-- reaches its end within `size / 16` steps; the last answer stands for a walk past it.
def checkBlocksFrom (memory : Memory) (base : Nat) :
    (fuel : Nat) → Block → (free : Nat) → Except Fault (Except Corruption Nat)
  | 0, b, _ => .ok (.error (.outOfHeap b))
  | fuel + 1, b, free => do
    if memory.size < b then return .error (.outOfHeap b)
    let tag ← b.tag memory
    if tag.size = 0 then
      if tag.allocated ∧ b = memory.size then return .ok free
      return .error (.badEpilogue b)
    if (base + b) % alignment ≠ 0 then return .error (.misaligned b)
    if tag.size < minBlockSize then return .error (.badSize b tag.size)
    if memory.size < b + tag.size then return .error (.outOfHeap b)
    let header ← memory.readWord (← b.header)
    let footer ← memory.readWord (← b.footer memory)
    if header ≠ footer then return .error (.tagMismatch b header footer)
    let next : Block := b + tag.size
    if tag.allocated then
      checkBlocksFrom memory base fuel next free
    else
      let after ← next.tag memory
      if after.size ≠ 0 ∧ ¬after.allocated ∧ tag.size + after.size ≤ maxBlockSize then
        return .error (.uncoalesced b)
      checkBlocksFrom memory base fuel next (free + 1)

-- Checks the prologue and every block up to the epilogue; returns the number of free blocks.
def checkBlocks (h : Heap) (base : Nat) : Except Fault (Except Corruption Nat) := do
  let sentinel := Tag.used overhead
  if (← h.prologue.tag h.memory) ≠ sentinel then return .error (.badPrologue h.prologue)
  if (← h.prologue.footerTag h.memory) ≠ sentinel then return .error (.badPrologue h.prologue)
  checkBlocksFrom h.memory base (h.memory.size / 16 + 1) (h.prologue + overhead) 0

-- Checks the list of class `c` from `cursor` on, `before` being the block met last; returns all the
-- blocks met so far. Only linked blocks have a successor, so more steps than there are links meet
-- some block twice.
def checkListFrom (memory : Memory) (index : Index) (c : SizeClass) :
    (fuel : Nat) → (before cursor : Option Block) → (seen : Std.TreeSet Nat) →
      Except Fault (Except Corruption (Std.TreeSet Nat))
  | _, _, none, seen => .ok (.ok seen)
  | 0, _, some _, _ => .ok (.error (.listCycle c))
  | fuel + 1, before, some b, seen => do
    if seen.contains b then return .error (.listCycle c)
    if b < Memory.wordSize ∨ memory.size - 1 < b then return .error (.outOfBounds c b)
    let tag ← b.tag memory
    if tag.allocated then return .error (.allocatedInList c b)
    if SizeClass.ofSize tag.size ≠ c then return .error (.wrongClass c b tag.size)
    if index.pred b ≠ before then return .error (.brokenLink b before (index.pred b))
    checkListFrom memory index c fuel (some b) (index.succ b) (seen.insert b)

def checkClasses (memory : Memory) (index : Index) :
    List SizeClass → Std.TreeSet Nat → Except Fault (Except Corruption (Std.TreeSet Nat))
  | [], seen => .ok (.ok seen)
  | c :: rest, seen => do
    match ← checkListFrom memory index c (index.size + 2) none (index.root c) seen with
    | .error corruption => return .error corruption
    | .ok seen => checkClasses memory index rest seen

-- Checks every list; returns the number of listed blocks.
def checkLists (h : Heap) : Except Fault (Except Corruption Nat) := do
  match ← checkClasses h.memory h.index SizeClass.all ∅ with
  | .error corruption => return .error corruption
  | .ok seen =>
    if seen.size ≠ h.index.size then return .error (.orphanLinks seen.size h.index.size)
    return .ok seen.size

-- Verifies every invariant; `base` is the address of the region's first byte.
def check (h : Heap) (base : Nat) : Except Fault (Except Corruption Unit) := do
  match ← h.checkBlocks base with
  | .error corruption => return .error corruption
  | .ok free =>
    match ← h.checkLists with
    | .error corruption => return .error corruption
    | .ok listed =>
      if free ≠ listed then return .error (.freeCountMismatch free listed)
      return .ok ()

end SegregatedFit.Heap
