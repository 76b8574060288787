import SegregatedFit.Text.Hex

/-!
What a consistency check can find. Offsets are payload offsets.
-/

namespace SegregatedFit

inductive Corruption where
  | badPrologue (block : Nat)
  | badEpilogue (block : Nat)
  | misaligned (block : Nat)
  | badSize (block size : Nat)
  | outOfHeap (block : Nat)
  | tagMismatch (block : Nat) (header footer : UInt32)
  | uncoalesced (block : Nat)
  | outOfBounds (list block : Nat)
  | allocatedInList (list block : Nat)
  | wrongClass (list block size : Nat)
  | brokenLink (block : Nat) (expected found : Option Nat)
  | listCycle (list : Nat)
  | orphanLinks (listed indexed : Nat)
  | freeCountMismatch (heap lists : Nat)
deriving DecidableEq, Repr, Inhabited

namespace Corruption

-- A link that may be absent, as it stands in a message.
def linkText : Option Nat → String
  | none => "None"
  | some b => s!"Some({b})"

open Text in
def message : Corruption → String
  | badPrologue b => s!"bad prologue at {hex b}"
  | badEpilogue b => s!"bad epilogue at {hex b}"
  | misaligned b => s!"block {hex b} is not 8-byte aligned"
  | badSize b size => s!"block {hex b} has invalid size {size}"
  | outOfHeap b => s!"block {hex b} extends past the end of the heap"
  | tagMismatch b header footer =>
    s!"header {hex header.toNat} does not match footer {hex footer.toNat} at {hex b}"
  | uncoalesced b => s!"contiguous free blocks not coalesced at {hex b}"
  | outOfBounds list b => s!"free list pointer {hex b} out of bounds in list {list}"
  | allocatedInList list b => s!"allocated block {hex b} in free list {list}"
  | wrongClass list b size => s!"block {hex b} of size {size} filed under list {list}"
  | brokenLink b expected found =>
    s!"prev pointer inconsistency at {hex b}: expected {linkText expected}, found {linkText found}"
  | listCycle list => s!"free list {list} does not terminate"
  | orphanLinks listed indexed =>
    s!"{indexed} link entries but only {listed} reachable list nodes"
  | freeCountMismatch heap lists => s!"free block count mismatch: heap {heap}, lists {lists}"

end Corruption

end SegregatedFit
