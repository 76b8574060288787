import SegregatedFit.Memory
import SegregatedFit.Size

/-!
Boundary tags. A tag packs a block's size and whether it is allocated into one word: sizes are
multiples of eight, so the three lowest bits are free, and the lowest one is the flag.
-/

namespace SegregatedFit

structure Tag where
  size : Nat
  allocated : Bool
deriving DecidableEq, Repr, Inhabited

namespace Tag

-- The tag of size zero that ends a heap.
def epilogue : Tag := ⟨0, true⟩

def free (size : Nat) : Tag := ⟨size, false⟩

def used (size : Nat) : Tag := ⟨size, true⟩

-- The word of a tag. Sizes beyond `maxBlockSize` lose their high bits here; `Memory.writeTag`
-- never packs one.
def pack (t : Tag) : UInt32 := .ofNat (t.size / 8 * 8 + if t.allocated then 1 else 0)

def unpack (word : UInt32) : Tag := ⟨word.toNat / 8 * 8, word.toNat % 2 == 1⟩

theorem size_unpack_le (word : UInt32) : (unpack word).size ≤ maxBlockSize := by
  have h := word.toNat_lt
  simp only [unpack, maxBlockSize]
  omega

theorem unpack_pack {t : Tag} (haligned : t.size % 8 = 0) (hsize : t.size ≤ maxBlockSize) :
    unpack t.pack = t := by
  obtain ⟨size, allocated⟩ := t
  simp only [maxBlockSize] at haligned hsize
  cases allocated <;>
    simp only [unpack, pack, UInt32.toNat_ofNat', Tag.mk.injEq, beq_iff_eq] <;>
    refine ⟨?_, ?_⟩ <;> simp <;> omega

end Tag

namespace Memory

def readTag (m : Memory) (pos : Nat) : Except Fault Tag := return Tag.unpack (← m.readWord pos)

-- A tag is only written when its word can hold the size.
def writeTag (m : Memory) (pos : Nat) (t : Tag) : Except Fault Memory :=
  if t.size ≤ maxBlockSize then m.writeWord pos t.pack else .error .oversizedTag

end Memory

end SegregatedFit
