import SegregatedFit.Fault

/-!
Sizes: the alignment unit, the bounds on a block, the block that serves a request, and the size
class under which a free block is filed.
-/

namespace SegregatedFit

-- Every payload offset and every block size is a multiple of this many bytes.
def alignment : Nat := 8

-- Header and footer together.
def overhead : Nat := 8

def minBlockSize : Nat := 16

-- The largest multiple of the alignment unit below 2^32, hence the largest that a tag can hold.
def maxBlockSize : Nat := 4294967288

-- The least multiple of the alignment unit that is not below `n`.
def alignUp (n : Nat) : Nat := (n + (alignment - 1)) / alignment * alignment

-- The block that serves a request of `request` bytes, if a tag can describe it.
def blockSizeFor (request : Nat) : Option Nat :=
  if request ≤ overhead then some minBlockSize
  else
    let size := alignUp (request + overhead)
    if size ≤ maxBlockSize then some size else none

def classCount : Nat := 20

abbrev SizeClass := Fin classCount

namespace SizeClass

-- The largest size of each class but the last, which has no bound. Small classes step by the
-- alignment unit, larger ones double.
def bounds : List Nat :=
  [16, 24, 32, 40, 48, 56, 64, 72, 80, 88, 96, 104, 112, 128, 256, 512, 1024, 2048, 4096]

theorem length_takeWhile_bounds_lt (size : Nat) :
    (bounds.takeWhile (· < size)).length < classCount :=
  Nat.lt_of_le_of_lt (List.takeWhile_prefix _).length_le (by decide)

-- The first class whose bound is not below `size`, or the last class.
def ofSize (size : Nat) : SizeClass :=
  ⟨(bounds.takeWhile (· < size)).length, length_takeWhile_bounds_lt size⟩

def ofNat? (n : Nat) : Except Fault SizeClass :=
  if h : n < classCount then .ok ⟨n, h⟩ else .error .unknownClass

def all : List SizeClass := List.finRange classCount

-- The classes that can hold a block of `size` bytes or more, in ascending order.
def fitting (size : Nat) : List SizeClass := all.filter (ofSize size ≤ ·)

end SizeClass

end SegregatedFit
