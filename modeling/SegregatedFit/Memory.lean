import SegregatedFit.Fault

/-!
The bytes of one region, addressed by offset. Every access is checked against the current size, and
tag words are 32 bits wide with the least significant byte first.
-/

namespace SegregatedFit

structure Memory where
  bytes : ByteArray

namespace Memory

-- Bytes in one tag word.
def wordSize : Nat := 4

def empty : Memory := ⟨.empty⟩

instance : Inhabited Memory := ⟨empty⟩

def size (m : Memory) : Nat := m.bytes.size

-- A region of `count` zero bytes.
def zeroed (count : Nat) : Memory := ⟨⟨Array.replicate count 0⟩⟩

def append (m : Memory) (fresh : ByteArray) : Memory := ⟨m.bytes ++ fresh⟩

def joinBytes (b₀ b₁ b₂ b₃ : UInt8) : UInt32 :=
  .ofNat (b₀.toNat + 256 * b₁.toNat + 65536 * b₂.toNat + 16777216 * b₃.toNat)

-- The byte of a word that counts `weight` for each of its units.
def wordByte (word : UInt32) (weight : Nat) : UInt8 := .ofNat (word.toNat / weight)

def readWord (m : Memory) (pos : Nat) : Except Fault UInt32 :=
  if h : pos + 4 ≤ m.bytes.size then
    .ok (joinBytes m.bytes[pos] m.bytes[pos + 1] m.bytes[pos + 2] m.bytes[pos + 3])
  else .error .outOfBounds

def writeWord : Memory → Nat → UInt32 → Except Fault Memory
  | ⟨bytes⟩, pos, word =>
    if pos + 4 ≤ bytes.size then
      .ok ⟨(((bytes.set! pos (wordByte word 1)).set! (pos + 1) (wordByte word 256)).set!
        (pos + 2) (wordByte word 65536)).set! (pos + 3) (wordByte word 16777216)⟩
    else .error .outOfBounds

-- The `count` bytes from `pos` on.
def slice (m : Memory) (pos count : Nat) : Except Fault ByteArray :=
  if pos + count ≤ m.bytes.size then .ok (m.bytes.extract pos (pos + count))
  else .error .outOfBounds

-- Puts `source` at `pos`, over what was there.
def overwrite : Memory → Nat → ByteArray → Except Fault Memory
  | ⟨bytes⟩, pos, source =>
    if pos + source.size ≤ bytes.size then .ok ⟨source.copySlice 0 bytes pos source.size⟩
    else .error .outOfBounds

-- Whether byte `pos + i` is `f i` for every `i < count`.
def agrees (m : Memory) (pos : Nat) (f : Nat → UInt8) : Nat → Bool
  | 0 => true
  | count + 1 => m.bytes[pos + count]? == some (f count) && agrees m pos f count

end Memory

-- The bytes `f 0`, `f 1`, … up to `count` of them.
def tabulate (count : Nat) (f : Nat → UInt8) : ByteArray :=
  count.fold (fun i _ bytes => bytes.push (f i)) (.emptyWithCapacity count)

end SegregatedFit
