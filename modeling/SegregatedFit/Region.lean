import SegregatedFit.Run

/-!
Regions: contiguous bytes that grow at their end and nowhere else. A region is the memory handed out
so far and a reserve that is asked for more. The reserve chooses what fresh bytes hold and whether
there are any; it has no access to the bytes that are already there.
-/

namespace SegregatedFit

-- What a reserve answers to a request for `delta` bytes.
structure Answer (ρ : Type) (delta : Nat) where
  fresh : Except GrowError { bytes : ByteArray // bytes.size = delta }
  reserve : ρ
  log : Array Event

class Reserve (ρ : Type) where
  -- the address of the region's first byte
  base : ρ → Nat
  -- a request for `delta` bytes at the end of a region of `len` bytes
  request : ρ → (len delta : Nat) → Answer ρ delta

structure Region (ρ : Type) where
  memory : Memory
  reserve : ρ

namespace Region

variable {ρ : Type}

def ofReserve (reserve : ρ) : Region ρ := ⟨.empty, reserve⟩

def len (r : Region ρ) : Nat := r.memory.size

def isEmpty (r : Region ρ) : Bool := r.len == 0

-- The offsets of the first and of the last byte.
def lo (_ : Region ρ) : Nat := 0

def hi (r : Region ρ) : Nat := r.len - 1

-- Adds `delta` bytes at the end and returns the offset of the first of them.
def extend [Reserve ρ] : Region ρ → Nat → Run (Except GrowError Nat × Region ρ)
  | ⟨memory, reserve⟩, delta =>
    let len := memory.size
    match Reserve.request reserve len delta with
    | ⟨.ok ⟨fresh, _⟩, reserve, log⟩ => ⟨.ok (.ok len, ⟨memory.append fresh, reserve⟩), log⟩
    | ⟨.error cause, reserve, log⟩ => ⟨.ok (.error cause, ⟨memory, reserve⟩), log⟩

-- Extends by each of the sizes in turn, up to the first failure.
def extendAll [Reserve ρ] (r : Region ρ) : List Nat → Run (Except GrowError (Region ρ))
  | [] => pure (.ok r)
  | delta :: rest => do
    match ← r.extend delta with
    | (.ok _, r) => r.extendAll rest
    | (.error cause, _) => pure (.error cause)

end Region

-- Appends `piece` to `bytes` as often as `times` says.
def appendTimes (piece : ByteArray) : (times : Nat) → ByteArray → ByteArray
  | 0, bytes => bytes
  | times + 1, bytes => appendTimes piece times (bytes ++ piece)

theorem size_appendTimes (piece : ByteArray) (times : Nat) (bytes : ByteArray) :
    (appendTimes piece times bytes).size = bytes.size + times * piece.size := by
  induction times generalizing bytes with
  | zero => simp [appendTimes]
  | succ times ih =>
      rw [appendTimes, ih, ByteArray.size_append, Nat.succ_mul]
      omega

-- Fresh bytes that are all zero. They are laid down a page at a time, so that a request of several
-- gibibytes costs no more memory than it asks for.
def zeros (count : Nat) : { bytes : ByteArray // bytes.size = count } :=
  let page : ByteArray := ⟨Array.replicate 65536 0⟩
  let rest : ByteArray := ⟨Array.replicate (count % 65536) 0⟩
  ⟨appendTimes page (count / 65536) (.emptyWithCapacity count) ++ rest, by
    have hpage : page.size = 65536 := by simp [page, ByteArray.size]
    have hrest : rest.size = count % 65536 := by simp [rest, ByteArray.size]
    have hstart : (ByteArray.emptyWithCapacity count).size = 0 := rfl
    rw [ByteArray.size_append, size_appendTimes, hpage, hrest, hstart]
    omega⟩

end SegregatedFit
