import SegregatedFit.Text.Hex

/-!
Why a region does not grow.
-/

namespace SegregatedFit

inductive GrowError where
  -- the reservation is used up
  | exhausted (requested available : Nat)
  -- only multiples of the alignment unit can be added
  | misaligned (delta : Nat)
  -- someone else has moved the end of the data segment
  | discontiguous (expected found : Nat)
  -- the system refuses
  | refused
deriving DecidableEq, Repr, Inhabited

open Text in
def GrowError.message : GrowError → String
  | exhausted requested available =>
    s!"heap exhausted: requested {requested} bytes, {available} available"
  | misaligned delta => s!"heap extension of {delta} bytes is not a multiple of the alignment unit"
  | discontiguous expected found =>
    s!"program break moved externally: expected {hex expected}, found {hex found}"
  | refused => "sbrk failed: Cannot allocate memory (os error 12)"

end SegregatedFit
