/-!
Numbers in base sixteen, in lower case and after `0x`.
-/

namespace SegregatedFit.Text

def hex (n : Nat) : String := "0x" ++ String.ofList (Nat.toDigits 16 n)

-- As `hex`, with zeros after the `0x` up to `width` characters in all.
def hexPadded (width n : Nat) : String :=
  let digits := Nat.toDigits 16 n
  "0x" ++ String.ofList (List.replicate (width - 2 - digits.length) '0' ++ digits)

end SegregatedFit.Text
