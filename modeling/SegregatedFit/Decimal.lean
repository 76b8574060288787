/-!
Decimal text of binary floating-point numbers, rounded from the exact value.
-/

namespace SegregatedFit.Decimal

-- The integer nearest to `num / den`; a tie goes to the even one.
def roundHalfEven (num den : Nat) : Nat :=
  let q := num / den
  let twice := 2 * (num % den)
  if twice < den ∨ (twice = den ∧ q % 2 = 0) then q else q + 1

-- Ten times the value that the bits of a non-negative finite number stand for, rounded. With a
-- mantissa of 53 bits, the value is the mantissa times two to the power of `exponent - 1075`.
def tenths (bits : UInt64) : Nat :=
  let hidden := 1 <<< 52
  let exponent := bits.toNat / hidden % 2048
  let fraction := bits.toNat % hidden
  let mantissa := if exponent = 0 then fraction else fraction + hidden
  let exponent := if exponent = 0 then 1 else exponent
  if 1075 ≤ exponent then (10 * mantissa) <<< (exponent - 1075)
  else roundHalfEven (10 * mantissa) (1 <<< (1075 - exponent))

-- The value of a non-negative finite number with one decimal place.
def oneDecimal (x : Float) : String :=
  let n := tenths x.toBits
  s!"{n / 10}.{n % 10}"

theorem roundHalfEven_near {num den : Nat} (hden : 0 < den) :
    2 * num ≤ (2 * roundHalfEven num den + 1) * den ∧
      2 * roundHalfEven num den * den ≤ 2 * num + den := by
  have hsum := Nat.div_add_mod num den
  have hlt := Nat.mod_lt num hden
  simp only [roundHalfEven]
  split <;> simp only [Nat.add_mul, Nat.mul_add, Nat.mul_one, Nat.one_mul, Nat.mul_assoc] <;>
    rw [Nat.mul_comm (num / den) den] <;> omega

end SegregatedFit.Decimal
