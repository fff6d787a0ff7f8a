/-!
# Binary floating point numbers

A number with a fraction or an exponent is held in the binary format of 64
bits.  Nothing here computes in that format beyond what reading a literal
needs: rounding a quotient of natural numbers, scaled by a power of two, to the
nearest number of the format.  A tie goes to the even mantissa.
-/

namespace BrushLink

/-- A finite number of the format: `± mantissa · 2 ^ exponent`, where the
mantissa has at most 53 bits and the exponent is at least -1074. -/
structure Binary where
  negative : Bool
  mantissa : Nat
  exponent : Int
  deriving DecidableEq, Repr

namespace Binary

/-- The least exponent, and that of zero. -/
def leastExponent : Int := -1074

/-- The greatest exponent of a finite number. -/
def greatestExponent : Int := 971

/-- The least mantissa of 53 bits. -/
def leastFull : Nat := 1 <<< 52

/-- Zero. -/
def zero (negative : Bool) : Binary := ⟨negative, 0, leastExponent⟩

/-- Whether the number is zero, of either sign. -/
def isZero (b : Binary) : Bool := b.mantissa = 0

/-- The quotient rounded to the nearest natural number, a tie to the even one. -/
def roundDiv (num den : Nat) : Nat :=
  let q := num / den
  let r := num % den
  if den < 2 * r ∨ (2 * r = den ∧ q % 2 = 1) then q + 1 else q

/-- `num / den · 2 ^ scale` as a quotient of natural numbers. -/
def scaled (num den : Nat) (scale : Int) : Nat × Nat :=
  match scale with
  | .ofNat k => (num <<< k, den)
  | .negSucc k => (num, den <<< (k + 1))

/-- The exponent at which the positive number `num / den` has a mantissa of 53
bits, or the least exponent if that is greater. -/
def exponentOf (num den : Nat) : Int :=
  let e : Int := (Nat.log2 num : Int) - Nat.log2 den - 52
  let s := scaled num den (-e)
  let e := if s.1 < s.2 * leastFull then e - 1 else e
  max e leastExponent

/-- The number nearest to `± num / den · 2 ^ scale`, or `none` if that is beyond
the greatest finite number. -/
def round? (negative : Bool) (num den : Nat) (scale : Int) : Option Binary :=
  let (num, den) := scaled num den scale
  if num = 0 then some (zero negative)
  else
    let e := exponentOf num den
    let s := scaled num den (-e)
    let m := roundDiv s.1 s.2
    let (m, e) := if m = 2 * leastFull then (leastFull, e + 1) else (m, e)
    if greatestExponent < e then none else some ⟨negative, m, e⟩

/-- The product, rounded. -/
def mul? (a b : Binary) : Option Binary :=
  round? (a.negative != b.negative) (a.mantissa * b.mantissa) 1 (a.exponent + b.exponent)

/-- The quotient by a number other than zero, rounded. -/
def div? (a b : Binary) : Option Binary :=
  round? (a.negative != b.negative) a.mantissa b.mantissa (a.exponent - b.exponent)

end Binary

end BrushLink
