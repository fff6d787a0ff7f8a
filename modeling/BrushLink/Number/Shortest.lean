import BrushLink.Number.Literal

/-!
# The shortest decimal text of a number

A floating point number is written with the fewest decimal digits that read
back as that number; of several such texts the nearest is taken, and of two
equally near ones the one with the even last digit.

The reals that read back as `m · 2 ^ e` form an interval around it, whose ends
belong to it if and only if `m` is even.  A grid of `n` digits has a point in
that interval if and only if one of the two neighbours of the number on the
grid lies there, so it is enough to test those for `n = 1, 2, …, 17`.
-/

namespace BrushLink

namespace Binary

/-- A decimal `digits · 10 ^ power`. -/
structure Decimal where
  digits : Nat
  power : Int
  deriving DecidableEq, Repr

/-- `a / b · 10 ^ k` as a quotient of natural numbers. -/
def timesPowerOfTen (a b : Nat) (k : Int) : Nat × Nat :=
  match k with
  | .ofNat k => (a * Nat.pow 10 k, b)
  | .negSucc k => (a, b * Nat.pow 10 (k + 1))

/-- How many decimal digits a number has. -/
def decimalLength (n : Nat) : Nat := (Nat.toDigits 10 n).length

/-- The power of ten of the leading digit of the positive number `num / den`. -/
def leadingPower (num den : Nat) : Int :=
  let k : Int := decimalLength num - decimalLength den
  let s := timesPowerOfTen num den (-k)
  if s.2 ≤ s.1 then k else k - 1

/-- Whether `d · 10 ^ power` reads back as the number: its distance from the
number is at most half the gap to the neighbour on that side. -/
def readsBack (b : Binary) (d : Nat) (power : Int) : Bool :=
  -- In units of a quarter of the last place the number is `4 * mantissa`.
  let (n, q) := timesPowerOfTen d 1 power
  let (n, q) := scaled n q (2 - b.exponent)
  let lower := if b.mantissa = leastFull ∧ leastExponent < b.exponent then 1 else 2
  let least := (4 * b.mantissa - lower) * q
  let greatest := (4 * b.mantissa + 2) * q
  if b.mantissa % 2 = 0 then least ≤ n && n ≤ greatest
  else least < n && n < greatest

/-- The decimal on the grid of `n` digits that reads back as the number and is
nearest to it, if there is one. -/
def onGrid? (b : Binary) (n : Nat) : Option Decimal :=
  let (num, den) := scaled b.mantissa 1 b.exponent
  let power := leadingPower num den + 1 - n
  let (num, den) := timesPowerOfTen num den (-power)
  let d := num / den
  match b.readsBack d power, b.readsBack (d + 1) power with
  | true, true => some ⟨roundDiv num den, power⟩
  | true, false => some ⟨d, power⟩
  | false, true => some ⟨d + 1, power⟩
  | false, false => none

/-- The shortest decimal that reads back as the number.  Seventeen digits are
always enough; the last grid's lower neighbour stands for completeness. -/
def shortest (b : Binary) : Decimal :=
  ((List.range 17).findSome? fun n => b.onGrid? (n + 1)).getD ⟨0, 0⟩

/-- How a decimal is laid out. -/
structure Layout where
  /-- The least power of ten of a leading digit that is written without
  exponent. -/
  leastPlain : Int
  /-- The greatest such power. -/
  greatestPlain : Int

/-- Numbers from 10⁻⁵ up to 10¹⁶ are written without exponent. -/
def layout : Layout := ⟨-5, 15⟩

/-- Digits without the zeros at their end. -/
def withoutFinalZeros (ds : List Char) : List Char :=
  (ds.reverse.dropWhile (· = '0')).reverse

/-- Digits with a point after the first `n`, and at least one digit on each
side of it. -/
def pointed (ds : List Char) (n : Nat) : List Char :=
  let whole := ds.take n ++ List.replicate (n - ds.length) '0'
  let fraction := ds.drop n
  whole ++ '.' :: (if fraction.isEmpty then ['0'] else fraction)

/-- The text of a number other than zero, given its significant digits and the
power of ten of the first of them. -/
def layOut (l : Layout) (ds : List Char) (power : Int) : List Char :=
  if l.leastPlain ≤ power ∧ power ≤ l.greatestPlain then
    if 0 ≤ power then pointed ds (power.toNat + 1)
    else '0' :: '.' :: (List.replicate (power.natAbs - 1) '0' ++ ds)
  else
    let mantissa := match ds with
      | d :: r :: rest => d :: '.' :: r :: rest
      | short => short
    let sign := if 0 ≤ power then '+' else '-'
    mantissa ++ 'e' :: sign :: Nat.toDigits 10 power.natAbs

/-- The text of a number. -/
def toChars (b : Binary) : List Char :=
  let magnitude :=
    if b.isZero then ['0', '.', '0']
    else
      let d := b.shortest
      let ds := Nat.toDigits 10 d.digits
      layOut layout (withoutFinalZeros ds) (d.power + ds.length - 1)
  if b.negative then '-' :: magnitude else magnitude

end Binary

/-- The text of a number. -/
def Number.toChars : Number → List Char
  | .integer (.ofNat n) => Nat.toDigits 10 n
  | .integer (.negSucc n) => '-' :: Nat.toDigits 10 (n + 1)
  | .float b => b.toChars

end BrushLink
