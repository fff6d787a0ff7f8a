import BrushLink.Number.Binary

/-!
# Number literals

A literal without fraction and exponent stays an integer as long as it fits a
signed or an unsigned word of 64 bits.  Every other literal becomes a binary
floating point number in two steps: its leading digits are collected while
they fit a word of 64 bits, and the collected number is scaled by one rounded
power of ten.  Minus zero is a floating point number.
-/

namespace BrushLink

/-- A number of a JSON value. -/
inductive Number
  | integer (n : Int)
  | float (b : Binary)
  deriving DecidableEq, Repr

namespace Number

/-- The greatest number of an unsigned word of 64 bits. -/
def maxWord : Nat := 18446744073709551615

/-- The greatest number whose negative is kept as an integer. -/
def maxNegative : Nat := 9223372036854775808

/-- The greatest number of a signed word of 32 bits, which bounds a written
exponent. -/
def maxExponent : Nat := 2147483647

/-- The value of a decimal digit. -/
def digitValue (c : Char) : Nat := c.toNat - 0x30

/-- The number that decimal digits spell. -/
def ofDigits (cs : List Char) : Nat :=
  cs.foldl (fun n c => n * 10 + digitValue c) 0

/-- The parts of a literal: sign, digits before and after the point, and the
exponent with its sign. -/
structure Literal where
  negative : Bool
  whole : List Char
  fraction : Option (List Char)
  exponent : Option (Bool × List Char)
  deriving DecidableEq

namespace Literal

/-- The digits at the head of a text, if there are any, and what follows. -/
def digits? (cs : List Char) : Option (List Char × List Char) :=
  match cs.takeWhile Char.isDigit with
  | [] => none
  | ds => some (ds, cs.dropWhile Char.isDigit)

/-- The digits before the point: a zero alone, or digits that start with none. -/
def whole? (cs : List Char) : Option (List Char × List Char) :=
  match digits? cs with
  | some ('0' :: _ :: _, _) => none
  | r => r

/-- The fraction, if the text starts with a point. -/
def fraction? (cs : List Char) : Option (Option (List Char) × List Char) :=
  match cs with
  | '.' :: cs => (digits? cs).map fun r => (some r.1, r.2)
  | _ => some (none, cs)

/-- The exponent, if the text starts with its mark. -/
def exponent? (cs : List Char) : Option (Option (Bool × List Char) × List Char) :=
  match cs with
  | c :: cs' =>
    if c = 'e' ∨ c = 'E' then
      match cs' with
      | '-' :: ds => (digits? ds).map fun r => (some (true, r.1), r.2)
      | '+' :: ds => (digits? ds).map fun r => (some (false, r.1), r.2)
      | ds => (digits? ds).map fun r => (some (false, r.1), r.2)
    else some (none, cs)
  | [] => some (none, [])

/-- The literal that a text is, all of it. -/
def parse? (cs : List Char) : Option Literal := do
  let (negative, cs) := match cs with
    | '-' :: cs => (true, cs)
    | cs => (false, cs)
  let (whole, cs) ← whole? cs
  let (fraction, cs) ← fraction? cs
  let (exponent, cs) ← exponent? cs
  if cs.isEmpty then some ⟨negative, whole, fraction, exponent⟩ else none

/-- Collect the digits before the point.  A digit that no longer fits, and each
one after it, raises the power of ten instead. -/
def collectWhole (significand : Nat) (power : Int) : List Char → Nat × Int
  | [] => (significand, power)
  | c :: cs =>
    let next := significand * 10 + digitValue c
    if power = 0 ∧ next ≤ maxWord then collectWhole next 0 cs
    else collectWhole significand (power + 1) cs

/-- Collect the digits after the point, up to the first that no longer fits. -/
def collectFraction (significand : Nat) (power : Int) : List Char → Nat × Int
  | [] => (significand, power)
  | c :: cs =>
    let next := significand * 10 + digitValue c
    if next ≤ maxWord then collectFraction next (power - 1) cs
    else (significand, power)

/-- The number nearest to a power of ten below the greatest finite one. -/
def powerOfTen? (k : Nat) : Option Binary := Binary.round? false (Nat.pow 10 k) 1 0

/-- Scale a collected number by a power of ten.  A power below 10⁻³⁰⁸ is applied
in two steps, and one below 10⁻⁶¹⁶ leaves nothing. -/
def scale? (negative : Bool) (significand : Nat) (power : Int) : Option Binary := do
  let b ← Binary.round? negative significand 1 0
  if 308 < power then
    if significand = 0 then some b else none
  else if 0 ≤ power then
    b.mul? (← powerOfTen? power.toNat)
  else if -308 ≤ power then
    b.div? (← powerOfTen? power.natAbs)
  else if -616 ≤ power then
    (← b.div? (← powerOfTen? 308)).div? (← powerOfTen? (power + 308).natAbs)
  else some (Binary.zero negative)

/-- The floating point number of a literal, or `none` beyond the greatest finite
one. -/
def toBinary? (l : Literal) : Option Binary :=
  let (significand, power) := collectWhole 0 0 l.whole
  let (significand, power) := collectFraction significand power (l.fraction.getD [])
  match l.exponent with
  | none => scale? l.negative significand power
  | some (down, ds) =>
    if maxExponent < ofDigits ds then
      if significand = 0 ∨ down then some (Binary.zero l.negative) else none
    else if down then scale? l.negative significand (power - ofDigits ds)
    else scale? l.negative significand (power + ofDigits ds)

/-- The number of a literal, or `none` beyond the greatest finite one. -/
def toNumber? (l : Literal) : Option Number :=
  let n := ofDigits l.whole
  if l.fraction.isNone ∧ l.exponent.isNone ∧ ¬ l.negative ∧ n ≤ maxWord then
    some (.integer n)
  else if l.fraction.isNone ∧ l.exponent.isNone ∧ l.negative ∧ n ≠ 0 ∧ n ≤ maxNegative then
    some (.integer (-n))
  else l.toBinary?.map .float

end Literal

end Number

end BrushLink
