import Reckoner.Number.Double

/-! Decimals: the nearest double, the double that scaling by a power of ten gives, the shortest decimal
that is nearest to a given double, and the two ways to write one down. -/

namespace Reckoner.Number

/-- The number `digits · 10 ^ power`. -/
structure Decimal where
  digits : Nat
  power : Int

inductive Tie where
  | up
  | even

def ofDigits (digits : List Char) : Nat :=
  digits.foldl (fun value c => value * 10 + (c.toNat - '0'.toNat)) 0

def digitCount (n : Nat) : Nat := (Nat.toDigits 10 n).length

/-- The place of the leading digit: the `k` with `10 ^ (k - 1) ≤ f < 10 ^ k`. -/
def decimalPlace (f : Fraction) : Int :=
  if f.den ≤ f.num then digitCount f.floor else 1 - digitCount ((f.den - 1) / f.num)

def largestPower : Nat := 308

def powerOfTen (power : Nat) : Nat := nearest ⟨Nat.pow 10 power, 1⟩

namespace Decimal

def toFraction (d : Decimal) : Fraction := (Fraction.mk d.digits 1).scale 10 d.power

/-- The magnitude bits of the double nearest to the decimal. Powers that put every digit far beyond
the largest double or below the smallest one are settled without computing them. -/
def toDouble (d : Decimal) : Nat :=
  if d.digits = 0 then 0
  else if 400 < d.power then infinity
  else if d.power < -(400 + d.digits.log2) then 0
  else nearest d.toFraction

/-- The digits rounded to a double, and that multiplied or divided by the double nearest to the power
of ten, with another rounding. A divisor beyond the largest double is taken in two parts; digits of
64 bits vanish if the second part is as large as the first. -/
def scaled (d : Decimal) : Nat :=
  let bits := nearest ⟨d.digits, 1⟩
  let power := d.power.natAbs
  if d.power < 0 then
    if power ≤ largestPower then quotient bits (powerOfTen power)
    else
      quotient (quotient bits (powerOfTen largestPower))
        (powerOfTen (min (power - largestPower) largestPower))
  else if power ≤ largestPower then product bits (powerOfTen power)
  else if bits = 0 then 0
  else infinity

/-- Every digit of a finite double: a negative power of two is a power of five over one of ten. -/
def exact (bits : Nat) : Decimal :=
  let power := exponent bits
  ⟨mantissa bits * Nat.pow 2 power.toNat * Nat.pow 5 (-power).toNat, min power 0⟩

def strip : Nat → Decimal → Decimal
  | 0, d => d
  | fuel + 1, d =>
      if d.digits ≠ 0 ∧ d.digits % 10 = 0 then strip fuel ⟨d.digits / 10, d.power + 1⟩ else d

/-- Of the two neighbours of `f` among the multiples of `10 ^ power`, the nearer one of those that
read back as `bits`. -/
def neighbour? (tie : Tie) (bits : Nat) (f : Fraction) (power : Int) : Option Decimal :=
  let scaled := f.scale 10 (-power)
  let low : Decimal := ⟨scaled.floor, power⟩
  let high : Decimal := ⟨scaled.floor + 1, power⟩
  match low.toDouble == bits, high.toDouble == bits with
  | true, true =>
      let twice := 2 * (scaled.num % scaled.den)
      if twice < scaled.den then some low
      else if scaled.den < twice then some high
      else match tie with
        | .up => some high
        | .even => if low.digits % 2 = 0 then some low else some high
  | true, false => some low
  | false, true => some high
  | false, false => none

def search (tie : Tie) (bits : Nat) (f : Fraction) (place : Int) : Nat → Nat → Option Decimal
  | 0, _ => none
  | more + 1, count =>
      (neighbour? tie bits f (place - count)).or (search tie bits f place more (count + 1))

/-- The decimal with the fewest digits that reads back as the double, the nearest one of those.
Seventeen digits are always enough. -/
def shortest (tie : Tie) (bits : Nat) : Decimal :=
  let f := Number.toFraction bits
  let found := (search tie bits f (decimalPlace f) 17 1).getD (exact bits)
  strip (digitCount found.digits) found

def zeros (count : Nat) : List Char := List.replicate count '0'

def positional (d : Decimal) : List Char :=
  let digits := Nat.toDigits 10 d.digits
  let point : Int := digits.length + d.power
  if point ≤ 0 then '0' :: '.' :: zeros (-point).toNat ++ digits
  else if 0 ≤ d.power then digits ++ zeros d.power.toNat ++ ['.', '0']
  else digits.take point.toNat ++ '.' :: digits.drop point.toNat

def scientific (plus : String) (d : Decimal) : List Char :=
  let digits := Nat.toDigits 10 d.digits
  let power : Int := digits.length - 1 + d.power
  let fraction := if digits.length = 1 then [] else '.' :: digits.drop 1
  let sign := if power < 0 then ['-'] else plus.toList
  digits.take 1 ++ fraction ++ 'e' :: sign ++ Nat.toDigits 10 power.natAbs

end Decimal

/-- How doubles are written: which powers of the leading digit are written around a point, the mark
of other powers that are not negative, and the choice between equally near digits. -/
structure FloatStyle where
  positional : Int → Bool
  plus : String
  tie : Tie

def FloatStyle.magnitude (style : FloatStyle) (bits : Nat) : List Char :=
  if bits = 0 then ['0', '.', '0']
  else
    let d := Decimal.shortest style.tie bits
    if style.positional (digitCount d.digits - 1 + d.power) then d.positional
    else d.scientific style.plus

def FloatStyle.format (style : FloatStyle) (x : Float) : String :=
  let bits := Number.magnitude x
  let sign := if isNegative x then ['-'] else []
  if bits < infinity then String.ofList (sign ++ style.magnitude bits)
  else if bits = infinity then String.ofList (sign ++ ['i', 'n', 'f'])
  else "NaN"

/-- The text of a double with two decimal places, rounded from its exact value. -/
def formatCents (x : Float) : String :=
  let bits := Number.magnitude x
  let sign := if isNegative x then "-" else ""
  if bits < infinity then
    let cents := ((toFraction bits).scale 10 2).round
    let places := cents % 100
    sign ++ toString (cents / 100) ++ "." ++ toString (places / 10) ++ toString (places % 10)
  else if bits = infinity then sign ++ "inf"
  else "NaN"

end Reckoner.Number
