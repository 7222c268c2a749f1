/-! Doubles as exact numbers. A double is a sign and a magnitude, and the magnitude of a finite
double is `mantissa · 2 ^ exponent`. Magnitudes are handled by their bits, which are ordered as the
numbers are, so that rounding a fraction is integer arithmetic. -/

namespace Reckoner.Number

def signWeight : Nat := 0x8000000000000000

/-- The weight of the lowest bit of the stored exponent, `2 ^ 52`. The stored fraction is below it. -/
def exponentWeight : Nat := 0x10000000000000

def isNegative (x : Float) : Bool := x.toBits.toNat / signWeight = 1

def magnitude (x : Float) : Nat := x.toBits.toNat % signWeight

/-- The magnitude bits of infinity. Smaller bits are finite, larger ones are NaNs. -/
def infinity : Nat := 0x7ff * exponentWeight

def ofMagnitude (negative : Bool) (bits : Nat) : Float :=
  Float.ofBits (UInt64.ofNat (if negative then signWeight + bits else bits))

def nan : Float := ofMagnitude false (infinity + exponentWeight / 2)

/-- The integer part of the product form: the stored fraction, with the leading bit that doubles of
full precision leave out. -/
def mantissa (bits : Nat) : Nat :=
  if bits / exponentWeight = 0 then bits else exponentWeight + bits % exponentWeight

def exponent (bits : Nat) : Int :=
  (max (bits / exponentWeight) 1 : Nat) - 1075

structure Fraction where
  num : Nat
  den : Nat

namespace Fraction

def scale (f : Fraction) (base : Nat) (power : Int) : Fraction :=
  ⟨f.num * Nat.pow base power.toNat, f.den * Nat.pow base (-power).toNat⟩

def mul (f g : Fraction) : Fraction := ⟨f.num * g.num, f.den * g.den⟩

def div (f g : Fraction) : Fraction := ⟨f.num * g.den, f.den * g.num⟩

def floor (f : Fraction) : Nat := f.num / f.den

/-- The nearest integer; a half goes to the even neighbour. -/
def round (f : Fraction) : Nat :=
  let whole := f.num / f.den
  let rest := 2 * (f.num % f.den)
  if rest < f.den then whole
  else if rest = f.den then whole + whole % 2
  else whole + 1

/-- The largest `k` with `2 ^ k` at most the fraction. -/
def log2 (f : Fraction) : Int :=
  let guess : Int := f.num.log2 - f.den.log2
  if (f.scale 2 (-guess)).floor = 0 then guess - 1 else guess

end Fraction

def toFraction (bits : Nat) : Fraction :=
  (Fraction.mk (mantissa bits) 1).scale 2 (exponent bits)

/-- The magnitude bits of the double nearest to a fraction; a tie goes to the even mantissa, and
what is too large becomes infinity. -/
def nearest (f : Fraction) : Nat :=
  if f.num = 0 then 0
  else
    let unit := max (f.log2 - 52) (-1074)
    min ((f.scale 2 (-unit)).round + (unit + 1074).toNat * exponentWeight) infinity

def product (a b : Nat) : Nat := nearest ((toFraction a).mul (toFraction b))

def quotient (a b : Nat) : Nat := nearest ((toFraction a).div (toFraction b))

/-- The remainder of the division rounded toward zero, with the sign of the dividend. It is exact:
both magnitudes are multiples of the smaller power of two, and so is the remainder. -/
def remainder (x y : Float) : Float :=
  let a := magnitude x
  let b := magnitude y
  if infinity ≤ a ∨ infinity < b ∨ b = 0 then nan
  else if b = infinity then x
  else
    let unit := min (exponent a) (exponent b)
    let rest := (mantissa a * Nat.pow 2 (exponent a - unit).toNat) %
      (mantissa b * Nat.pow 2 (exponent b - unit).toNat)
    ofMagnitude (isNegative x) (nearest ((Fraction.mk rest 1).scale 2 unit))

def isOdd (bits : Nat) : Bool :=
  let f := toFraction bits
  bits < infinity ∧ f.num % (2 * f.den) = f.den

/-- A power. Every double to the power of zero is one. A power of zero is zero or infinite, and has
the sign of the zero if the exponent is an odd integer. -/
def power (x y : Float) : Float :=
  if y == 0 then 1
  else if x == 0 then
    let negative := isNegative x && isOdd (magnitude y)
    if 0 < y then ofMagnitude negative 0
    else if y < 0 then ofMagnitude negative infinity
    else nan
  else Float.pow x y

end Reckoner.Number
