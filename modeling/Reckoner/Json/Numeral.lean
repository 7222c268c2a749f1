import Reckoner.Json

/-! Numbers as JSON text writes them. A number is read in three steps, each of which may round: as
many leading digits as fit into 64 bits are kept, they become a double, and the double is scaled by a
power of ten. -/

namespace Reckoner.Json

/-- A number as it is written. There is a point where there are digits after it. -/
structure Numeral where
  negative : Bool
  whole : List Char
  fraction : List Char
  exponent : Option Int

namespace Numeral

def isIntegral (n : Numeral) : Bool := n.fraction.isEmpty && n.exponent.isNone

/-- Appends digits to a significand as long as it fits into 64 bits, and counts the digits that are
left over. -/
def appendDigits (significand : Nat) : List Char → Nat × Nat
  | [] => (significand, 0)
  | c :: rest =>
      let longer := significand * 10 + (c.toNat - '0'.toNat)
      if longer < UInt64.size then appendDigits longer rest else (significand, rest.length + 1)

/-- The digits that count. A digit left over from the whole part stands for a zero and one from the
fraction for nothing. The fraction is appended to what the whole part left, so a small digit may fit
where a larger one before the point did not. -/
def decimal (n : Numeral) : Number.Decimal :=
  let (significand, extra) := appendDigits 0 n.whole
  let (significand, unread) := appendDigits significand n.fraction
  ⟨significand, n.exponent.getD 0 + extra - (n.fraction.length - unread : Nat)⟩

def toFloat? (n : Numeral) : Option Float :=
  let bits := n.decimal.scaled
  if bits < Number.infinity then some (Number.ofMagnitude n.negative bits) else none

/-- The value of a number. Integers of 64 bits, signed or not, stay integers, save for a negative
zero; all else is a double. -/
def toJson? (n : Numeral) : Option Json :=
  let d := n.decimal
  if n.isIntegral ∧ d.power = 0 ∧ !n.negative then some (.integer d.digits)
  else if n.isIntegral ∧ d.power = 0 ∧ 0 < d.digits ∧ d.digits ≤ UInt64.size / 2 then
    some (.integer (-d.digits))
  else n.toFloat?.map .float

end Numeral

def readDigits (text : List Char) : Option (List Char × List Char) :=
  match text.takeWhile Char.isDigit with
  | [] => none
  | digits => some (digits, text.dropWhile Char.isDigit)

def readWhole : List Char → Option (List Char × List Char)
  | '0' :: rest => some (['0'], rest)
  | text => readDigits text

def readFraction : List Char → Option (List Char × List Char)
  | '.' :: rest => readDigits rest
  | text => some ([], text)

def readExponent : List Char → Option (Option Int × List Char)
  | 'e' :: rest | 'E' :: rest =>
      match rest with
      | '-' :: rest => (readDigits rest).map fun (digits, rest) => (some (-Number.ofDigits digits), rest)
      | '+' :: rest => (readDigits rest).map fun (digits, rest) => (some (Number.ofDigits digits), rest)
      | rest => (readDigits rest).map fun (digits, rest) => (some (Number.ofDigits digits), rest)
  | text => some (none, text)

def readUnsigned (negative : Bool) (text : List Char) : Option (Numeral × List Char) := do
  let (whole, text) ← readWhole text
  let (fraction, text) ← readFraction text
  let (exponent, text) ← readExponent text
  pure (⟨negative, whole, fraction, exponent⟩, text)

def readNumeral : List Char → Option (Numeral × List Char)
  | '-' :: rest => readUnsigned true rest
  | text => readUnsigned false text

end Reckoner.Json
