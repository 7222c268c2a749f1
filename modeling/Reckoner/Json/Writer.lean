import Reckoner.Json

/-! The compact text of a JSON value. Each writer puts its text in front of what follows. -/

namespace Reckoner.Json

/-- Numbers between a hundred-thousandth and ten quadrillions are written around a point, and other
powers of ten carry their sign. -/
def floatStyle : Number.FloatStyle where
  positional power := -5 ≤ power ∧ power < 16
  plus := "+"
  tie := .even

def floatText (value : Float) : String :=
  if value.isFinite then floatStyle.format value else "null"

def hexPair (n : Nat) : List Char := [Nat.digitChar (n / 16), Nat.digitChar (n % 16)]

def escape (c : Char) : List Char :=
  if c = '"' then ['\\', '"']
  else if c = '\\' then ['\\', '\\']
  else if c = '\x08' then ['\\', 'b']
  else if c = '\t' then ['\\', 't']
  else if c = '\n' then ['\\', 'n']
  else if c = '\x0c' then ['\\', 'f']
  else if c = '\r' then ['\\', 'r']
  else if c.toNat < 0x20 then '\\' :: 'u' :: '0' :: '0' :: hexPair c.toNat
  else [c]

def writeString (text : String) (rest : List Char) : List Char :=
  '"' :: text.toList.foldr (fun c rest => escape c ++ rest) ('"' :: rest)

mutual

def write : Json → List Char → List Char
  | null, rest => "null".toList ++ rest
  | bool true, rest => "true".toList ++ rest
  | bool false, rest => "false".toList ++ rest
  | integer value, rest => (toString value).toList ++ rest
  | float value, rest => (floatText value).toList ++ rest
  | string value, rest => writeString value rest
  | array [], rest => '[' :: ']' :: rest
  | array (item :: items), rest => '[' :: write item (writeItems items rest)
  | object [], rest => '{' :: '}' :: rest
  | object ((key, value) :: members), rest =>
      '{' :: writeString key (':' :: write value (writeMembers members rest))

/-- The items after the first, and the bracket that closes the array. -/
def writeItems : List Json → List Char → List Char
  | [], rest => ']' :: rest
  | item :: items, rest => ',' :: write item (writeItems items rest)

def writeMembers : List (String × Json) → List Char → List Char
  | [], rest => '}' :: rest
  | (key, value) :: members, rest =>
      ',' :: writeString key (':' :: write value (writeMembers members rest))

end

def compact (json : Json) : String := String.ofList (write json [])

end Reckoner.Json
