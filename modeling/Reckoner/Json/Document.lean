import Reckoner.Json.Numeral
import Reckoner.Table

/-! Reading JSON text. A text is read into a tree that keeps what a value forgets: repeated keys, the
spelling of numbers, and the place where the text stops being JSON. -/

namespace Reckoner.Json

/-- What was read. A key or a string with half of a surrogate pair has no content. -/
inductive ParseTree where
  | null
  | bool (value : Bool)
  | numeral (value : Numeral)
  | string (content : Option String)
  | array (items : List ParseTree)
  | object (members : List (Option String × ParseTree))
  /-- The text ends here or goes on with something that is not JSON. Nothing follows it. -/
  | malformed
deriving Inhabited

def isBlank (c : Char) : Bool := c = ' ' ∨ c = '\n' ∨ c = '\t' ∨ c = '\r'

def skipBlanks (text : List Char) : List Char := text.dropWhile isBlank

def hexValue (c : Char) : Option Nat :=
  if '0' ≤ c ∧ c ≤ '9' then some (c.toNat - '0'.toNat)
  else if 'a' ≤ c ∧ c ≤ 'f' then some (c.toNat - 'a'.toNat + 10)
  else if 'A' ≤ c ∧ c ≤ 'F' then some (c.toNat - 'A'.toNat + 10)
  else none

def hexQuad (a b c d : Char) : Option Nat := do
  pure (((← hexValue a) * 16 + (← hexValue b)) * 256 + (← hexValue c) * 16 + (← hexValue d))

def unescape : Char → Option Char
  | '"' => some '"'
  | '\\' => some '\\'
  | '/' => some '/'
  | 'b' => some '\x08'
  | 'f' => some '\x0c'
  | 'n' => some '\n'
  | 'r' => some '\r'
  | 't' => some '\t'
  | _ => none

/-- The code points and escaped code units up to the closing quote, and what follows it. `units` are
those met so far, the last one first. -/
def readUnits (units : List Nat) : List Char → Option (List Nat × List Char)
  | [] => none
  | '"' :: rest => some (units.reverse, rest)
  | '\\' :: 'u' :: a :: b :: c :: d :: rest =>
      match hexQuad a b c d with
      | some unit => readUnits (unit :: units) rest
      | none => none
  | '\\' :: c :: rest =>
      match unescape c with
      | some c => readUnits (c.toNat :: units) rest
      | none => none
  | c :: rest => if c.toNat < 0x20 then none else readUnits (c.toNat :: units) rest

/-- Joins surrogate pairs. There is no text if a half of one is left over. `text` is what was joined
so far, the last character first. -/
def joinUnits (text : List Char) : List Nat → Option (List Char)
  | [] => some text.reverse
  | high :: low :: rest =>
      if 0xd800 ≤ high ∧ high < 0xdc00 ∧ 0xdc00 ≤ low ∧ low < 0xe000 then
        let c := Char.ofNat (0x10000 + (high - 0xd800) * 0x400 + (low - 0xdc00))
        joinUnits (c :: text) rest
      else if 0xd800 ≤ high ∧ high < 0xe000 then none
      else joinUnits (Char.ofNat high :: text) (low :: rest)
  | [unit] =>
      if 0xd800 ≤ unit ∧ unit < 0xe000 then none else some (Char.ofNat unit :: text).reverse

def readString (text : List Char) : Option (Option String × List Char) :=
  (readUnits [] text).map fun (units, rest) => ((joinUnits [] units).map String.ofList, rest)

def readKey (text : List Char) : Option (Option String × List Char) :=
  match skipBlanks text with
  | '"' :: rest => do
      let (key, rest) ← readString rest
      match skipBlanks rest with
      | ':' :: rest => pure (key, rest)
      | _ => none
  | _ => none

mutual

/-- A value, and what follows it unless the text broke off. Every step takes a character, so the
length of the text is enough fuel. -/
def readValue : Nat → List Char → ParseTree × Option (List Char)
  | 0, _ => (.malformed, none)
  | fuel + 1, text =>
      match skipBlanks text with
      | 'n' :: 'u' :: 'l' :: 'l' :: rest => (.null, some rest)
      | 't' :: 'r' :: 'u' :: 'e' :: rest => (.bool true, some rest)
      | 'f' :: 'a' :: 'l' :: 's' :: 'e' :: rest => (.bool false, some rest)
      | '"' :: rest =>
          match readString rest with
          | some (content, rest) => (.string content, some rest)
          | none => (.malformed, none)
      | '[' :: rest =>
          match skipBlanks rest with
          | ']' :: rest => (.array [], some rest)
          | rest =>
              let (items, rest) := readItems fuel rest
              (.array items, rest)
      | '{' :: rest =>
          match skipBlanks rest with
          | '}' :: rest => (.object [], some rest)
          | rest =>
              let (members, rest) := readMembers fuel rest
              (.object members, rest)
      | text =>
          match readNumeral text with
          | some (numeral, rest) => (.numeral numeral, some rest)
          | none => (.malformed, none)

def readItems : Nat → List Char → List ParseTree × Option (List Char)
  | 0, _ => ([.malformed], none)
  | fuel + 1, text =>
      match readValue fuel text with
      | (item, none) => ([item], none)
      | (item, some rest) =>
          match skipBlanks rest with
          | ',' :: rest =>
              let (items, rest) := readItems fuel rest
              (item :: items, rest)
          | ']' :: rest => ([item], some rest)
          | _ => ([item, .malformed], none)

def readMembers : Nat → List Char → List (Option String × ParseTree) × Option (List Char)
  | 0, _ => ([(none, .malformed)], none)
  | fuel + 1, text =>
      match readKey text with
      | none => ([(none, .malformed)], none)
      | some (key, rest) =>
          match readValue fuel rest with
          | (value, none) => ([(key, value)], none)
          | (value, some rest) =>
              match skipBlanks rest with
              | ',' :: rest =>
                  let (members, rest) := readMembers fuel rest
                  ((key, value) :: members, rest)
              | '}' :: rest => ([(key, value)], some rest)
              | _ => ([(key, value), (none, .malformed)], none)

end

structure Document where
  tree : ParseTree
  complete : Bool

def Document.read (text : String) : Document :=
  let chars := text.toList
  match readValue (2 * chars.length + 2) chars with
  | (tree, some rest) => ⟨tree, (skipBlanks rest).isEmpty⟩
  | (tree, none) => ⟨tree, false⟩

namespace ParseTree

mutual

def nesting : ParseTree → Nat
  | array items => nestingItems items + 1
  | object members => nestingMembers members + 1
  | _ => 0

def nestingItems : List ParseTree → Nat
  | [] => 0
  | item :: rest => max (nesting item) (nestingItems rest)

def nestingMembers : List (Option String × ParseTree) → Nat
  | [] => 0
  | (_, value) :: rest => max (nesting value) (nestingMembers rest)

end

mutual

/-- Nothing is malformed. Strings and numbers need not have a value. -/
def wellFormed : ParseTree → Bool
  | array items => wellFormedItems items
  | object members => wellFormedMembers members
  | malformed => false
  | _ => true

def wellFormedItems : List ParseTree → Bool
  | [] => true
  | item :: rest => wellFormed item && wellFormedItems rest

def wellFormedMembers : List (Option String × ParseTree) → Bool
  | [] => true
  | (_, value) :: rest => wellFormed value && wellFormedMembers rest

end

mutual

/-- The value of a tree. Of a repeated key the last value counts. -/
def toJson? : ParseTree → Option Json
  | null => some .null
  | bool value => some (.bool value)
  | numeral value => value.toJson?
  | string content => content.map .string
  | array items => (toJsonItems? items).map .array
  | object members => (toJsonMembers? members).map fun pairs => .object (Table.ofList pairs).entries
  | malformed => none

def toJsonItems? : List ParseTree → Option (List Json)
  | [] => some []
  | item :: rest => do
      let item ← toJson? item
      let rest ← toJsonItems? rest
      pure (item :: rest)

def toJsonMembers? : List (Option String × ParseTree) → Option (List (String × Json))
  | [] => some []
  | (key, value) :: rest => do
      let key ← key
      let value ← toJson? value
      let rest ← toJsonMembers? rest
      pure ((key, value) :: rest)

end

end ParseTree

def Document.toJson? (document : Document) : Option Json :=
  if document.complete then document.tree.toJson? else none

end Reckoner.Json
