import Reckoner.Number.Decimal

/-! JSON values. Numbers come in two kinds, since an integer and a double of the same value are told
apart in messages; an object binds each key once. -/

namespace Reckoner

inductive Json where
  | null
  | bool (value : Bool)
  | integer (value : Int)
  | float (value : Float)
  | string (value : String)
  | array (items : List Json)
  | object (members : List (String × Json))
deriving Inhabited

namespace Json

def toFloat? : Json → Option Float
  | integer value =>
      some (Number.ofMagnitude (value < 0) (Number.nearest ⟨value.natAbs, 1⟩))
  | float value => some value
  | _ => none

mutual

/-- How many values stand inside each other. -/
def depth : Json → Nat
  | array items => depthItems items + 1
  | object members => depthMembers members + 1
  | _ => 1

def depthItems : List Json → Nat
  | [] => 0
  | item :: rest => max (depth item) (depthItems rest)

def depthMembers : List (String × Json) → Nat
  | [] => 0
  | (_, value) :: rest => max (depth value) (depthMembers rest)

end

end Json

end Reckoner
