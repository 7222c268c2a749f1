import Reckoner.Number.Double

/-! The operators of expressions. Each family has its own symbols; a symbol may name operators of
two families, as `sub` does. -/

namespace Reckoner

inductive ArithmeticError where
  | divisionByZero
  | nonFinite (symbol : String)
deriving DecidableEq, Repr

inductive ArithmeticOp where
  | add
  | subtract
  | multiply
  | divide
  | remainder
  | power
deriving DecidableEq, Repr

namespace ArithmeticOp

def symbol : ArithmeticOp → String
  | add => "plus"
  | subtract => "sub"
  | multiply => "mult"
  | divide => "div"
  | remainder => "mod"
  | power => "pow"

def ofSymbol? : String → Option ArithmeticOp
  | "plus" => some add
  | "sub" => some subtract
  | "mult" => some multiply
  | "div" => some divide
  | "mod" => some remainder
  | "pow" => some power
  | _ => none

/-- Operators that refuse a zero on the right. -/
def divides : ArithmeticOp → Bool
  | divide | remainder => true
  | _ => false

def compute : ArithmeticOp → Float → Float → Float
  | add, x, y => x + y
  | subtract, x, y => x - y
  | multiply, x, y => x * y
  | divide, x, y => x / y
  | remainder, x, y => Number.remainder x y
  | power, x, y => Number.power x y

/-- A zero divisor is refused before anything is computed, and a result that is not finite after. -/
def apply (op : ArithmeticOp) (x y : Float) : Except ArithmeticError Float :=
  if op.divides && y == 0 then .error .divisionByZero
  else
    let result := op.compute x y
    if result.isFinite then .ok result else .error (.nonFinite op.symbol)

@[simp] theorem ofSymbol?_symbol (op : ArithmeticOp) : ofSymbol? op.symbol = some op := by
  cases op <;> rfl

end ArithmeticOp

inductive SignOp where
  | negate
  | keep
deriving DecidableEq, Repr

namespace SignOp

def ofSymbol? : String → Option SignOp
  | "sub" => some negate
  | "neg" => some negate
  | "plus" => some keep
  | _ => none

/-- Changes the sign at most; infinities and NaNs pass through. -/
def apply : SignOp → Float → Float
  | negate, x => -x
  | keep, x => x

end SignOp

inductive Comparison where
  | less
  | lessEqual
  | greater
  | greaterEqual
  | equal
  | notEqual
deriving DecidableEq, Repr

namespace Comparison

def symbol : Comparison → String
  | less => "lt"
  | lessEqual => "le"
  | greater => "gt"
  | greaterEqual => "ge"
  | equal => "eq"
  | notEqual => "ne"

def ofSymbol? : String → Option Comparison
  | "lt" => some less
  | "le" => some lessEqual
  | "gt" => some greater
  | "ge" => some greaterEqual
  | "eq" => some equal
  | "ne" => some notEqual
  | _ => none

def holds : Comparison → Float → Float → Bool
  | less, x, y => x < y
  | lessEqual, x, y => x ≤ y
  | greater, x, y => y < x
  | greaterEqual, x, y => y ≤ x
  | equal, x, y => x == y
  | notEqual, x, y => !(x == y)

@[simp] theorem ofSymbol?_symbol (op : Comparison) : ofSymbol? op.symbol = some op := by
  cases op <;> rfl

end Comparison

end Reckoner
