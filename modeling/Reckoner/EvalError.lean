import Reckoner.Operator

/-! Why an evaluation fails. -/

namespace Reckoner

inductive EvalError where
  | unboundVariable (name : String)
  | unknownOperator (symbol : String)
  | undefinedFunction (name : String)
  | arityMismatch (name : String) (expected actual : Nat)
  | divisionByZero
  | nonFinite (symbol : String)
  | callTooDeep (depth limit : Nat)
  | emptyBlock
deriving DecidableEq, Repr

namespace EvalError

def ofArithmetic : ArithmeticError → EvalError
  | .divisionByZero => divisionByZero
  | .nonFinite symbol => nonFinite symbol

def message : EvalError → String
  | unboundVariable name => "variable '" ++ name ++ "' is not defined"
  | unknownOperator symbol => "unknown operator '" ++ symbol ++ "'"
  | undefinedFunction name => "function '" ++ name ++ "' is not defined"
  | arityMismatch name expected actual =>
      "function '" ++ name ++ "' expects " ++ toString expected ++ " argument(s), got " ++
        toString actual
  | divisionByZero => "division by zero"
  | nonFinite symbol => "'" ++ symbol ++ "' produced a non-finite result"
  | callTooDeep depth limit =>
      "call depth " ++ toString depth ++ " exceeds maximum of " ++ toString limit
  | emptyBlock => "cannot evaluate an empty block"

end EvalError

end Reckoner
