import Reckoner.Expr
import Reckoner.Number.Decimal

/-! The text of an expression, as reports show it. -/

namespace Reckoner

/-- Numbers between a ten-thousandth and ten quadrillions are written around a point. -/
def literalStyle : Number.FloatStyle where
  positional power := -4 ≤ power ∧ power < 16
  plus := ""
  tie := .up

namespace Expr

def braced (content : String) : String := "\x7b" ++ content ++ "\x7d"

mutual

def text : Expr → String
  | .literal value => literalStyle.format value
  | .unary op x => "(" ++ op ++ " " ++ text x ++ ")"
  | .binary op l r => "(" ++ op ++ " " ++ text l ++ " " ++ text r ++ ")"
  | .assign name x => name ++ " = " ++ text x
  | .var name => name
  | .compare op l r => "(" ++ op ++ " " ++ text l ++ " " ++ text r ++ ")"
  | .branch op l r t e =>
      "(if (" ++ op ++ " " ++ text l ++ " " ++ text r ++ ") " ++ text t ++ " " ++ text e ++ ")"
  | .block body => braced (String.intercalate "; " (texts body))
  | .loop op l r body =>
      "(while (" ++ op ++ " " ++ text l ++ " " ++ text r ++ ") " ++ text body ++ ")"
  | .declare name params body =>
      "(def " ++ name ++ " (" ++ String.intercalate " " params ++ ") " ++ text body ++ ")"
  | .call name args => name ++ "(" ++ String.intercalate ", " (texts args) ++ ")"

def texts : List Expr → List String
  | [] => []
  | x :: rest => text x :: texts rest

end

end Expr

end Reckoner
