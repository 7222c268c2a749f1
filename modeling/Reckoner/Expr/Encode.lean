import Reckoner.Expr
import Reckoner.Json.Writer

/-! Expressions as JSON values. -/

namespace Reckoner.Expr

def tagged (tag : String) (content : Json) : Json := .object [(tag, content)]

mutual

/-- Records are written as objects, and a missing right operand is left out. JSON has no number for
an infinity or a NaN, and null stands in for it. -/
def toJson : Expr → Json
  | .literal value => tagged "literal" (if value.isFinite then .float value else .null)
  | .unary op x => tagged "arithmetic" (.object [("op", .string op), ("left", toJson x)])
  | .binary op l r =>
      tagged "arithmetic"
        (.object [("op", .string op), ("left", toJson l), ("right", toJson r)])
  | .assign name x => tagged "assignment" (.object [("name", .string name), ("value", toJson x)])
  | .var name => tagged "variable" (.string name)
  | .compare op l r =>
      tagged "condition"
        (.object [("op", .string op), ("left", toJson l), ("right", toJson r)])
  | .branch op l r t e =>
      tagged "if_else"
        (.object [
          ("test", .object [("op", .string op), ("left", toJson l), ("right", toJson r)]),
          ("then_branch", toJson t),
          ("else_branch", toJson e)])
  | .block body => tagged "block" (.array (toJsons body))
  | .loop op l r body =>
      tagged "while_loop"
        (.object [
          ("test", .object [("op", .string op), ("left", toJson l), ("right", toJson r)]),
          ("body", toJson body)])
  | .declare name params body =>
      tagged "function_declaration"
        (.object [
          ("name", .string name),
          ("params", .array (params.map .string)),
          ("body", toJson body)])
  | .call name args =>
      tagged "function_invocation"
        (.object [("name", .string name), ("args", .array (toJsons args))])

def toJsons : List Expr → List Json
  | [] => []
  | x :: rest => toJson x :: toJsons rest

end

def encode (e : Expr) : String := (toJson e).compact

end Reckoner.Expr
