/-! Expressions and the conditions on a well built one: a block holds at least one expression, and a
function declaration names each parameter once. -/

namespace Reckoner

/-- An expression of the language. Operators are kept as the symbols they were written with and are
looked up only when the expression is evaluated. -/
inductive Expr where
  | literal (value : Float)
  | unary (op : String) (operand : Expr)
  | binary (op : String) (left right : Expr)
  | assign (name : String) (value : Expr)
  | var (name : String)
  | compare (op : String) (left right : Expr)
  | branch (op : String) (left right : Expr) (onTrue onFalse : Expr)
  | block (body : List Expr)
  | loop (op : String) (left right : Expr) (body : Expr)
  | declare (name : String) (params : List String) (body : Expr)
  | call (name : String) (args : List Expr)
deriving Inhabited

structure Condition where
  op : String
  left : Expr
  right : Expr

inductive BuildError where
  | emptyBlock
  | duplicateParameter (function param : String)
deriving DecidableEq, Repr

def BuildError.message : BuildError → String
  | emptyBlock => "a block must contain at least one expression"
  | duplicateParameter function param =>
      "duplicate parameter '" ++ param ++ "' in function '" ++ function ++ "'"

/-- The first name, from left to right, that was met before; `seen` are the names met so far. -/
def firstRepeat (seen : List String) : List String → Option String
  | [] => none
  | name :: rest => if name ∈ seen then some name else firstRepeat (name :: seen) rest

namespace Expr

def ofCondition (test : Condition) : Expr := .compare test.op test.left test.right

def ifElse (test : Condition) (onTrue onFalse : Expr) : Expr :=
  .branch test.op test.left test.right onTrue onFalse

def whileLoop (test : Condition) (body : Expr) : Expr :=
  .loop test.op test.left test.right body

def ofBlock (body : List Expr) : Except BuildError Expr :=
  if body.isEmpty then .error .emptyBlock else .ok (.block body)

def ofFunction (name : String) (params : List String) (body : Expr) : Except BuildError Expr :=
  match firstRepeat [] params with
  | some param => .error (.duplicateParameter name param)
  | none => .ok (.declare name params body)

mutual

/-- Equality of trees. Numbers are compared as doubles, so the zeros are equal and a NaN is not
equal to itself. -/
def same : Expr → Expr → Bool
  | .literal x, .literal y => x == y
  | .unary op x, .unary op' x' => op == op' && same x x'
  | .binary op l r, .binary op' l' r' => op == op' && same l l' && same r r'
  | .assign name x, .assign name' x' => name == name' && same x x'
  | .var name, .var name' => name == name'
  | .compare op l r, .compare op' l' r' => op == op' && same l l' && same r r'
  | .branch op l r t e, .branch op' l' r' t' e' =>
      op == op' && same l l' && same r r' && same t t' && same e e'
  | .block body, .block body' => sameAll body body'
  | .loop op l r body, .loop op' l' r' body' =>
      op == op' && same l l' && same r r' && same body body'
  | .declare name params body, .declare name' params' body' =>
      name == name' && params == params' && same body body'
  | .call name args, .call name' args' => name == name' && sameAll args args'
  | _, _ => false

def sameAll : List Expr → List Expr → Bool
  | [], [] => true
  | x :: xs, y :: ys => same x y && sameAll xs ys
  | _, _ => false

end

end Expr

end Reckoner
