import Reckoner.Program

/-! The built-in demonstrations. -/

namespace Reckoner

structure Check where
  title : String
  program : Program

namespace Check

def circleArea : Expr := .binary "mult" (.var "pi") (.binary "mult" (.var "r") (.var "r"))

def declareAdd : Expr := .declare "add" ["i", "j"] (.binary "plus" (.var "i") (.var "j"))

def literals : Check where
  title := "literals"
  program := [.literal 3.1415]

def arithmetic : Check where
  title := "arithmetic"
  program := [
    .binary "mult" (.literal 3.1415) (.binary "mult" (.literal 10.2) (.literal 10.2))]

def badOperator : Check where
  title := "bad arithmetic operator"
  program := [.binary "blah" (.literal 3.1415) (.literal 45)]

def assignments : Check where
  title := "variables and assignment"
  program := [.assign "pi" (.literal 3.1415), .assign "r" (.literal 10.2), circleArea]

def unboundVariable : Check where
  title := "unbound variable"
  program := [.var "pi"]

def branching : Check where
  title := "branching"
  program :=
    let test := .branch "lt" (.var "r") (.literal 100) (.literal (-1)) (.literal 1)
    [.assign "r" (.literal 99), test, .assign "r" (.literal 101), test]

def block : Check where
  title := "block"
  program := [
    .block [
      .assign "pi" (.literal 3.1415),
      .assign "r" (.literal 10.2),
      .assign "area" circleArea,
      .binary "plus" (.var "area") (.var "area")]]

def whileLoop : Check where
  title := "while loop"
  program := [
    .block [
      .assign "i" (.literal 0),
      .assign "sum" (.literal 0),
      .loop "lt" (.var "i") (.literal 100)
        (.block [
          .assign "sum" (.binary "plus" (.var "sum") (.var "i")),
          .assign "i" (.binary "plus" (.var "i") (.literal 1))]),
      .var "sum"]]

def functionCall : Check where
  title := "function declaration and invocation"
  program := [.block [declareAdd, .call "add" [.literal 100, .literal 200]]]

def undefinedFunction : Check where
  title := "undefined function"
  program := [.call "blah" []]

def arityMismatch : Check where
  title := "wrong number of arguments"
  program := [.block [declareAdd, .call "add" [.literal 10, .literal 20, .literal 30]]]

def recursion : Check where
  title := "recursion"
  program :=
    let fib (offset : Float) := Expr.call "fib" [.binary "sub" (.var "n") (.literal offset)]
    [.block [
      .declare "fib" ["n"]
        (.branch "le" (.var "n") (.literal 2) (.literal 1) (.binary "plus" (fib 1) (fib 2))),
      .call "fib" [.literal 20]]]

/-- The checks, numbered from one. -/
def all : List Check := [
  literals, arithmetic, badOperator, assignments, unboundVariable, branching, block, whileLoop,
  functionCall, undefinedFunction, arityMismatch, recursion]

def numbered? : Nat → Option Check
  | 0 => none
  | index + 1 => all[index]?

def header (number : Nat) (check : Check) : String :=
  "# check" ++ toString number ++ ": " ++ check.title ++ "\n"

end Check

end Reckoner
