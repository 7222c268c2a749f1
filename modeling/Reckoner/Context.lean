import Reckoner.EvalError
import Reckoner.Expr
import Reckoner.Table

/-! What an evaluation reads and changes: the variables of the running call, the functions declared
so far, and the number of calls in progress with its limit. -/

namespace Reckoner

/-- A declared function. Its body sees its parameters and nothing of the caller's variables. -/
structure Function where
  name : String
  params : List String
  body : Expr

def Function.arity (f : Function) : Nat := f.params.length

structure Context where
  vars : Table Float
  functions : Table Function
  depth : Nat
  limit : Nat

namespace Context

def defaultLimit : Nat := 1000

def withLimit (limit : Nat) : Context := ⟨∅, ∅, 0, limit⟩

def reset (c : Context) : Context := withLimit c.limit

def define (c : Context) (name : String) (value : Float) : Context :=
  { c with vars := c.vars.insert name value }

def declare (c : Context) (f : Function) : Context :=
  { c with functions := c.functions.insert f.name f }

def clearVariables (c : Context) : Context := { c with vars := ∅ }

def clearFunctions (c : Context) : Context := { c with functions := ∅ }

/-- The context inside a call: the locals alone, one level deeper. -/
def enter (c : Context) (locals : Table Float) : Except EvalError Context :=
  if c.depth < c.limit then .ok { c with vars := locals, depth := c.depth + 1 }
  else .error (.callTooDeep c.depth c.limit)

/-- The context after a call that ended in `inner`: the caller's variables are back, and the
functions declared inside stay. -/
def leave (caller inner : Context) : Context :=
  { inner with vars := caller.vars, depth := inner.depth - 1 }

end Context

end Reckoner
