import Reckoner.Evaluation
import Reckoner.Expr.Decode
import Reckoner.Expr.Source

/-! Sessions: a sequence of steps on one context, with the state after each of them. -/

namespace Reckoner

inductive ExprError where
  | unbuilt (error : BuildError)
  | undecoded (error : DecodeError)
  | unread (error : SourceError)

inductive Step where
  /-- A step without its expression. It does nothing. -/
  | refused (error : ExprError)
  | eval (e : Expr)
  /-- Evaluates in an empty context and leaves the session alone. -/
  | evalFresh (e : Expr)
  | define (name : String) (value : Float)
  | lookUp (name : String)
  | hasFunction (name : String)
  | lookUpFunction (name : String)
  /-- Stores a function as it is; its parameters may repeat. -/
  | declare (f : Function)
  | count
  | reset
  | clearVariables
  | clearFunctions
  | frame (locals : List (String × Float)) (steps : List Step)
  | fork (steps : List Step)
  | sameVariables (vars : List (String × Float))

inductive Reply where
  | refused (error : ExprError)
  | value (x : Float)
  | error (e : EvalError)
  | foundVariable (found : Option Float)
  | previousVariable (found : Option Float)
  | foundFunction (found : Option Function)
  | previousFunction (found : Option Function)
  | flag (holds : Bool)
  | counts (vars functions : Nat)
  | done
  | entered (inside : Context) (answers : List (Reply × Context))
  | forked (answers : List (Reply × Context))

namespace Reply

def ofOutcome : Except EvalError Float → Reply
  | .ok x => value x
  | .error e => error e

end Reply

namespace Session

mutual

def step (fuel : Nat) (c : Context) : Step → Option (Reply × Context)
  | .refused error => some (.refused error, c)
  | .eval e => (evaluate fuel e c).map fun run => (.ofOutcome run.outcome, run.context)
  | .evalFresh e => (evaluateFresh fuel e).map fun run => (.ofOutcome run.outcome, c)
  | .define name value => some (.previousVariable (c.vars.get? name), c.define name value)
  | .lookUp name => some (.foundVariable (c.vars.get? name), c)
  | .hasFunction name => some (.flag (c.functions.contains name), c)
  | .lookUpFunction name => some (.foundFunction (c.functions.get? name), c)
  | .declare f => some (.previousFunction (c.functions.get? f.name), c.declare f)
  | .count => some (.counts c.vars.size c.functions.size, c)
  | .reset => some (.done, c.reset)
  | .clearVariables => some (.done, c.clearVariables)
  | .clearFunctions => some (.done, c.clearFunctions)
  | .frame locals steps =>
      match c.enter (.ofList locals) with
      | .error error => some (.error error, c)
      | .ok inside => do
          let (answers, after) ← run fuel inside steps
          pure (.entered inside answers, c.leave after)
  | .fork steps => do
      let (answers, _) ← run fuel c steps
      pure (.forked answers, c)
  | .sameVariables vars =>
      some (.flag (c.vars.agrees (· == ·) (.ofList vars)), c)

def run (fuel : Nat) (c : Context) : List Step → Option (List (Reply × Context) × Context)
  | [] => some ([], c)
  | s :: rest => do
      let (reply, c) ← step fuel c s
      let (answers, after) ← run fuel c rest
      pure ((reply, c) :: answers, after)

end

end Session

end Reckoner
