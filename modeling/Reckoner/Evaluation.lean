import Reckoner.Context

/-! Evaluation of expressions. A loop may run for ever, so `eval` takes fuel and tells running out of
it apart from a value and from an error; more fuel never changes an answer that was reached. -/

namespace Reckoner

inductive Event where
  | declared (name : String) (arity : Nat)
  | redeclared (name : String) (arity : Nat)
  | called (name : String) (depth : Nat)
deriving DecidableEq, Repr

/-- The context, and the events so far, the latest first. -/
structure Progress where
  context : Context
  events : List Event

/-- How a computation ends. Both a value and an error leave their effects behind. -/
inductive Outcome (α : Type) where
  | value (result : α) (after : Progress)
  | failure (error : EvalError) (after : Progress)
  | outOfFuel

def EvalM (α : Type) : Type := Progress → Outcome α

namespace EvalM

variable {α β : Type}

@[always_inline, inline] protected def pure (a : α) : EvalM α := fun p => .value a p

@[always_inline, inline] protected def bind (x : EvalM α) (f : α → EvalM β) : EvalM β := fun p =>
  match x p with
  | .value a after => f a after
  | .failure error after => .failure error after
  | .outOfFuel => .outOfFuel

instance : Monad EvalM where
  pure := EvalM.pure
  bind := EvalM.bind

@[always_inline, inline] def fail (error : EvalError) : EvalM α := fun p => .failure error p

@[always_inline, inline] def require (found : Option α) (error : EvalError) : EvalM α :=
  match found with
  | some a => pure a
  | none => fail error

@[always_inline, inline] def context : EvalM Context := fun p => .value p.context p

@[always_inline, inline] def modify (f : Context → Context) : EvalM Unit := fun p =>
  .value () { p with context := f p.context }

@[always_inline, inline] def emit (event : Event) : EvalM Unit := fun p =>
  .value () { p with events := event :: p.events }

/-- Runs a body in a call's own context. However it ends, the caller's variables come back. -/
@[always_inline, inline] def inCall (name : String) (locals : Table Float) (body : EvalM α) :
    EvalM α := fun p =>
  match p.context.enter locals with
  | .error error => .failure error p
  | .ok inner =>
      match body ⟨inner, .called name inner.depth :: p.events⟩ with
      | .value a after => .value a { after with context := p.context.leave after.context }
      | .failure error after =>
          .failure error { after with context := p.context.leave after.context }
      | .outOfFuel => .outOfFuel

def collect (f : α → EvalM β) : List α → EvalM (List β)
  | [] => pure []
  | a :: rest => do
      let b ← f a
      let bs ← collect f rest
      pure (b :: bs)

/-- Runs an action for each element and yields the last result, which is `last` if there is
none. -/
def sequence (f : α → EvalM β) (last : β) : List α → EvalM β
  | [] => pure last
  | a :: rest => do
      let b ← f a
      sequence f b rest

def repeatWhile (test : EvalM Bool) (body : EvalM α) : Nat → α → EvalM α
  | 0, _ => fun _ => .outOfFuel
  | fuel + 1, last => do
      if ← test then
        let a ← body
        repeatWhile test body fuel a
      else pure last

end EvalM

open EvalM

def declareFunction (f : Function) : EvalM Unit := do
  let known := (← context).functions.contains f.name
  modify (·.declare f)
  emit (if known then .redeclared f.name f.arity else .declared f.name f.arity)

def findFunction (name : String) (count : Nat) : EvalM Function := do
  let f ← require ((← context).functions.get? name) (.undefinedFunction name)
  if f.arity = count then pure f else fail (.arityMismatch name f.arity count)

/-- Evaluates two operands, left to right, and compares them. The operator is looked up first. -/
@[always_inline, inline] def compareBy (op : String) (left right : EvalM Float) : EvalM Bool := do
  let op ← require (Comparison.ofSymbol? op) (.unknownOperator op)
  let x ← left
  let y ← right
  pure (op.holds x y)

/-- Evaluates an expression. Operators are looked up before their operands are evaluated, operands
and arguments go from left to right, and nothing is undone when an evaluation fails. -/
def eval : Nat → Expr → EvalM Float
  | 0, _ => fun _ => .outOfFuel
  | _ + 1, .literal value => pure value
  | fuel + 1, .unary op x => do
      let op ← require (SignOp.ofSymbol? op) (.unknownOperator op)
      let x ← eval fuel x
      pure (op.apply x)
  | fuel + 1, .binary op l r => do
      let op ← require (ArithmeticOp.ofSymbol? op) (.unknownOperator op)
      let x ← eval fuel l
      let y ← eval fuel r
      match op.apply x y with
      | .ok z => pure z
      | .error error => fail (.ofArithmetic error)
  | fuel + 1, .assign name x => do
      let x ← eval fuel x
      modify (·.define name x)
      pure x
  | _ + 1, .var name => do
      require ((← context).vars.get? name) (.unboundVariable name)
  | fuel + 1, .compare op l r => do
      if ← compareBy op (eval fuel l) (eval fuel r) then pure 1 else pure 0
  | fuel + 1, .branch op l r t e => do
      if ← compareBy op (eval fuel l) (eval fuel r) then eval fuel t else eval fuel e
  | _ + 1, .block [] => fail .emptyBlock
  | fuel + 1, .block (x :: rest) => sequence (eval fuel) 0 (x :: rest)
  | fuel + 1, .loop op l r body =>
      repeatWhile (compareBy op (eval fuel l) (eval fuel r)) (eval fuel body) fuel 0
  | _ + 1, .declare name params body => do
      declareFunction ⟨name, params, body⟩
      pure 0
  | fuel + 1, .call name args => do
      let f ← findFunction name args.length
      let values ← collect (eval fuel) args
      inCall name (.ofList (f.params.zip values)) (eval fuel f.body)

structure Evaluation where
  outcome : Except EvalError Float
  context : Context
  events : List Event

def evaluate (fuel : Nat) (e : Expr) (c : Context) : Option Evaluation :=
  match eval fuel e ⟨c, []⟩ with
  | .value x after => some ⟨.ok x, after.context, after.events.reverse⟩
  | .failure error after => some ⟨.error error, after.context, after.events.reverse⟩
  | .outOfFuel => none

def evaluateFresh (fuel : Nat) (e : Expr) : Option Evaluation :=
  evaluate fuel e (.withLimit Context.defaultLimit)

end Reckoner
