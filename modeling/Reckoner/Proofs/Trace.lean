import Reckoner.Proofs.Computation

/-! Evaluation with a record of what it passes through. A traced computation carries the computation
that it is a record of, so the two cannot drift apart, and `trace_run` says that nothing but the
record is added to evaluation. There is a record also of an evaluation that does not end: what it
passes through before its fuel is used up. -/

namespace Reckoner

variable {α β : Type}

inductive Moment where
  /-- The evaluation of `e` begins in `c`, inside these calls, the innermost first. -/
  | begins (calls : List String) (e : Expr) (c : Context)
  | stores (f : Function)
  /-- A call is about to be entered from `caller`. -/
  | enters (caller : Context)
  /-- A call is about to be left whose body ended in `callee`. -/
  | leaves (callee : Context)

def Outcome.next (f : α → Progress → List Moment) : Outcome α → List Moment
  | .value a after => f a after
  | .failure _ _ | .outOfFuel => []

def Outcome.leaving : Outcome α → List Moment
  | .value _ after | .failure _ after => [.leaves after.context]
  | .outOfFuel => []

structure Traced (α : Type) where
  run : EvalM α
  moments : Progress → List Moment

namespace Traced

instance : Monad Traced where
  pure a := ⟨pure a, fun _ => []⟩
  bind x f := ⟨x.run >>= fun a => (f a).run,
    fun p => x.moments p ++ (x.run p).next fun a => (f a).moments⟩

@[simp] theorem run_pure (a : α) : (pure a : Traced α).run = pure a := rfl

@[simp] theorem run_bind (x : Traced α) (f : α → Traced β) :
    (x >>= f).run = x.run >>= fun a => (f a).run := rfl

def quiet (x : EvalM α) : Traced α := ⟨x, fun _ => []⟩

@[simp] theorem run_quiet (x : EvalM α) : (quiet x).run = x := rfl

def result (r : Except ArithmeticError Float) : Traced Float :=
  quiet (match r with
    | .ok z => pure z
    | .error error => EvalM.fail (.ofArithmetic error))

def noting (moment : Context → Moment) (x : Traced α) : Traced α :=
  ⟨x.run, fun p => moment p.context :: x.moments p⟩

@[simp] theorem run_noting (moment : Context → Moment) (x : Traced α) :
    (noting moment x).run = x.run := rfl

def declareFunction (f : Function) : Traced Unit :=
  ⟨Reckoner.declareFunction f, fun _ => [.stores f]⟩

def inCall (name : String) (locals : Table Float) (body : Traced α) : Traced α where
  run := EvalM.inCall name locals body.run
  moments p :=
    -- a call that is refused passes through nothing
    if p.context.depth < p.context.limit then
      let inner := p.entered name locals
      .enters p.context :: (body.moments inner ++ (body.run inner).leaving)
    else []

def compareBy (op : String) (left right : Traced Float) : Traced Bool := do
  let op ← quiet (EvalM.require (Comparison.ofSymbol? op) (.unknownOperator op))
  let x ← left
  let y ← right
  pure (op.holds x y)

def collect (f : α → Traced β) : List α → Traced (List β)
  | [] => pure []
  | a :: rest => do
      let b ← f a
      let bs ← collect f rest
      pure (b :: bs)

def sequence (f : α → Traced β) (last : β) : List α → Traced β
  | [] => pure last
  | a :: rest => do
      let b ← f a
      sequence f b rest

def repeatWhile (test : Traced Bool) (body : Traced α) : Nat → α → Traced α
  | 0, _ => quiet fun _ => .outOfFuel
  | fuel + 1, last => do
      if ← test then
        let a ← body
        repeatWhile test body fuel a
      else pure last

theorem run_inCall (name : String) (locals : Table Float) (body : Traced α) :
    (inCall name locals body).run = EvalM.inCall name locals body.run := rfl

theorem run_compareBy (op : String) (left right : Traced Float) :
    (compareBy op left right).run = Reckoner.compareBy op left.run right.run := rfl

theorem run_collect (f : α → Traced β) (l : List α) :
    (collect f l).run = EvalM.collect (fun a => (f a).run) l := by
  induction l with
  | nil => rfl
  | cons a l ih =>
    simp only [collect, EvalM.collect, run_bind, run_pure, ih]

theorem run_sequence (f : α → Traced β) (last : β) (l : List α) :
    (sequence f last l).run = EvalM.sequence (fun a => (f a).run) last l := by
  induction l generalizing last with
  | nil => rfl
  | cons a l ih =>
    simp only [sequence, EvalM.sequence, run_bind, ih]

theorem run_repeatWhile (test : Traced Bool) (body : Traced α) (n : Nat) (last : α) :
    (repeatWhile test body n last).run = EvalM.repeatWhile test.run body.run n last := by
  induction n generalizing last with
  | zero => rfl
  | succ n ih =>
    simp only [repeatWhile, EvalM.repeatWhile, run_bind]
    congr 1
    funext holds
    cases holds with
    | true => simp only [if_true, run_bind, ih]
    | false => rfl

end Traced

open Traced in
/-- Evaluation inside the calls `calls`, with its record. -/
def trace : Nat → List String → Expr → Traced Float
  | 0, _, _ => quiet fun _ => .outOfFuel
  | fuel + 1, calls, e => noting (.begins calls e) <| match e with
      | .literal value => pure value
      | .unary op x => do
          let op ← quiet (EvalM.require (SignOp.ofSymbol? op) (.unknownOperator op))
          let x ← trace fuel calls x
          pure (op.apply x)
      | .binary op l r => do
          let op ← quiet (EvalM.require (ArithmeticOp.ofSymbol? op) (.unknownOperator op))
          let x ← trace fuel calls l
          let y ← trace fuel calls r
          result (op.apply x y)
      | .assign name x => do
          let x ← trace fuel calls x
          quiet (EvalM.modify (·.define name x))
          pure x
      | .var name => quiet do
          EvalM.require ((← EvalM.context).vars.get? name) (.unboundVariable name)
      | .compare op l r => do
          if ← Traced.compareBy op (trace fuel calls l) (trace fuel calls r) then pure 1 else pure 0
      | .branch op l r t e => do
          if ← Traced.compareBy op (trace fuel calls l) (trace fuel calls r) then trace fuel calls t
          else trace fuel calls e
      | .block [] => quiet (EvalM.fail .emptyBlock)
      | .block (x :: rest) => sequence (trace fuel calls) 0 (x :: rest)
      | .loop op l r body =>
          repeatWhile (Traced.compareBy op (trace fuel calls l) (trace fuel calls r))
            (trace fuel calls body) fuel 0
      | .declare name params body => do
          Traced.declareFunction ⟨name, params, body⟩
          pure 0
      | .call name args => do
          let f ← quiet (findFunction name args.length)
          let values ← collect (trace fuel calls) args
          inCall name (.ofList (f.params.zip values)) (trace fuel (name :: calls) f.body)

open Traced in
theorem trace_run (n : Nat) (calls : List String) (e : Expr) :
    (trace n calls e).run = eval n e := by
  induction n generalizing calls e with
  | zero => rfl
  | succ n ih =>
    have test (op : String) (l r : Expr) :
        (Traced.compareBy op (trace n calls l) (trace n calls r)).run =
          compareBy op (eval n l) (eval n r) := by
      rw [run_compareBy, ih, ih]
    cases e with
    | literal value => rfl
    | unary op x => simp only [trace, eval, run_noting, run_bind, run_quiet, run_pure, ih]
    | binary op l r =>
      simp only [trace, eval, run_noting, run_bind, run_quiet, ih]
      rfl
    | assign name x => simp only [trace, eval, run_noting, run_bind, run_quiet, run_pure, ih]
    | var name => rfl
    | compare op l r =>
      simp only [trace, eval, run_noting, run_bind, test]
      congr 1
      funext holds
      cases holds <;> rfl
    | branch op l r t e =>
      simp only [trace, eval, run_noting, run_bind, test]
      congr 1
      funext holds
      cases holds <;> exact ih calls _
    | block body =>
      cases body with
      | nil => rfl
      | cons x rest => simp only [trace, eval, run_noting, run_sequence, ih]
    | loop op l r body => simp only [trace, eval, run_noting, run_repeatWhile, test, ih]
    | declare name params body => rfl
    | call name args =>
      simp only [trace, eval, run_noting, run_bind, run_quiet, run_collect, run_inCall, ih]

end Reckoner
