import Mathlib.Data.List.Forall2
import Reckoner.Proofs.Meaning
import Reckoner.Proofs.SignOfZero
import Reckoner.Proofs.Table

/-! Equal expressions in equal contexts evaluate alike. Expressions are equal up to the signs of
their zeros and contexts up to the order of their names besides; two runs that start so go side by
side, through the same events, and end so. -/

namespace Reckoner

/-! Equality of trees, of functions and of contexts -/

namespace Expr

/-- Expressions of the same form with equal parts. -/
inductive SameForm : Expr → Expr → Prop
  | literal {x y : Float} : (x == y) = true → SameForm (.literal x) (.literal y)
  | unary {op : String} {x x' : Expr} : x.same x' = true → SameForm (.unary op x) (.unary op x')
  | binary {op : String} {l r l' r' : Expr} : l.same l' = true → r.same r' = true →
      SameForm (.binary op l r) (.binary op l' r')
  | assign {name : String} {x x' : Expr} : x.same x' = true →
      SameForm (.assign name x) (.assign name x')
  | var {name : String} : SameForm (.var name) (.var name)
  | compare {op : String} {l r l' r' : Expr} : l.same l' = true → r.same r' = true →
      SameForm (.compare op l r) (.compare op l' r')
  | branch {op : String} {l r t e l' r' t' e' : Expr} : l.same l' = true → r.same r' = true →
      t.same t' = true → e.same e' = true → SameForm (.branch op l r t e) (.branch op l' r' t' e')
  | block {body body' : List Expr} : List.Forall₂ (fun e e' => e.same e' = true) body body' →
      SameForm (.block body) (.block body')
  | loop {op : String} {l r body l' r' body' : Expr} : l.same l' = true → r.same r' = true →
      body.same body' = true → SameForm (.loop op l r body) (.loop op l' r' body')
  | declare {name : String} {params : List String} {body body' : Expr} : body.same body' = true →
      SameForm (.declare name params body) (.declare name params body')
  | call {name : String} {args args' : List Expr} :
      List.Forall₂ (fun e e' => e.same e' = true) args args' →
      SameForm (.call name args) (.call name args')

theorem sameAll_iff {es es' : List Expr} :
    sameAll es es' = true ↔ List.Forall₂ (fun e e' => e.same e' = true) es es' := by
  induction es generalizing es' with
  | nil => cases es' <;> simp [sameAll]
  | cons e es ih => cases es' <;> simp [sameAll, ih]

theorem sameForm_of_same {e e' : Expr} (h : e.same e' = true) : SameForm e e' := by
  revert h
  fun_cases same e e'
  case case1 => exact .literal
  case case12 => nofun
  all_goals
    simp only [Bool.and_eq_true, beq_iff_eq, sameAll_iff, and_imp]
    intros
    subst_vars
    constructor <;> assumption

end Expr

def Function.same (f g : Function) : Bool :=
  f.name == g.name && f.params == g.params && f.body.same g.body

theorem Function.same_iff {f g : Function} :
    f.same g = true ↔ f.name = g.name ∧ f.params = g.params ∧ f.body.same g.body = true := by
  simp [Function.same, and_assoc]

/-- Equal contexts. The order of the names may differ, but each of them is bound once. -/
structure Context.Agrees (c d : Context) : Prop where
  depth_eq : c.depth = d.depth
  limit_eq : c.limit = d.limit
  vars_nodup : c.vars.names.Nodup
  vars_agree : c.vars.agrees (· == ·) d.vars = true
  functions_nodup : c.functions.names.Nodup
  functions_agree : c.functions.agrees Function.same d.functions = true

inductive SameOutcome : Except EvalError Float → Except EvalError Float → Prop
  | value {x y : Float} : (x == y) = true → SameOutcome (.ok x) (.ok y)
  | error {error : EvalError} : SameOutcome (.error error) (.error error)

structure Evaluation.Agrees (run run' : Evaluation) : Prop where
  outcome : SameOutcome run.outcome run'.outcome
  context : run.context.Agrees run'.context
  events_eq : run.events = run'.events

/-! Runs side by side -/

/-- Progress that the same events led to, in contexts that are equal as far as lookups tell. -/
structure Progress.Corresponds (p q : Progress) : Prop where
  depth_eq : p.context.depth = q.context.depth
  limit_eq : p.context.limit = q.context.limit
  vars : p.context.vars.Corresponds (· == ·) q.context.vars
  functions : p.context.functions.Corresponds Function.same q.context.functions
  events_eq : p.events = q.events

namespace Progress.Corresponds

variable {p q p' q' : Progress}

theorem agrees (h : p.Corresponds q) : p.context.Agrees q.context where
  depth_eq := h.depth_eq
  limit_eq := h.limit_eq
  vars_nodup := h.vars.left_nodup
  vars_agree := (Table.agrees_iff h.vars.left_nodup).mpr h.vars
  functions_nodup := h.functions.left_nodup
  functions_agree := (Table.agrees_iff h.functions.left_nodup).mpr h.functions

theorem of_agrees {c d : Context} (h : c.Agrees d) : Corresponds ⟨c, []⟩ ⟨d, []⟩ where
  depth_eq := h.depth_eq
  limit_eq := h.limit_eq
  vars := (Table.agrees_iff h.vars_nodup).mp h.vars_agree
  functions := (Table.agrees_iff h.functions_nodup).mp h.functions_agree
  events_eq := rfl

theorem defined (h : p.Corresponds q) (name : String) {x y : Float} (hxy : (x == y) = true) :
    (p.defined name x).Corresponds (q.defined name y) :=
  { h with vars := h.vars.insert name hxy }

theorem declared (h : p.Corresponds q) {f g : Function} (hfg : f.same g = true) :
    (p.declared f).Corresponds (q.declared g) := by
  obtain ⟨hname, hparams, -⟩ := Function.same_iff.mp hfg
  have harity : f.arity = g.arity := congrArg List.length hparams
  have hcontains := h.functions.contains_eq g.name
  refine { h with functions := ?_, events_eq := ?_ }
  · change (p.context.functions.insert f.name f).Corresponds _
      (q.context.functions.insert g.name g)
    rw [hname]
    exact h.functions.insert g.name hfg
  · simp only [Progress.declared, hname, harity, hcontains, h.events_eq]

theorem entered (h : p.Corresponds q) (name : String) {locals locals' : Table Float}
    (hlocals : locals.Corresponds (· == ·) locals') :
    (p.entered name locals).Corresponds (q.entered name locals') where
  depth_eq := congrArg (· + 1) h.depth_eq
  limit_eq := h.limit_eq
  vars := hlocals
  functions := h.functions
  events_eq := by simp only [Progress.entered, h.depth_eq, h.events_eq]

theorem left (h : p.Corresponds q) (h' : p'.Corresponds q') :
    (p.left p').Corresponds (q.left q') :=
  { h' with
    depth_eq := congrArg (· - 1) h'.depth_eq
    vars := h.vars }

end Progress.Corresponds

/-- Runs that go side by side and end with the same error or with results that `V` relates. -/
abbrev EqualRuns {α β : Type} (V : α → β → Prop) : EvalM α → EvalM β → Prop :=
  Lockstep Progress.Corresponds Eq (fun _ => False) V

abbrev EqualValues (x y : Float) : Prop := (x == y) = true

theorem compareBy_equal {op : String} {l r l' r' : EvalM Float} (hl : EqualRuns EqualValues l l')
    (hr : EqualRuns EqualValues r r') :
    EqualRuns Eq (compareBy op l r) (compareBy op l' r') :=
  Lockstep.compareBy rfl hl hr fun op _ _ _ _ hx hy => op.holds_of_beq hx hy

theorem findFunction_equal (name : String) (count : Nat) :
    EqualRuns (fun f g => f.same g = true) (findFunction name count) (findFunction name count) := by
  apply Lockstep.findFunction
  · exact fun p q h => h.functions.get?_rel name
  · intro f g hfg
    exact congrArg List.length (Function.same_iff.mp hfg).2.1
  · rfl
  · exact fun _ => rfl

theorem inCall_equal (name : String) {locals locals' : Table Float}
    (hlocals : locals.Corresponds (· == ·) locals') {x y : EvalM Float}
    (h : EqualRuns EqualValues x y) :
    EqualRuns EqualValues (EvalM.inCall name locals x) (EvalM.inCall name locals' y) := by
  apply Lockstep.inCall (S := Progress.Corresponds)
  · intro p q hpq hge
    have hge' : q.context.limit ≤ q.context.depth := by rwa [← hpq.depth_eq, ← hpq.limit_eq]
    rw [EvalM.inCall_of_le _ _ _ hge', hpq.depth_eq, hpq.limit_eq]
    exact .failure rfl hpq
  · intro p q hpq hlt
    refine ⟨?_, hpq.entered name hlocals⟩
    rwa [← hpq.depth_eq, ← hpq.limit_eq]
  · exact h
  · exact fun p q p' q' hpq hpq' => hpq.left hpq'

theorem eval_equal (n : Nat) {e e' : Expr} (h : e.same e' = true) :
    EqualRuns EqualValues (eval n e) (eval n e') := by
  induction n generalizing e e' with
  | zero => exact fun _ _ _ => .outOfFuel
  | succ n ih =>
    have test {op : String} {l r l' r' : Expr} (hl : l.same l' = true) (hr : r.same r' = true) :
        EqualRuns Eq (compareBy op (eval n l) (eval n r)) (compareBy op (eval n l') (eval n r')) :=
      compareBy_equal (ih hl) (ih hr)
    have hzero : EqualValues 0 0 := by decide
    cases Expr.sameForm_of_same h with
    | literal hxy => exact .pure hxy
    | unary hx =>
      refine .bind_eq (.require_eq _ rfl) fun op => .bind (ih hx) fun _ _ hvalue => ?_
      exact .pure (op.apply_of_beq hvalue)
    | binary hl hr =>
      refine .bind_eq (.require_eq _ rfl) fun op => .bind (ih hl) fun x x' hx =>
        .bind (ih hr) fun y y' hy => ?_
      rcases op.apply_of_beq hx hy with ⟨error, herror, herror'⟩ | ⟨z, z', hz, hz', heq⟩
      · rw [herror, herror']
        exact .fail rfl
      · rw [hz, hz']
        exact .pure heq
    | @assign name _ _ hx =>
      refine .bind (ih hx) fun y y' hy => ?_
      apply Lockstep.bind_eq
      · exact .modify fun p q hpq => hpq.defined name hy
      · exact fun _ => .pure hy
    | @var name => exact .read (fun p q hpq => hpq.vars.get?_rel name) rfl
    | compare hl hr =>
      refine .bind_eq (test hl hr) fun holds => ?_
      cases holds with
      | true => exact .pure (by decide)
      | false => exact .pure hzero
    | branch hl hr ht he =>
      refine .bind_eq (test hl hr) fun holds => ?_
      cases holds with
      | true => exact ih ht
      | false => exact ih he
    | block hbody =>
      cases hbody with
      | nil => exact .fail rfl
      | cons hx hrest => exact .sequence (.cons hx hrest) hzero fun e e' _ he => ih he
    | loop hl hr hbody => exact .repeatWhile (test hl hr) (ih hbody) n hzero
    | @declare name params body body' hbody =>
      have hsame : Function.same ⟨name, params, body⟩ ⟨name, params, body'⟩ = true :=
        Function.same_iff.mpr ⟨rfl, rfl, hbody⟩
      apply Lockstep.bind_eq
      · exact .declareFunction fun p q hpq => hpq.declared hsame
      · exact fun _ => .pure hzero
    | @call name args args' hargs =>
      apply Lockstep.bind (V := fun f g => f.same g = true)
      · rw [← hargs.length_eq]
        exact findFunction_equal name args.length
      · intro f g hfg
        obtain ⟨-, hparams, hbody⟩ := Function.same_iff.mp hfg
        refine .bind (.collect hargs fun e e' _ he => ih he) fun values values' hvalues => ?_
        rw [hparams]
        exact inCall_equal name (.ofList_zip g.params hvalues) (ih hbody)

theorem evaluate_equal (n : Nat) {e e' : Expr} (he : e.same e' = true) {c d : Context}
    (hcd : c.Agrees d) : Option.Rel Evaluation.Agrees (evaluate n e c) (evaluate n e' d) := by
  have h := eval_equal n he _ _ (.of_agrees hcd)
  unfold evaluate
  generalize eval n e ⟨c, []⟩ = first at h
  generalize eval n e' ⟨d, []⟩ = second at h
  cases h with
  | value hx hp => exact .some ⟨.value hx, hp.agrees, congrArg List.reverse hp.events_eq⟩
  | failure herror hp =>
    subst herror
    exact .some ⟨.error, hp.agrees, congrArg List.reverse hp.events_eq⟩
  | outOfFuel => exact .none
  | stopped hstop => exact hstop.elim

theorem Ends.equal {a b : Expr} (hab : a.same b = true) {c d : Context} (hcd : c.Agrees d)
    {run : Evaluation} (h : Ends a c run) : ∃ run', Ends b d run' ∧ run.Agrees run' := by
  obtain ⟨n, hn⟩ := h
  have hrel := evaluate_equal n hab hcd
  rw [hn] at hrel
  generalize hother : evaluate n b d = other at hrel
  cases hrel with
  | some hagrees => exact ⟨_, ⟨n, hother⟩, hagrees⟩

theorem Ends.equal_symm {a b : Expr} (hab : a.same b = true) {c d : Context} (hcd : c.Agrees d)
    {run' : Evaluation} (h : Ends b d run') : ∃ run, Ends a c run := by
  obtain ⟨n, hn⟩ := h
  have hrel := evaluate_equal n hab hcd
  rw [hn] at hrel
  generalize hother : evaluate n a c = other at hrel
  cases hrel with
  | some hagrees => exact ⟨_, n, hother⟩

/-- Equal expressions in equal contexts: one evaluation ends if the other does, and then both end
with the same error or with values that compare equal, in equal contexts and after the same
events. -/
theorem evaluation_respects_equality {a b : Expr} (hab : a.same b = true) {c d : Context}
    (hcd : c.Agrees d) :
    ((∃ run, Ends a c run) ↔ ∃ run', Ends b d run') ∧
      ∀ run run', Ends a c run → Ends b d run' → run.Agrees run' := by
  refine ⟨⟨?_, ?_⟩, ?_⟩
  · rintro ⟨run, hrun⟩
    obtain ⟨run', hrun', -⟩ := hrun.equal hab hcd
    exact ⟨run', hrun'⟩
  · rintro ⟨run', hrun'⟩
    exact hrun'.equal_symm hab hcd
  · intro run run' hrun hrun'
    obtain ⟨other, hother, hagrees⟩ := hrun.equal hab hcd
    rwa [hrun'.unique hother]

/-- The zeros have other signs, and the variables another order. -/
theorem evaluation_respects_equality_of_zeros :
    let body (zero : Float) := Expr.binary "plus" (.var "p") (.literal zero)
    let e (zero : Float) := Expr.assign "x" (.call "f" [.literal zero])
    let c : Context := ⟨.ofList [("x", 1), ("y", 0)], .ofList [("f", ⟨"f", ["p"], body 0⟩)], 0, 1⟩
    let d : Context :=
      ⟨.ofList [("y", -0), ("x", 1)], .ofList [("f", ⟨"f", ["p"], body (-0)⟩)], 0, 1⟩
    let run : Evaluation := ⟨.ok 0, c.define "x" 0, [.called "f" 1]⟩
    let run' : Evaluation := ⟨.ok (-0), d.define "x" (-0), [.called "f" 1]⟩
    (e 0).same (e (-0)) = true ∧ c.Agrees d ∧ Ends (e 0) c run ∧ Ends (e (-0)) d run' ∧
      run.Agrees run' := by
  intro body e c d run run'
  have he : (e 0).same (e (-0)) = true := by decide
  have hcd : c.Agrees d := ⟨rfl, rfl, by decide, by decide, by decide, by decide⟩
  have hrun : Ends (e 0) c run := ⟨5, rfl⟩
  have hrun' : Ends (e (-0)) d run' := ⟨5, rfl⟩
  exact ⟨he, hcd, hrun, hrun', (evaluation_respects_equality he hcd).2 run run' hrun hrun'⟩

end Reckoner
