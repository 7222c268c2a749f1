import Reckoner.Proofs.Meaning
import Reckoner.Proofs.Trace

/-! What every evaluation keeps to, at each moment and whichever way it ends. `Raises` lists where
errors come from. A contract says what holds in each frame and that every action of evaluation keeps
it so; then it holds of evaluation as a whole, of its values, of its errors and of its record. -/

namespace Reckoner

open EvalM

variable {α β γ : Type}

/-- The errors that an expression raises itself, in the context that it has reached. All others are
those of its parts and of the bodies that it calls. -/
inductive Raises : Expr → Context → EvalError → Prop
  | unbound {name : String} {c : Context} : c.vars.get? name = none →
      Raises (.var name) c (.unboundVariable name)
  | sign {op : String} {x : Expr} {c : Context} : SignOp.ofSymbol? op = none →
      Raises (.unary op x) c (.unknownOperator op)
  | arithmetic {op : String} {l r : Expr} {c : Context} : ArithmeticOp.ofSymbol? op = none →
      Raises (.binary op l r) c (.unknownOperator op)
  | compare {op : String} {l r : Expr} {c : Context} : Comparison.ofSymbol? op = none →
      Raises (.compare op l r) c (.unknownOperator op)
  | branch {op : String} {l r t e : Expr} {c : Context} : Comparison.ofSymbol? op = none →
      Raises (.branch op l r t e) c (.unknownOperator op)
  | loop {op : String} {l r body : Expr} {c : Context} : Comparison.ofSymbol? op = none →
      Raises (.loop op l r body) c (.unknownOperator op)
  | noResult {op : String} {l r : Expr} {c : Context} {operator : ArithmeticOp} {x y : Float}
      {error : ArithmeticError} : ArithmeticOp.ofSymbol? op = some operator →
      operator.apply x y = .error error → Raises (.binary op l r) c (.ofArithmetic error)
  | undefined {name : String} {args : List Expr} {c : Context} : c.functions.get? name = none →
      Raises (.call name args) c (.undefinedFunction name)
  | mismatch {name : String} {args : List Expr} {c : Context} {f : Function} :
      c.functions.get? name = some f → f.arity ≠ args.length →
      Raises (.call name args) c (.arityMismatch name f.arity args.length)
  | tooDeep {name : String} {args : List Expr} {c : Context} : c.limit ≤ c.depth →
      Raises (.call name args) c (.callTooDeep c.depth c.limit)
  | emptyBlock {c : Context} : Raises (.block []) c .emptyBlock

/-- Started where `I` holds of the progress and of the moments up to there, the computation ends
where it holds of both again; a computation without an end has passed through moments that satisfy
`J`. -/
def Follows (I : Progress → List Moment → Prop) (J : List Moment → Prop) (E : EvalError → Prop)
    (V : α → Prop) (x : Traced α) : Prop :=
  ∀ p past, I p past →
    (x.run p).Holds (fun after => I after (past ++ x.moments p)) E (J (past ++ x.moments p)) V

namespace Follows

variable {I I' : Progress → List Moment → Prop} {J : List Moment → Prop} {E : EvalError → Prop}
  {V : α → Prop} {W : β → Prop}

theorem quiet {x : EvalM α} (h : ∀ past, Ensures (I · past) E (J past) V x) :
    Follows I J E V (.quiet x) := by
  intro p past hI
  simp only [Traced.quiet, List.append_nil]
  exact h past p hI

theorem pure {a : α} (h : V a) : Follows I J E V (pure a) := quiet fun _ => .pure h

theorem fail {error : EvalError} (h : ∀ p past, I p past → E error) :
    Follows I J E V (.quiet (EvalM.fail error)) := by
  intro p past hI
  simp only [Traced.quiet, List.append_nil]
  exact ⟨h p past hI, hI⟩

theorem require {found : Option α} {error : EvalError} (hsome : ∀ a, found = some a → V a)
    (hnone : ∀ p past, I p past → found = none → E error) :
    Follows I J E V (.quiet (EvalM.require found error)) := by
  cases found with
  | none => exact fail fun p past hI => hnone p past hI rfl
  | some a => exact pure (hsome a rfl)

theorem bind {x : Traced α} {f : α → Traced β} (hx : Follows I J E V x)
    (hf : ∀ a, V a → Follows I J E W (f a)) : Follows I J E W (x >>= f) := by
  intro p past hI
  have h := hx p past hI
  change Outcome.Holds (fun after =>
    I after (past ++ (x.moments p ++ (x.run p).next fun a => (f a).moments))) E
    (J (past ++ (x.moments p ++ (x.run p).next fun a => (f a).moments))) W
    ((x.run >>= fun a => (f a).run) p)
  rw [← List.append_assoc]
  cases hp : x.run p with
  | value a after =>
    rw [hp] at h
    rw [bind_of_value hp]
    exact hf a h.1 after _ h.2
  | failure error after =>
    rw [hp] at h
    rw [bind_of_failure hp]
    simp only [Outcome.next, List.append_nil]
    exact h
  | outOfFuel =>
    rw [hp] at h
    rw [bind_of_outOfFuel hp]
    simp only [Outcome.next, List.append_nil]
    exact h

theorem noting {moment : Context → Moment} {x : Traced α}
    (h : ∀ p past, I p past → I p (past ++ [moment p.context])) (hx : Follows I J E V x) :
    Follows I J E V (.noting moment x) := by
  intro p past hI
  have hrest := hx p _ (h p past hI)
  simpa only [Traced.noting, List.append_assoc, List.singleton_append] using hrest

theorem declareFunction {f : Function}
    (h : ∀ p past, I p past → I (p.declared f) (past ++ [.stores f])) :
    Follows I J E (fun _ => True) (.declareFunction f) :=
  fun p past hI => ⟨trivial, h p past hI⟩

theorem compareBy {op : String} {l r : Traced Float} {V : Float → Prop}
    (hop : ∀ p past, I p past → Comparison.ofSymbol? op = none → E (.unknownOperator op))
    (hl : Follows I J E V l) (hr : Follows I J E V r) :
    Follows I J E (fun _ => True) (.compareBy op l r) :=
  bind (V := fun _ => True) (require (fun _ _ => trivial) hop) fun _ _ =>
    bind hl fun _ _ => bind hr fun _ _ => pure trivial

theorem collect {f : γ → Traced α} {l : List γ} (h : ∀ a ∈ l, Follows I J E V (f a)) :
    Follows I J E (fun bs => ∀ b ∈ bs, V b) (.collect f l) := by
  induction l with
  | nil => exact pure (by simp)
  | cons a l ih =>
    refine bind (h a (by simp)) fun b hb => ?_
    refine bind (ih fun c hc => h c (by simp [hc])) fun bs hbs => ?_
    exact pure (by simpa using ⟨hb, hbs⟩)

theorem sequence {f : γ → Traced α} {l : List γ} {last : α} (hlast : V last)
    (h : ∀ a ∈ l, Follows I J E V (f a)) : Follows I J E V (.sequence f last l) := by
  induction l generalizing last with
  | nil => exact pure hlast
  | cons a l ih => exact bind (h a (by simp)) fun b hb => ih hb fun c hc => h c (by simp [hc])

theorem outOfFuel (hJ : ∀ p past, I p past → J past) :
    Follows I J E V (.quiet fun _ => .outOfFuel) :=
  quiet fun past p hI => hJ p past hI

theorem repeatWhile {test : Traced Bool} {x : Traced α} {last : α}
    (hJ : ∀ p past, I p past → J past) (ht : Follows I J E (fun _ => True) test)
    (hx : Follows I J E V x) (n : Nat) (hlast : V last) :
    Follows I J E V (.repeatWhile test x n last) := by
  induction n generalizing last with
  | zero => exact outOfFuel hJ
  | succ n ih =>
    refine bind ht fun holds _ => ?_
    cases holds with
    | true => exact bind hx fun _ ha => ih ha
    | false => exact pure hlast

/-- The body follows rules of its own, which are left for the caller's at the end. -/
theorem inCall {name : String} {locals : Table Float} {x : Traced α}
    (hdeep : ∀ p past, I p past → p.context.limit ≤ p.context.depth →
      E (.callTooDeep p.context.depth p.context.limit))
    (henter : ∀ p past, I p past → p.context.depth < p.context.limit →
      I' (p.entered name locals) (past ++ [.enters p.context]))
    (hx : Follows I' J E V x)
    (hleave : ∀ p q past past', I p past → I' q past' →
      I (p.left q) (past' ++ [.leaves q.context])) :
    Follows I J E V (.inCall name locals x) := by
  intro p past hI
  rcases Nat.lt_or_ge p.context.depth p.context.limit with hlt | hge
  · have h := hx _ _ (henter p past hI hlt)
    have hmoments : past ++ (Traced.inCall name locals x).moments p =
        past ++ [.enters p.context] ++ x.moments (p.entered name locals) ++
          (x.run (p.entered name locals)).leaving := by
      simp [Traced.inCall, if_pos hlt]
    rw [hmoments, Traced.run_inCall, inCall_of_lt _ _ _ hlt]
    cases hp : x.run (p.entered name locals) with
    | value a after =>
      rw [hp] at h
      exact ⟨h.1, hleave p after past _ hI h.2⟩
    | failure error after =>
      rw [hp] at h
      exact ⟨h.1, hleave p after past _ hI h.2⟩
    | outOfFuel =>
      rw [hp] at h
      simp only [Outcome.leaving, List.append_nil]
      exact h
  · have hmoments : (Traced.inCall name locals x).moments p = [] := if_neg (by omega)
    rw [hmoments, Traced.run_inCall, inCall_of_le _ _ _ hge, List.append_nil]
    exact ⟨hdeep p past hI hge, hI⟩

end Follows

/-- Rules that every action of evaluation keeps. Inside the calls `calls`, `code calls` are the
expressions that are evaluated and `state calls` holds of the progress and of the moments so far;
`value` holds of values, `error` of errors and `record` of what an evaluation passes through. -/
structure Contract where
  code : List String → Expr → Prop
  state : List String → Progress → List Moment → Prop
  value : Float → Prop := fun _ => True
  error : EvalError → Prop := fun _ => True
  record : List Moment → Prop := fun _ => True
  part {calls : List String} {e x : Expr} : code calls e → x ∈ e.activeParts → code calls x
  recorded {calls : List String} {p : Progress} {past : List Moment} : state calls p past →
    record past := by intros; trivial
  begun {calls : List String} {e : Expr} {p : Progress} {past : List Moment} : code calls e →
    state calls p past → state calls p (past ++ [.begins calls e p.context])
  raised {calls : List String} {e : Expr} {p : Progress} {past : List Moment} {err : EvalError} :
    code calls e → state calls p past → Raises e p.context err → error err := by
      intros; trivial
  defined {calls : List String} {name : String} {e : Expr} {x : Float} {p : Progress}
    {past : List Moment} : code calls (.assign name e) → value x → state calls p past →
    state calls (p.defined name x) past
  stored {calls : List String} {f : Function} {p : Progress} {past : List Moment} :
    code calls (.declare f.name f.params f.body) → state calls p past →
    state calls (p.declared f) (past ++ [.stores f])
  body {calls : List String} {name : String} {args : List Expr} {f : Function} {p : Progress}
    {past : List Moment} : code calls (.call name args) → state calls p past →
    p.context.functions.get? name = some f → code (name :: calls) f.body
  entered {calls : List String} {name : String} {params : List String} {values : List Float}
    {p : Progress} {past : List Moment} : state calls p past →
    p.context.depth < p.context.limit → (∀ x ∈ values, value x) →
    state (name :: calls) (p.entered name (.ofList (params.zip values)))
      (past ++ [.enters p.context])
  left {calls : List String} {name : String} {p q : Progress} {past past' : List Moment} :
    state calls p past → state (name :: calls) q past' →
    state calls (p.left q) (past' ++ [.leaves q.context])
  literal {calls : List String} {x : Float} : code calls (.literal x) → value x := by
    intros; trivial
  signed {op : SignOp} {x : Float} : value x → value (op.apply x) := by intros; trivial
  finite {x : Float} : x.isFinite = true → value x := by intros; trivial
  read {calls : List String} {name : String} {x : Float} {p : Progress} {past : List Moment} :
    state calls p past → p.context.vars.get? name = some x → value x := by intros; trivial

theorem ArithmeticOp.isFinite_of_apply {op : ArithmeticOp} {x y z : Float}
    (h : op.apply x y = .ok z) : z.isFinite = true := by
  unfold apply at h
  split at h
  · cases h
  · simp only at h
    split at h
    next hfinite =>
      cases h
      exact hfinite
    next => cases h

namespace Contract

variable (K : Contract) {calls : List String}

theorem trace_follows (n : Nat) {e : Expr} (he : K.code calls e) :
    Follows (K.state calls) K.record K.error K.value (trace n calls e) := by
  have recorded {calls : List String} (p : Progress) (past : List Moment)
      (hp : K.state calls p past) : K.record past := K.recorded hp
  -- on the fuel; the body of a call is evaluated inside one call more
  induction n generalizing calls e with
  | zero => exact .outOfFuel recorded
  | succ n ih =>
    have part {x : Expr} (hx : x ∈ e.activeParts) :
        Follows (K.state calls) K.record K.error K.value (trace n calls x) := ih (K.part he hx)
    have fails {err : EvalError} (h : ∀ c, Raises e c err) (p : Progress) (past : List Moment)
        (hp : K.state calls p past) : K.error err := K.raised he hp (h p.context)
    have test (op : String) {l r : Expr} (hl : l ∈ e.activeParts) (hr : r ∈ e.activeParts)
        (h : Comparison.ofSymbol? op = none → ∀ c, Raises e c (.unknownOperator op)) :
        Follows (K.state calls) K.record K.error (fun _ => True)
          (.compareBy op (trace n calls l) (trace n calls r)) :=
      .compareBy (fun p past hp hop => fails (h hop) p past hp) (part hl) (part hr)
    have zero : K.value 0 := K.finite rfl
    refine .noting (fun p past hp => K.begun he hp) ?_
    cases e with
    | literal value => exact .pure (K.literal he)
    | unary op x =>
      refine .bind (V := fun _ => True) (.require (fun _ _ => trivial) fun p past hp hop =>
        fails (fun _ => .sign hop) p past hp) fun op _ => ?_
      exact .bind (part (by simp)) fun x hx => .pure (K.signed hx)
    | binary op l r =>
      refine .bind (V := fun operator => ArithmeticOp.ofSymbol? op = some operator)
        (.require (fun _ hop => hop) fun p past hp hop =>
          fails (fun _ => .arithmetic hop) p past hp) fun operator hop => ?_
      refine .bind (part (by simp)) fun x _ => .bind (part (by simp)) fun y _ => ?_
      cases hresult : operator.apply x y with
      | ok z => exact .pure (K.finite (ArithmeticOp.isFinite_of_apply hresult))
      | error error => exact .fail (fails fun _ => .noResult hop hresult)
    | assign name x =>
      refine .bind (part (by simp)) fun x hx => ?_
      exact .bind (.quiet fun past => .modify fun p hp => K.defined he hx hp) fun _ _ => .pure hx
    | var name =>
      exact .quiet fun past => .read (fun p x hp hx => K.read hp hx)
        fun p hp hnone => K.raised he hp (.unbound hnone)
    | compare op l r =>
      refine .bind (test op (by simp) (by simp) fun hop _ => .compare hop) fun holds _ => ?_
      cases holds with
      | true => exact .pure (K.finite rfl)
      | false => exact .pure zero
    | branch op l r t e =>
      refine .bind (test op (by simp) (by simp) fun hop _ => .branch hop) fun holds _ => ?_
      cases holds <;> exact part (by simp)
    | block body =>
      cases body with
      | nil => exact .fail (fails fun _ => .emptyBlock)
      | cons x rest => exact .sequence zero fun y hy => part hy
    | loop op l r body =>
      have htest := test op (l := l) (r := r) (by simp) (by simp) fun hop _ => .loop hop
      have hbody := part (x := body) (by simp)
      exact .repeatWhile recorded htest hbody n zero
    | declare name params body =>
      exact .bind (.declareFunction fun p past hp => K.stored (f := ⟨name, params, body⟩) he hp)
        fun _ _ => .pure zero
    | call name args =>
      refine .bind (V := fun f => K.code (name :: calls) f.body)
        (.quiet fun past => .findFunction (fun p f hp hf _ => K.body he hp hf)
          (fun p hp hnone => K.raised he hp (.undefined hnone))
          fun p f hp hf hcount => K.raised he hp (.mismatch hf hcount)) fun f hbody => ?_
      refine .bind (.collect fun x hx => part hx) fun values hvalues => ?_
      exact .inCall (fun p past hp hdeep => K.raised he hp (.tooDeep hdeep))
        (fun p past hp hlt => K.entered hp hlt hvalues) (ih hbody)
        fun p q past past' hp hq => K.left hp hq

end Contract

/-- What the evaluation of `e` in `c` passes through with this much fuel. -/
def moments (n : Nat) (e : Expr) (c : Context) : List Moment := (trace n [] e).moments ⟨c, []⟩

namespace Contract

variable (K : Contract) {n : Nat} {e : Expr} {c : Context}

theorem record_moments (he : K.code [] e) (h : K.state [] ⟨c, []⟩ []) :
    K.record (moments n e c) := by
  have hend := K.trace_follows n he ⟨c, []⟩ [] h
  rw [List.nil_append] at hend
  cases hrun : (trace n [] e).run ⟨c, []⟩ with
  | value x after =>
    rw [hrun] at hend
    exact K.recorded hend.2
  | failure error after =>
    rw [hrun] at hend
    exact K.recorded hend.2
  | outOfFuel =>
    rw [hrun] at hend
    exact hend

theorem holds_of_evaluate {run : Evaluation} (he : K.code [] e) (h : K.state [] ⟨c, []⟩ [])
    (hrun : evaluate n e c = some run) :
    K.state [] run.progress (moments n e c) ∧ (∀ x, run.outcome = .ok x → K.value x) ∧
      ∀ error, run.outcome = .error error → K.error error := by
  have hend := K.trace_follows n he ⟨c, []⟩ [] h
  rw [List.nil_append, trace_run, evaluate_eq_some_iff.mp hrun] at hend
  cases hresult : run.outcome with
  | ok x =>
    rw [hresult] at hend
    exact ⟨hend.2, by rintro _ ⟨⟩; exact hend.1, by simp⟩
  | error error =>
    rw [hresult] at hend
    exact ⟨hend.2, by simp, by rintro _ ⟨⟩; exact hend.1⟩

end Contract

end Reckoner
