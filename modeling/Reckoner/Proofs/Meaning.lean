import Mathlib.Order.Filter.AtTopBot.Basic
import Reckoner.Evaluation.Fuel
import Reckoner.Proofs.Coupling

/-! What evaluation does once fuel is left aside. `Ends` says how an evaluation ends that is given
enough fuel. `meaning` is the computation on which evaluation settles as the fuel grows; it obeys the
equations of evaluation, so that an argument which follows the expression need not count fuel. -/

namespace Reckoner

open EvalM Filter

variable {α β : Type}

/-- With some fuel, the evaluation of `e` in `c` ends as `run`. -/
def Ends (e : Expr) (c : Context) (run : Evaluation) : Prop := ∃ fuel, evaluate fuel e c = some run

def Outcome.ended : Except EvalError α → Progress → Outcome α
  | .ok a, after => .value a after
  | .error error, after => .failure error after

theorem Outcome.ended_ne_outOfFuel (result : Except EvalError α) (after : Progress) :
    ended result after ≠ .outOfFuel := by
  cases result <;> simp [ended]

def Evaluation.progress (run : Evaluation) : Progress := ⟨run.context, run.events.reverse⟩

theorem evaluate_eq_some_iff {n : Nat} {e : Expr} {c : Context} {run : Evaluation} :
    evaluate n e c = some run ↔ eval n e ⟨c, []⟩ = .ended run.outcome run.progress := by
  obtain ⟨outcome, after, events⟩ := run
  unfold evaluate
  cases eval n e ⟨c, []⟩ with
  | value x p =>
    cases p
    cases outcome <;> simp [Outcome.ended, Evaluation.progress, List.reverse_eq_iff]
  | failure error p =>
    cases p
    cases outcome <;> simp [Outcome.ended, Evaluation.progress, List.reverse_eq_iff]
  | outOfFuel => simp [(Outcome.ended_ne_outOfFuel _ _).symm]

theorem Ends.unique {e : Expr} {c : Context} {run run' : Evaluation} (h : Ends e c run)
    (h' : Ends e c run') : run = run' := by
  obtain ⟨n, hn⟩ := h
  obtain ⟨m, hm⟩ := h'
  have hn := evaluate_of_le (Nat.le_max_left n m) hn
  have hm := evaluate_of_le (Nat.le_max_right n m) hm
  exact Option.some.inj (hn.symm.trans hm)

/-- From some fuel on, `x` is `y`; how much fuel it takes may depend on where the computation
starts. -/
def Settles (x : Nat → EvalM α) (y : EvalM α) : Prop := ∀ p, ∀ᶠ n in atTop, x n p = y p

namespace Settles

variable {x : Nat → EvalM α} {y z : EvalM α} {f : Nat → α → EvalM β} {g : α → EvalM β}

theorem const (y : EvalM α) : Settles (fun _ => y) y := fun _ => .of_forall fun _ => rfl

theorem unique (hy : Settles x y) (hz : Settles x z) : y = z := by
  funext p
  obtain ⟨n, hn, hn'⟩ := ((hy p).and (hz p)).exists
  exact hn.symm.trans hn'

theorem bind (hx : Settles x y) (hf : ∀ a, Settles (fun n => f n a) (g a)) :
    Settles (fun n => x n >>= f n) (y >>= g) := by
  intro p
  cases hy : y p with
  | value a after =>
    filter_upwards [hx p, hf a after] with n hn hn'
    rw [bind_of_value (hn.trans hy), bind_of_value hy, hn']
  | failure error after =>
    filter_upwards [hx p] with n hn
    rw [bind_of_failure (hn.trans hy), bind_of_failure hy]
  | outOfFuel =>
    filter_upwards [hx p] with n hn
    rw [bind_of_outOfFuel (hn.trans hy), bind_of_outOfFuel hy]

theorem compareBy (op : String) {l r : Nat → EvalM Float} {l' r' : EvalM Float}
    (hl : Settles l l') (hr : Settles r r') :
    Settles (fun n => compareBy op (l n) (r n)) (compareBy op l' r') :=
  bind (const _) fun _ => bind hl fun _ => bind hr fun _ => const _

theorem collect (hf : ∀ a, Settles (fun n => f n a) (g a)) (l : List α) :
    Settles (fun n => collect (f n) l) (collect g l) := by
  induction l with
  | nil => exact const _
  | cons a l ih => exact bind (hf a) fun _ => bind ih fun _ => const _

theorem sequence (hf : ∀ a, Settles (fun n => f n a) (g a)) (last : β) (l : List α) :
    Settles (fun n => sequence (f n) last l) (sequence g last l) := by
  induction l generalizing last with
  | nil => exact const _
  | cons a l ih => exact bind (hf a) ih

theorem inCall (hx : Settles x y) (name : String) (locals : Table Float) :
    Settles (fun n => inCall name locals (x n)) (inCall name locals y) := by
  intro p
  rcases Nat.lt_or_ge p.context.depth p.context.limit with hlt | hge
  · filter_upwards [hx (p.entered name locals)] with n hn
    rw [inCall_of_lt _ _ _ hlt, inCall_of_lt _ _ _ hlt, hn]
  · simp only [inCall_of_le _ _ _ hge, eventually_true]

end Settles

open Classical in
/-- What an expression does, given whatever fuel that takes. -/
noncomputable def meaning (e : Expr) : EvalM Float := fun p =>
  if h : ∃ n, eval n e p ≠ .outOfFuel then eval h.choose e p else .outOfFuel

theorem eval_settles (e : Expr) : Settles (fun n => eval n e) (meaning e) := by
  intro p
  by_cases h : ∃ n, eval n e p ≠ .outOfFuel
  · have hm : meaning e p = eval h.choose e p := dif_pos h
    filter_upwards [eventually_ge_atTop h.choose] with n hn
    rw [hm]
    rcases eval_below hn e p with hout | heq
    · exact absurd hout h.choose_spec
    · exact heq.symm
  · have hm : meaning e p = .outOfFuel := dif_neg h
    refine .of_forall fun n => ?_
    rw [hm]
    exact not_not.mp fun hne => h ⟨n, hne⟩

theorem meaning_eq {e : Expr} {y : EvalM Float} (h : Settles (fun n => eval (n + 1) e) y) :
    meaning e = y := by
  have hsucc : Settles (fun n => eval (n + 1) e) (meaning e) := fun p =>
    (tendsto_add_atTop_nat 1).eventually (eval_settles e p)
  exact hsucc.unique h

theorem meaning_eq_eval {n : Nat} {e : Expr} {p : Progress} (h : eval n e p ≠ .outOfFuel) :
    meaning e p = eval n e p := by
  obtain ⟨m, hm, hnm⟩ := ((eval_settles e p).and (eventually_ge_atTop n)).exists
  rcases eval_below hnm e p with hout | heq
  · exact absurd hout h
  · exact hm.symm.trans heq.symm

theorem ends_iff_meaning {e : Expr} {c : Context} {run : Evaluation} :
    Ends e c run ↔ meaning e ⟨c, []⟩ = .ended run.outcome run.progress := by
  unfold Ends
  simp only [evaluate_eq_some_iff]
  constructor
  · rintro ⟨n, hn⟩
    have hne : eval n e ⟨c, []⟩ ≠ .outOfFuel := by
      rw [hn]
      exact Outcome.ended_ne_outOfFuel _ _
    rw [meaning_eq_eval hne, hn]
  · intro h
    obtain ⟨n, hn⟩ := (eval_settles e ⟨c, []⟩).exists
    exact ⟨n, hn.trans h⟩

/-! Equations of evaluation without fuel -/

theorem meaning_literal (value : Float) : meaning (.literal value) = pure value :=
  meaning_eq (.const _)

theorem meaning_unary (op : String) (x : Expr) :
    meaning (.unary op x) = (do
      let op ← require (SignOp.ofSymbol? op) (.unknownOperator op)
      let x ← meaning x
      pure (op.apply x)) :=
  meaning_eq (.bind (.const _) fun _ => .bind (eval_settles x) fun _ => .const _)

theorem meaning_binary (op : String) (l r : Expr) :
    meaning (.binary op l r) = (do
      let op ← require (ArithmeticOp.ofSymbol? op) (.unknownOperator op)
      let x ← meaning l
      let y ← meaning r
      match op.apply x y with
      | .ok z => pure z
      | .error error => fail (.ofArithmetic error)) :=
  meaning_eq (.bind (.const _) fun _ =>
    .bind (eval_settles l) fun _ => .bind (eval_settles r) fun _ => .const _)

theorem meaning_assign (name : String) (x : Expr) :
    meaning (.assign name x) = (do
      let x ← meaning x
      modify (·.define name x)
      pure x) :=
  meaning_eq (.bind (eval_settles x) fun _ => .const _)

theorem meaning_var (name : String) :
    meaning (.var name) = (do require ((← context).vars.get? name) (.unboundVariable name)) :=
  meaning_eq (.const _)

theorem meaning_compare (op : String) (l r : Expr) :
    meaning (.compare op l r) = (do
      if ← compareBy op (meaning l) (meaning r) then pure 1 else pure 0) :=
  meaning_eq (.bind (.compareBy op (eval_settles l) (eval_settles r)) fun _ => .const _)

theorem meaning_branch (op : String) (l r t e : Expr) :
    meaning (.branch op l r t e) = (do
      if ← compareBy op (meaning l) (meaning r) then meaning t else meaning e) := by
  refine meaning_eq (.bind (.compareBy op (eval_settles l) (eval_settles r)) fun holds => ?_)
  cases holds with
  | true => exact eval_settles t
  | false => exact eval_settles e

theorem meaning_block_nil : meaning (.block []) = fail .emptyBlock := meaning_eq (.const _)

theorem meaning_block_cons (x : Expr) (rest : List Expr) :
    meaning (.block (x :: rest)) = sequence meaning 0 (x :: rest) :=
  meaning_eq (.sequence eval_settles 0 (x :: rest))

theorem meaning_declare (name : String) (params : List String) (body : Expr) :
    meaning (.declare name params body) = (do
      declareFunction ⟨name, params, body⟩
      pure 0) :=
  meaning_eq (.const _)

theorem meaning_call (name : String) (args : List Expr) :
    meaning (.call name args) = (do
      let f ← findFunction name args.length
      let values ← collect meaning args
      inCall name (.ofList (f.params.zip values)) (meaning f.body)) :=
  meaning_eq (.bind (.const _) fun f =>
    .bind (.collect eval_settles args) fun _ => .inCall (eval_settles f.body) _ _)

/-! Couplings and invariants of whole evaluations -/

def Progress.finish (p : Progress) (result : Except EvalError Float) : Evaluation :=
  ⟨result, p.context, p.events.reverse⟩

@[simp] theorem Progress.progress_finish (p : Progress) (result : Except EvalError Float) :
    (p.finish result).progress = p := by
  simp [finish, Evaluation.progress]

theorem ends_finish {e : Expr} {c : Context} {result : Except EvalError Float} {p : Progress}
    (h : meaning e ⟨c, []⟩ = .ended result p) : Ends e c (p.finish result) := by
  rw [ends_iff_meaning, Progress.progress_finish]
  exact h

theorem exists_ends_iff {e : Expr} {c : Context} :
    (∃ run, Ends e c run) ↔ meaning e ⟨c, []⟩ ≠ .outOfFuel := by
  constructor
  · rintro ⟨run, h⟩
    rw [ends_iff_meaning.mp h]
    exact Outcome.ended_ne_outOfFuel _ _
  · intro h
    cases hc : meaning e ⟨c, []⟩ with
    | value x p => exact ⟨p.finish (.ok x), ends_finish hc⟩
    | failure error p => exact ⟨p.finish (.error error), ends_finish hc⟩
    | outOfFuel => exact absurd hc h

theorem meaning_match {W : Type} (K : Coupling W) {w : W} {e : Expr} {p q : Progress}
    (he : K.code w e) (h : K.state w p q) :
    (meaning e p).Match (K.state w) Eq K.stop Eq (meaning e q) := by
  obtain ⟨n, hp, hq⟩ := ((eval_settles e p).and (eval_settles e q)).exists
  rw [← hp, ← hq]
  exact K.eval_lockstep n he p q h

/-- The second run ends like the first one, unless the first one was stopped. -/
theorem Coupling.ends_right {W : Type} (K : Coupling W) {w : W} {e : Expr} {c c' : Context}
    {run : Evaluation} (he : K.code w e) (h : K.state w ⟨c, []⟩ ⟨c', []⟩) (hrun : Ends e c run) :
    (∃ error, run.outcome = .error error ∧ K.stop error) ∨
      ∃ run', Ends e c' run' ∧ run.outcome = run'.outcome ∧
        K.state w run.progress run'.progress := by
  have hmatch := meaning_match K he h
  rw [ends_iff_meaning.mp hrun] at hmatch
  generalize hc' : meaning e ⟨c', []⟩ = second at hmatch
  cases hresult : run.outcome with
  | ok x =>
    rw [hresult] at hmatch
    cases hmatch with
    | @value _ _ _ q hV hR =>
      rw [← hV] at hc'
      exact .inr ⟨q.finish (.ok x), ends_finish hc', rfl, by simpa using hR⟩
  | error error =>
    rw [hresult] at hmatch
    cases hmatch with
    | @failure _ _ _ q hE hR =>
      rw [← hE] at hc'
      exact .inr ⟨q.finish (.error error), ends_finish hc', rfl, by simpa using hR⟩
    | stopped hstop => exact .inl ⟨error, rfl, hstop⟩

/-- The first run ends if the second one does, and like it unless it was stopped. -/
theorem Coupling.ends_left {W : Type} (K : Coupling W) {w : W} {e : Expr} {c c' : Context}
    {run' : Evaluation} (he : K.code w e) (h : K.state w ⟨c, []⟩ ⟨c', []⟩) (hrun : Ends e c' run') :
    ∃ run, Ends e c run ∧ ((∃ error, run.outcome = .error error ∧ K.stop error) ∨
      run.outcome = run'.outcome ∧ K.state w run.progress run'.progress) := by
  have hfirst : meaning e ⟨c, []⟩ ≠ .outOfFuel := by
    intro hout
    have hmatch := meaning_match K he h
    rw [hout] at hmatch
    generalize hc' : meaning e ⟨c', []⟩ = second at hmatch
    cases hmatch
    exact exists_ends_iff.mp ⟨run', hrun⟩ hc'
  obtain ⟨run, hr⟩ := exists_ends_iff.mpr hfirst
  refine ⟨run, hr, ?_⟩
  rcases K.ends_right he h hr with hstop | ⟨run'', hr'', hsame⟩
  · exact .inl hstop
  · rw [hrun.unique hr'']
    exact .inr hsame

theorem Invariant.ends {W : Type} (K : Invariant W) {w : W} {e : Expr} {c : Context}
    {run : Evaluation} (he : K.code w e) (h : K.state w ⟨c, []⟩) (hrun : Ends e c run) :
    K.state w run.progress := by
  obtain ⟨n, hn⟩ := hrun
  have hend := K.eval_ensures n he ⟨c, []⟩ h
  rw [evaluate_eq_some_iff.mp hn] at hend
  cases hresult : run.outcome with
  | ok x =>
    rw [hresult] at hend
    exact hend.2
  | error error =>
    rw [hresult] at hend
    exact hend.2

/-! Evaluation adds to the events and does not read them -/

def Progress.after (p : Progress) (earlier : List Event) : Progress :=
  ⟨p.context, p.events ++ earlier⟩

def afterCoupling (earlier : List Event) : Coupling Unit where
  code _ _ := True
  state _ p q := p = q.after earlier
  stop _ := False
  inner := id
  part _ _ := trivial
  variable_eq _ h := by rw [h]; rfl
  defined _ _ h := by rw [h]; rfl
  declared _ h := by rw [h]; rfl
  function_eq _ h := by rw [h]; rfl
  body _ _ _ := trivial
  tooDeep h _ := .inr (by rw [h]; exact ⟨rfl, rfl⟩)
  entered h hlt := ⟨by rw [h] at hlt; exact hlt, by rw [h]; rfl⟩
  left h h' := by rw [h, h']; rfl

theorem meaning_after (e : Expr) (p : Progress) (earlier : List Event) :
    meaning e (p.after earlier) = (meaning e p).mapProgress (·.after earlier) := by
  have h := meaning_match (afterCoupling earlier) (w := ()) (e := e) (q := p) trivial rfl
  generalize meaning e (p.after earlier) = first at h ⊢
  generalize meaning e p = second at h ⊢
  cases h with
  | value hV hR => rw [hV, hR]; rfl
  | failure hE hR => rw [hE, hR]; rfl
  | outOfFuel => rfl
  | stopped hstop => exact hstop.elim

/-- An evaluation that ends does so in the same way in the middle of another one. -/
theorem Ends.meaning_eq {e : Expr} {c : Context} {run : Evaluation} (h : Ends e c run)
    (earlier : List Event) :
    meaning e ⟨c, earlier⟩ = .ended run.outcome (run.progress.after earlier) := by
  have hafter := meaning_after e ⟨c, []⟩ earlier
  rw [ends_iff_meaning.mp h] at hafter
  refine hafter.trans ?_
  cases run.outcome <;> rfl

theorem exists_ends {e : Expr} {p : Progress} (h : meaning e p ≠ .outOfFuel) :
    ∃ run, Ends e p.context run := by
  have hafter : meaning e p = _ := meaning_after e ⟨p.context, []⟩ p.events
  apply exists_ends_iff.mpr
  intro hout
  rw [hout] at hafter
  exact h hafter

end Reckoner
