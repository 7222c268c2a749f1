import Reckoner.Proofs.Depth
import Reckoner.Proofs.Table

/-! Where the functions and the errors of an evaluation come from. All code that an evaluation runs
occurs in its expression or in the body of a function that its context held at the start, since
functions are stored only by declarations in such code. So does the expression that raises an
error. -/

namespace Reckoner

/-- `x` occurs in `e` or in the body of a function of `c`, the bodies of declarations included. -/
def Occurs (e : Expr) (c : Context) (x : Expr) : Prop :=
  Expr.Within x e ∨ ∃ name f, c.functions.get? name = some f ∧ Expr.Within x f.body

theorem Occurs.part {e x y : Expr} {c : Context} (h : Occurs e c x) (hy : y ∈ x.parts) :
    Occurs e c y := by
  rcases h with hx | ⟨name, f, hf, hx⟩
  · exact .inl (.head hy hx)
  · exact .inr ⟨name, f, hf, .head hy hx⟩

/-! Functions -/

def Moment.stored? : Moment → Option Function
  | .stores f => some f
  | .begins _ _ _ | .enters _ | .leaves _ => none

def storedFunctions (past : List Moment) : List Function := past.filterMap Moment.stored?

@[simp] theorem storedFunctions_stores (past : List Moment) (f : Function) :
    storedFunctions (past ++ [.stores f]) = storedFunctions past ++ [f] := by
  simp [storedFunctions, Moment.stored?]

theorem storedFunctions_other (past : List Moment) {moment : Moment} (h : moment.stored? = none) :
    storedFunctions (past ++ [moment]) = storedFunctions past := by
  simp [storedFunctions, h]

/-- The functions are those of `c` with all that were stored since, and each of these was declared
in code that `e` or `c` supplied. -/
structure Supplied (e : Expr) (c : Context) (p : Progress) (past : List Moment) : Prop where
  functions_eq : p.context.functions = ((storedFunctions past).foldl Context.declare c).functions
  written : Table.Written
    (fun name f => f.name = name ∧ Occurs e c (.declare f.name f.params f.body))
    c.functions p.context.functions

namespace Supplied

variable {e : Expr} {c : Context} {p q : Progress} {past : List Moment}

theorem note (h : Supplied e c p past) (hq : q.context.functions = p.context.functions)
    {moment : Moment} (hmoment : moment.stored? = none) : Supplied e c q (past ++ [moment]) := by
  refine ⟨?_, by rw [hq]; exact h.written⟩
  rw [hq, storedFunctions_other past hmoment]
  exact h.functions_eq

theorem store (h : Supplied e c p past) {f : Function}
    (hf : Occurs e c (.declare f.name f.params f.body)) :
    Supplied e c (p.declared f) (past ++ [.stores f]) := by
  refine ⟨?_, h.written.insert ⟨rfl, hf⟩⟩
  rw [storedFunctions_stores, List.foldl_append]
  change p.context.functions.insert f.name f = _
  rw [h.functions_eq]
  rfl

theorem occurs_body (h : Supplied e c p past) {name : String} {f : Function}
    (hf : p.context.functions.get? name = some f) : Occurs e c f.body := by
  rcases h.written.get?_eq_some hf with hheld | ⟨_, hdeclared⟩
  · exact .inr ⟨name, f, hheld, .refl⟩
  · exact hdeclared.part (by simp)

theorem get?_eq_none (h : Supplied e c p past) {name : String}
    (hnone : p.context.functions.get? name = none) : c.functions.get? name = none := by
  by_contra hheld
  have hbound : c.functions.contains name := Option.isSome_iff_ne_none.mpr hheld
  have hkept := h.written.contains hbound
  simp [Table.contains, hnone] at hkept

end Supplied

def provenanceContract (e : Expr) (c : Context) : Contract where
  code _ := Occurs e c
  state _ := Supplied e c
  part he hx := he.part (Expr.mem_parts_of_mem_activeParts hx)
  begun _ h := h.note rfl rfl
  defined _ _ h := ⟨h.functions_eq, h.written⟩
  stored he h := h.store he
  body _ h hf := h.occurs_body hf
  entered h _ _ := h.note (by rfl) rfl
  left _ h' := h'.note (by rfl) rfl

theorem supplied_start (e : Expr) (c : Context) : Supplied e c ⟨c, []⟩ [] := ⟨rfl, .refl⟩

/-- However an evaluation ends, no function is lost, the names are as before with new ones after
them, every function is stored under its own name, and each one is the one held before or was
declared in the expression or in the body of a function held before. All that was declared on the
way is kept, in the order in which it was declared: inside calls, and before a failure. -/
theorem registry_provenance (e : Expr) (c : Context) (n : Nat) (run : Evaluation)
    (hown : ∀ name f, c.functions.get? name = some f → f.name = name)
    (h : evaluate n e c = some run) :
    (∀ name, c.functions.contains name → run.context.functions.contains name) ∧
    c.functions.names <+: run.context.functions.names ∧
    (∀ name f, run.context.functions.get? name = some f → f.name = name ∧
      (c.functions.get? name = some f ∨
        ∃ params body, f = ⟨name, params, body⟩ ∧ Occurs e c (.declare name params body))) ∧
    run.context.functions =
      ((storedFunctions (moments n e c)).foldl Context.declare c).functions := by
  have hsupplied : Supplied e c run.progress (moments n e c) :=
    ((provenanceContract e c).holds_of_evaluate (.inl .refl) (supplied_start e c) h).1
  have hwritten := hsupplied.written
  refine ⟨fun _ => hwritten.contains, ?_, ?_, hsupplied.functions_eq⟩
  · obtain ⟨added, hnames, _⟩ := hwritten.names_eq
    exact ⟨added, hnames.symm⟩
  · intro name f hf
    rcases hwritten.get?_eq_some hf with hheld | ⟨rfl, hdeclared⟩
    · exact ⟨hown name f hheld, .inl hheld⟩
    · exact ⟨rfl, .inr ⟨f.params, f.body, rfl, hdeclared⟩⟩

def maker : Function := ⟨"maker", [], .block [.declare "made" ["n"] (.var "n"), .var "absent"]⟩

theorem registry_provenance_maker :
    let c : Context := ⟨∅, .ofList [("maker", maker)], 0, 10⟩
    (∀ name f, c.functions.get? name = some f → f.name = name) ∧
      ∃ run, evaluate 4 (.call "maker" []) c = some run ∧
        run.outcome = .error (.unboundVariable "absent") ∧
        run.context.functions.get? "made" = some ⟨"made", ["n"], .var "n"⟩ ∧
        Occurs (.call "maker" []) c (.declare "made" ["n"] (.var "n")) := by
  intro c
  have hown : ∀ name f, c.functions.get? name = some f → f.name = name := by
    intro name f hf
    change (Table.insert ∅ "maker" maker).get? name = some f at hf
    rw [Table.get?_insert] at hf
    split at hf
    next hname =>
      cases hf
      exact hname
    next => simp at hf
  have hrun : evaluate 4 (.call "maker" []) c = some
      ⟨.error (.unboundVariable "absent"), c.declare ⟨"made", ["n"], .var "n"⟩,
        [.called "maker" 1, .declared "made" 1]⟩ := rfl
  have hprovenance := registry_provenance _ c 4 _ hown hrun
  obtain ⟨_, hheld | ⟨params, body, hmade, hoccurs⟩⟩ :=
    hprovenance.2.2.1 "made" ⟨"made", ["n"], .var "n"⟩ rfl
  · cases hheld
  · cases hmade
    exact ⟨hown, _, hrun, rfl, rfl, hoccurs⟩

/-! Errors -/

/-- What an error says about the code that raised it. -/
def Accounted (e : Expr) (c : Context) : EvalError → Prop
  | .unboundVariable name => Occurs e c (.var name)
  | .unknownOperator op =>
      (op ∉ ["sub", "neg", "plus"] ∧ ∃ x, Occurs e c (.unary op x)) ∨
      (op ∉ ["plus", "sub", "mult", "div", "mod", "pow"] ∧ ∃ l r, Occurs e c (.binary op l r)) ∨
      (op ∉ ["lt", "le", "gt", "ge", "eq", "ne"] ∧
        ((∃ l r, Occurs e c (.compare op l r)) ∨ (∃ l r x y, Occurs e c (.branch op l r x y)) ∨
          ∃ l r x, Occurs e c (.loop op l r x)))
  | .undefinedFunction name =>
      (∃ args, Occurs e c (.call name args)) ∧ c.functions.get? name = none
  | .arityMismatch name expected actual =>
      expected ≠ actual ∧ (∃ args, args.length = actual ∧ Occurs e c (.call name args)) ∧
        ((∃ f, c.functions.get? name = some f ∧ f.params.length = expected) ∨
          ∃ params body, params.length = expected ∧ Occurs e c (.declare name params body))
  | .divisionByZero => ∃ l r, Occurs e c (.binary "div" l r) ∨ Occurs e c (.binary "mod" l r)
  | .nonFinite op =>
      op ∈ ["plus", "sub", "mult", "div", "mod", "pow"] ∧ ∃ l r, Occurs e c (.binary op l r)
  | .callTooDeep _ _ => ∃ name args, Occurs e c (.call name args)
  | .emptyBlock => Occurs e c (.block [])

theorem not_mem_of_eq_none {α : Type} {read : String → Option α} {symbols : List String}
    (hread : ∀ op ∈ symbols, (read op).isSome) {op : String} (h : read op = none) :
    op ∉ symbols := by
  intro hmem
  have hsome := hread op hmem
  simp [h] at hsome

theorem ArithmeticOp.symbol_of_ofSymbol? {symbol : String} {op : ArithmeticOp}
    (h : ofSymbol? symbol = some op) : op.symbol = symbol := by
  unfold ofSymbol? at h
  split at h <;> cases h <;> rfl

theorem ArithmeticOp.symbol_mem (op : ArithmeticOp) :
    op.symbol ∈ ["plus", "sub", "mult", "div", "mod", "pow"] := by
  cases op <;> decide

theorem ArithmeticOp.apply_eq_error {op : ArithmeticOp} {x y : Float} {error : ArithmeticError}
    (h : op.apply x y = .error error) :
    (error = .divisionByZero ∧ (op.symbol = "div" ∨ op.symbol = "mod")) ∨
      error = .nonFinite op.symbol := by
  unfold apply at h
  split at h
  next hzero =>
    cases h
    refine .inl ⟨rfl, ?_⟩
    cases op with
    | divide => exact .inl rfl
    | remainder => exact .inr rfl
    | _ => simp [divides] at hzero
  next =>
    simp only at h
    split at h
    · cases h
    · cases h
      exact .inr rfl

theorem accounted_of_raises {e x : Expr} {c : Context} {p : Progress} {past : List Moment}
    {error : EvalError} (hx : Occurs e c x) (h : Supplied e c p past)
    (hraises : Raises x p.context error) : Accounted e c error := by
  cases hraises with
  | unbound => exact hx
  | sign hop => exact .inl ⟨not_mem_of_eq_none (by decide) hop, _, hx⟩
  | arithmetic hop => exact .inr (.inl ⟨not_mem_of_eq_none (by decide) hop, _, _, hx⟩)
  | compare hop =>
    exact .inr (.inr ⟨not_mem_of_eq_none (by decide) hop, .inl ⟨_, _, hx⟩⟩)
  | branch hop =>
    exact .inr (.inr ⟨not_mem_of_eq_none (by decide) hop, .inr (.inl ⟨_, _, _, _, hx⟩)⟩)
  | loop hop =>
    exact .inr (.inr ⟨not_mem_of_eq_none (by decide) hop, .inr (.inr ⟨_, _, _, hx⟩)⟩)
  | @noResult op l r _ operator _ _ _ hop happly =>
    have hsymbol := ArithmeticOp.symbol_of_ofSymbol? hop
    rcases ArithmeticOp.apply_eq_error happly with ⟨rfl, hdivides⟩ | rfl
    · rw [hsymbol] at hdivides
      rcases hdivides with rfl | rfl
      · exact ⟨l, r, .inl hx⟩
      · exact ⟨l, r, .inr hx⟩
    · refine ⟨operator.symbol_mem, l, r, ?_⟩
      rw [hsymbol]
      exact hx
  | @undefined name args _ hnone => exact ⟨⟨args, hx⟩, h.get?_eq_none hnone⟩
  | @mismatch name args _ f hf hcount =>
    refine ⟨hcount, ⟨args, rfl, hx⟩, ?_⟩
    rcases h.written.get?_eq_some hf with hheld | ⟨rfl, hdeclared⟩
    · exact .inl ⟨f, hheld, rfl⟩
    · exact .inr ⟨f.params, f.body, rfl, hdeclared⟩
  | @tooDeep name args => exact ⟨name, args, hx⟩
  | emptyBlock => exact hx

def errorContract (e : Expr) (c : Context) : Contract :=
  { provenanceContract e c with
    error := Accounted e c
    raised := accounted_of_raises }

/-- An error of an evaluation is accounted for by an expression that occurs in its code, and one
about the depth gives the limit for both of its numbers. -/
theorem error_provenance (e : Expr) (c : Context) (hdepth : c.depth ≤ c.limit) (run : Evaluation)
    (h : Ends e c run) (error : EvalError) (herror : run.outcome = .error error) :
    Accounted e c error ∧ ∀ reached allowed, error = .callTooDeep reached allowed →
      reached = c.limit ∧ allowed = c.limit := by
  constructor
  · obtain ⟨n, hn⟩ := h
    have hholds := (errorContract e c).holds_of_evaluate (.inl .refl) (supplied_start e c) hn
    exact hholds.2.2 error herror
  · rintro reached allowed rfl
    exact h.callTooDeep_eq hdepth herror

/-- The function that is called was declared anew on the way, with one parameter more. -/
theorem error_provenance_redeclared :
    let e : Expr := .block [.declare "echo" ["n", "m"] (.var "m"), .call "echo" [.literal 1]]
    let c : Context := ⟨∅, .ofList [("echo", ⟨"echo", ["n"], .var "n"⟩)], 0, 10⟩
    c.depth ≤ c.limit ∧ (∃ run, Ends e c run ∧ run.outcome = .error (.arityMismatch "echo" 2 1)) ∧
      Accounted e c (.arityMismatch "echo" 2 1) := by
  intro e c
  have hrun : Ends e c ⟨.error (.arityMismatch "echo" 2 1),
      c.declare ⟨"echo", ["n", "m"], .var "m"⟩, [.redeclared "echo" 2]⟩ := ⟨3, rfl⟩
  have haccounted := (error_provenance e c (by decide) _ hrun _ rfl).1
  exact ⟨by decide, ⟨_, hrun, rfl⟩, haccounted⟩

end Reckoner
