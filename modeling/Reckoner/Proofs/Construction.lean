import Reckoner.Proofs.Contract
import Reckoner.Proofs.Reading
import Reckoner.Proofs.SessionRules
import Reckoner.Proofs.Table

/-! The checks made when an expression is built last for ever. However an expression comes into being,
it is well built; evaluation stores only bodies that occur in well built code, so in no session does a
function with another body appear, and no evaluation finds an empty block. -/

namespace Reckoner

/-- The body of every function is well built. Its parameters may repeat. -/
def Context.WellBuilt (c : Context) : Prop :=
  ∀ name f, c.functions.get? name = some f → f.body.WellBuilt

theorem Context.WellBuilt.declare {c : Context} {f : Function} (h : c.WellBuilt)
    (hf : f.body.WellBuilt) : (c.declare f).WellBuilt :=
  Table.forall_get?_insert h hf

theorem Context.wellBuilt_of_functions_eq_empty {c : Context} (h : c.functions = ∅) :
    c.WellBuilt := by
  intro name f hf
  simp [h] at hf

theorem ne_emptyBlock_of_raises {e : Expr} {c : Context} {error : EvalError} (he : e.WellBuilt)
    (h : Raises e c error) : error ≠ .emptyBlock := by
  cases h with
  | emptyBlock => exact absurd .refl he.blocks
  | @noResult _ _ _ _ _ _ _ error _ _ => cases error <;> simp [EvalError.ofArithmetic]
  | _ => simp

def wellBuiltContract : Contract where
  code _ := Expr.WellBuilt
  state _ p _ := p.context.WellBuilt
  error error := error ≠ .emptyBlock
  part he hx := he.part (Expr.mem_parts_of_mem_activeParts hx)
  begun _ h := h
  raised he _ h := ne_emptyBlock_of_raises he h
  defined _ _ h := h
  stored he h := h.declare (he.part (by simp))
  body _ h hf := h _ _ hf
  entered h _ _ := h
  left _ h := h

theorem Ends.wellBuilt {e : Expr} {c : Context} {run : Evaluation} (h : Ends e c run)
    (he : e.WellBuilt) (hc : c.WellBuilt) :
    run.context.WellBuilt ∧ ∀ error, run.outcome = .error error → error ≠ .emptyBlock := by
  obtain ⟨n, hn⟩ := h
  obtain ⟨hstate, -, herror⟩ := wellBuiltContract.holds_of_evaluate he hc hn
  exact ⟨hstate, herror⟩

def wellBuiltRules : SessionRules where
  code := Expr.WellBuilt
  state _ := Context.WellBuilt
  error error := error ≠ .emptyBlock
  evaluated he hc h := h.wellBuilt he hc
  fresh he h := (h.wellBuilt he (Context.wellBuilt_of_functions_eq_empty rfl)).2
  defined _ _ h := h
  declared hf h := h.declare hf
  reset _ := Context.wellBuilt_of_functions_eq_empty rfl
  clearedVariables h := h
  clearedFunctions _ := Context.wellBuilt_of_functions_eq_empty rfl
  entered h henter := by
    unfold Context.enter at henter
    split at henter <;> cases henter
    exact h
  refused _ henter := by
    unfold Context.enter at henter
    split at henter <;> cases henter
    simp
  left _ h := h

/-- Every expression that was built, decoded from a value or read from a text or a program file is
well built. In a session whose expressions are, no evaluation fails on an empty block, at any depth of
frames and forks, and the functions of every context that is passed through have well built bodies. -/
theorem construction_invariants :
    (∀ e : Expr, e.Built → e.WellBuilt) ∧
    (∀ (json : Json) (e : Expr), json.decode = .ok e → e.WellBuilt) ∧
    (∀ (text : String) (e : Expr), Expr.ofSource text = .ok e → e.WellBuilt) ∧
    (∀ (text : String) (program : Program), Program.parse text = .ok program →
      ∀ e ∈ program, e.WellBuilt) ∧
    ∀ (c : Context) (steps : List Step) (fuel : Nat) (answers : List (Reply × Context))
      (after : Context), c.WellBuilt → Step.AllHold Expr.WellBuilt steps →
      Session.run fuel c steps = some (answers, after) →
      Reply.AllKeep (fun _ => Context.WellBuilt) (· ≠ .emptyBlock) 0 answers ∧
        after.WellBuilt := by
  refine ⟨fun e => Expr.Built.wellBuilt, ?_, ?_, ?_, ?_⟩
  · intro json e he
    exact (json.yields_decode e he).wellBuilt
  · intro text e he
    exact (yields_ofSource text e he).wellBuilt
  · intro text program hprogram e he
    exact (Program.yields_parse text program hprogram e he).wellBuilt
  · intro c steps fuel answers after hc hsteps hrun
    exact wellBuiltRules.run_keeps hc steps hsteps hrun

/-- A function that was stored directly, with a repeated parameter, declares another one inside a
frame and then fails. -/
theorem construction_invariants_frame :
    let made : Expr := .block [.var "n"]
    let body : Expr := .block [.declare "made" ["n"] made, .var "absent"]
    let steps : List Step := [.declare ⟨"maker", ["a", "a"], body⟩,
      .frame [("x", 1)] [.eval (.call "maker" [.literal 1, .literal 2])]]
    Step.AllHold Expr.WellBuilt steps ∧
      ∃ answers after, Session.run 5 (.withLimit 10) steps = some (answers, after) ∧
        after.functions.get? "made" = some ⟨"made", ["n"], made⟩ ∧ after.WellBuilt := by
  intro made body steps
  have hvar (name : String) : (Expr.var name).WellBuilt := (Expr.Built.var name).wellBuilt
  have hmade : made.WellBuilt :=
    .of_parts (by simp [made]) (by simp [made]) (by simpa [made] using hvar "n")
  have hdeclare : (Expr.declare "made" ["n"] made).WellBuilt :=
    .of_parts (by simp) (by rintro _ _ _ ⟨⟩; simp) (by simpa using hmade)
  have hbody : body.WellBuilt :=
    .of_parts (by simp [body]) (by simp [body]) (by simpa [body] using ⟨hdeclare, hvar "absent"⟩)
  have hliteral (x : Float) : (Expr.literal x).WellBuilt := (Expr.Built.literal x).wellBuilt
  have hcall : (Expr.call "maker" [.literal 1, .literal 2]).WellBuilt :=
    .of_parts (by simp) (by simp) (by simpa using ⟨hliteral 1, hliteral 2⟩)
  have hsteps : Step.AllHold Expr.WellBuilt steps := ⟨hbody, ⟨hcall, trivial⟩, trivial⟩
  obtain ⟨answers, after, hrun, hheld⟩ : ∃ answers after,
      Session.run 5 (.withLimit 10) steps = some (answers, after) ∧
        after.functions.get? "made" = some ⟨"made", ["n"], made⟩ := ⟨_, _, rfl, rfl⟩
  have hempty : (Context.withLimit 10).WellBuilt := Context.wellBuilt_of_functions_eq_empty rfl
  have hkept := construction_invariants.2.2.2.2 _ steps 5 answers after hempty hsteps hrun
  exact ⟨hsteps, answers, after, hrun, hheld, hkept.2⟩

end Reckoner
