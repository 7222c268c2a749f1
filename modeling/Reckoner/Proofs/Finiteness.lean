import Reckoner.Proofs.Double
import Reckoner.Proofs.Provenance

/-! Evaluation creates no infinity and no NaN. An operator on two numbers refuses a result that is not
finite, and one on a single number changes the sign at most. So a number that is not finite was there
from the start, as a literal of the code or as a variable, in every frame and at every moment. -/

namespace Reckoner

/-- The numbers that an evaluation starts with. -/
def Given (e : Expr) (c : Context) (x : Float) : Prop :=
  Occurs e c (.literal x) ∨ ∃ name, c.vars.get? name = some x

/-- Finite, or up to the sign a number from the start. -/
def Grounded (e : Expr) (c : Context) (x : Float) : Prop :=
  x.isFinite = true ∨ ∃ y, Given e c y ∧ Number.magnitude x = Number.magnitude y

theorem Given.grounded {e : Expr} {c : Context} {x : Float} (h : Given e c x) : Grounded e c x :=
  .inr ⟨x, h, rfl⟩

theorem SignOp.magnitude_apply (op : SignOp) (x : Float) :
    Number.magnitude (op.apply x) = Number.magnitude x := by
  cases op with
  | negate => exact Number.magnitude_neg x
  | keep => rfl

theorem Grounded.signed {e : Expr} {c : Context} {x : Float} (h : Grounded e c x) (op : SignOp) :
    Grounded e c (op.apply x) := by
  rcases h with hfinite | ⟨y, hy, hsame⟩
  · left
    rw [Number.isFinite_iff] at hfinite ⊢
    rwa [op.magnitude_apply]
  · exact .inr ⟨y, hy, (op.magnitude_apply x).trans hsame⟩

theorem Grounded.isFinite {e : Expr} {c : Context} {x : Float} (h : Grounded e c x)
    (hgiven : ∀ y, Given e c y → y.isFinite = true) : x.isFinite = true := by
  rcases h with hfinite | ⟨y, hy, hsame⟩
  · exact hfinite
  · have hfinite := hgiven y hy
    rw [Number.isFinite_iff] at hfinite ⊢
    rwa [hsame]

def GroundedVariables (e : Expr) (c here : Context) : Prop :=
  ∀ name x, here.vars.get? name = some x → Grounded e c x

theorem GroundedVariables.define {e : Expr} {c here : Context} {x : Float}
    (h : GroundedVariables e c here) (hx : Grounded e c x) (name : String) :
    GroundedVariables e c (here.define name x) :=
  Table.forall_get?_insert h hx

theorem groundedVariables_locals {e : Expr} {c here : Context} {params : List String}
    {values : List Float} (h : ∀ x ∈ values, Grounded e c x)
    (hvars : here.vars = .ofList (params.zip values)) : GroundedVariables e c here := by
  intro name x hx
  rw [hvars] at hx
  exact h x (List.of_mem_zip (Table.mem_of_get?_ofList hx)).2

def Moment.context? : Moment → Option Context
  | .begins _ _ c | .enters c | .leaves c => some c
  | .stores _ => none

structure GroundedAt (e : Expr) (c : Context) (p : Progress) (past : List Moment) : Prop where
  supplied : Supplied e c p past
  now : GroundedVariables e c p.context
  before : ∀ moment ∈ past, ∀ here ∈ moment.context?, GroundedVariables e c here

namespace GroundedAt

variable {e : Expr} {c : Context} {p q : Progress} {past : List Moment}

theorem note (h : GroundedAt e c p past) (hq : q.context.functions = p.context.functions)
    (hnow : GroundedVariables e c q.context) {moment : Moment} (hmoment : moment.stored? = none)
    (hcontext : moment.context? = some p.context) : GroundedAt e c q (past ++ [moment]) := by
  refine ⟨h.supplied.note hq hmoment, hnow, ?_⟩
  intro other hother here hhere
  rcases List.mem_append.mp hother with hold | hnew
  · exact h.before other hold here hhere
  · cases List.mem_singleton.mp hnew
    cases hcontext.symm.trans hhere
    exact h.now

theorem store (h : GroundedAt e c p past) {f : Function}
    (hf : Occurs e c (.declare f.name f.params f.body)) :
    GroundedAt e c (p.declared f) (past ++ [.stores f]) := by
  refine ⟨h.supplied.store hf, h.now, ?_⟩
  intro other hother here hhere
  rcases List.mem_append.mp hother with hold | hnew
  · exact h.before other hold here hhere
  · cases List.mem_singleton.mp hnew
    cases hhere

end GroundedAt

def finitenessContract (e : Expr) (c : Context) : Contract where
  code _ := Occurs e c
  state _ := GroundedAt e c
  value := Grounded e c
  record past := ∀ moment ∈ past, ∀ here ∈ moment.context?, GroundedVariables e c here
  part {calls _ _} := @Contract.part (provenanceContract e c) calls _ _
  recorded h := h.before
  begun _ h := h.note rfl h.now rfl rfl
  defined _ hx h :=
    ⟨⟨h.supplied.functions_eq, h.supplied.written⟩, h.now.define hx _, h.before⟩
  stored he h := h.store he
  body _ h hf := h.supplied.occurs_body hf
  entered h _ hvalues := h.note (by rfl) (groundedVariables_locals hvalues rfl) rfl rfl
  left {_ _ p q _ _} h h' := h'.note (q := p.left q) rfl h.now rfl rfl
  literal he := Given.grounded (.inl he)
  signed h := h.signed _
  finite h := .inl h
  read h hx := h.now _ _ hx

theorem groundedAt_start (e : Expr) (c : Context) : GroundedAt e c ⟨c, []⟩ [] :=
  ⟨supplied_start e c, fun name _ hx => Given.grounded (.inr ⟨name, hx⟩), by simp⟩

/-- The value of an evaluation and the variables that it leaves, with a value or with an error, are
finite or were there from the start up to their sign. So are the variables of every frame at every
moment, whether the evaluation ends or not. -/
theorem evaluation_values_grounded (e : Expr) (c : Context) :
    (∀ run, Ends e c run →
      (∀ x, run.outcome = .ok x → Grounded e c x) ∧
      (∀ name x, run.context.vars.get? name = some x → Grounded e c x) ∧
      ((∀ y, Given e c y → y.isFinite = true) →
        (∀ x, run.outcome = .ok x → x.isFinite = true) ∧
        ∀ name x, run.context.vars.get? name = some x → x.isFinite = true)) ∧
    ∀ fuel, ∀ moment ∈ moments fuel e c, ∀ here ∈ moment.context?, ∀ name x,
      here.vars.get? name = some x → Grounded e c x := by
  have hcode : Occurs e c e := .inl .refl
  have hstart := groundedAt_start e c
  constructor
  · rintro run ⟨n, hn⟩
    obtain ⟨hstate, hvalue, -⟩ := (finitenessContract e c).holds_of_evaluate hcode hstart hn
    refine ⟨hvalue, hstate.now, fun hgiven => ⟨?_, ?_⟩⟩
    · intro x hx
      exact (hvalue x hx).isFinite hgiven
    · intro name x hx
      exact (hstate.now name x hx).isFinite hgiven
  · intro fuel
    exact (finitenessContract e c).record_moments hcode hstart

/-- An infinity is given to a function that was declared on the way, and comes back negated. -/
theorem evaluation_values_grounded_flip :
    let infinity := Number.ofMagnitude false Number.infinity
    let e : Expr := .block [.declare "flip" ["n"] (.unary "neg" (.var "n")),
      .assign "x" (.call "flip" [.literal infinity]), .var "absent"]
    let c := Context.withLimit 10
    ∃ run, Ends e c run ∧ run.outcome = .error (.unboundVariable "absent") ∧
      run.context.vars.get? "x" = some (-infinity) ∧ Float.isFinite (-infinity) = false ∧
      ∃ y, Given e c y ∧ Number.magnitude (-infinity) = Number.magnitude y := by
  intro infinity e c
  have hrun : Ends e c ⟨.error (.unboundVariable "absent"),
      (c.declare ⟨"flip", ["n"], .unary "neg" (.var "n")⟩).define "x" (-infinity),
      [.declared "flip" 1, .called "flip" 1]⟩ := ⟨5, rfl⟩
  have hinfinite : Float.isFinite (-infinity) = false := by decide
  have hgrounded := ((evaluation_values_grounded e c).1 _ hrun).2.1 "x" (-infinity) rfl
  refine ⟨_, hrun, rfl, rfl, hinfinite, ?_⟩
  rcases hgrounded with hfinite | hgiven
  · simp [hinfinite] at hfinite
  · exact hgiven

end Reckoner
