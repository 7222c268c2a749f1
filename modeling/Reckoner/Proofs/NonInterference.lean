import Mathlib.Data.Set.Basic
import Reckoner.Proofs.Meaning

/-! An evaluation depends only on what its expression names. Two contexts that agree on the variables
which the expression reads itself, and on the functions which it can reach, give the same outcome. A
body sees its parameters alone, so inside a call the two runs agree on every variable, and the
variables of the callers no longer count. -/

namespace Reckoner

structure Agree (V F : Set String) (c₁ c₂ : Context) : Prop where
  vars : ∀ name ∈ V, c₁.vars.get? name = c₂.vars.get? name
  functions : ∀ name ∈ F, c₁.functions.get? name = c₂.functions.get? name
  depth : c₁.depth = c₂.depth
  limit : c₁.limit = c₂.limit

/-- The variables that `e` reads itself are among `V`. -/
def Expr.ReadsOnly (e : Expr) (V : Set String) : Prop :=
  ∀ name, Expr.Active (.var name) e → name ∈ V

/-- The functions that `e` calls, at once or in a body that it declares, are among `F`. -/
def Expr.CallsOnly (e : Expr) (F : Set String) : Prop :=
  ∀ name args, Expr.Within (.call name args) e → name ∈ F

/-- The functions among `F` call only functions among `F`. -/
def Context.Closed (c : Context) (F : Set String) : Prop :=
  ∀ name ∈ F, ∀ f, c.functions.get? name = some f → f.body.CallsOnly F

variable {V F : Set String} {c₁ c₂ : Context}

theorem Expr.ReadsOnly.of_parts {e : Expr} (h : ∀ name, .var name = e → name ∈ V)
    (hparts : ∀ x ∈ e.activeParts, x.ReadsOnly V) : e.ReadsOnly V := by
  intro name hread
  rcases active_iff.mp hread with heq | ⟨x, hx, hin⟩
  · exact h name heq
  · exact hparts x hx name hin

theorem Expr.CallsOnly.of_parts {e : Expr} (h : ∀ name args, .call name args = e → name ∈ F)
    (hparts : ∀ x ∈ e.parts, x.CallsOnly F) : e.CallsOnly F := by
  intro name args hcall
  rcases within_iff.mp hcall with heq | ⟨x, hx, hin⟩
  · exact h name args heq
  · exact hparts x hx name args hin

theorem Expr.CallsOnly.part {e x : Expr} (h : e.CallsOnly F) (hx : x ∈ e.parts) : x.CallsOnly F :=
  fun name args hcall => h name args (hcall.tail hx)

theorem Agree.define (h : Agree V F c₁ c₂) (name : String) (value : Float) :
    Agree V F (c₁.define name value) (c₂.define name value) := by
  refine ⟨?_, h.functions, h.depth, h.limit⟩
  intro other hother
  simp only [Context.define, Table.get?_insert, h.vars other hother]

theorem Agree.declare (h : Agree V F c₁ c₂) (f : Function) :
    Agree V F (c₁.declare f) (c₂.declare f) := by
  refine ⟨h.vars, ?_, h.depth, h.limit⟩
  intro other hother
  simp only [Context.declare, Table.get?_insert, h.functions other hother]

theorem Context.Closed.declare (h : c₁.Closed F) {f : Function} (hf : f.body.CallsOnly F) :
    (c₁.declare f).Closed F := by
  intro name hname g hg
  simp only [Context.declare, Table.get?_insert] at hg
  split at hg
  · cases Option.some.inj hg
    exact hf
  · exact h name hname g hg

/-- Two runs in contexts that agree. The frame is the set of variables on which they do. -/
def agreeCoupling (F : Set String) : Coupling (Set String) where
  code V e := e.ReadsOnly V ∧ e.CallsOnly F
  state V p q := Agree V F p.context q.context ∧ p.context.Closed F
  stop _ := False
  inner _ := Set.univ
  part he hx := by
    refine ⟨fun name hread => he.1 name (hread.tail hx), ?_⟩
    exact he.2.part (Expr.mem_parts_of_mem_activeParts hx)
  variable_eq he h := h.1.vars _ (he.1 _ .refl)
  defined value _ h := ⟨h.1.define _ value, h.2⟩
  declared he h := ⟨h.1.declare _, h.2.declare (he.2.part (by simp))⟩
  function_eq he h := h.1.functions _ (he.2 _ _ .refl)
  body he h hf := ⟨fun _ _ => trivial, h.2 _ (he.2 _ _ .refl) _ hf⟩
  tooDeep h _ := .inr ⟨h.1.depth, h.1.limit⟩
  entered h hlt := by
    refine ⟨?_, ⟨fun _ _ => rfl, h.1.functions, congrArg (· + 1) h.1.depth, h.1.limit⟩, h.2⟩
    rw [← h.1.depth, ← h.1.limit]
    exact hlt
  left h h' := ⟨⟨h.1.vars, h'.1.functions, congrArg (· - 1) h'.1.depth, h'.1.limit⟩, h'.2⟩

theorem exists_ends_of_agree {e : Expr} {run : Evaluation} (hreads : e.ReadsOnly V)
    (hcalls : e.CallsOnly F) (hclosed : c₁.Closed F) (h : Agree V F c₁ c₂) (hrun : Ends e c₁ run) :
    ∃ run', Ends e c₂ run' ∧ run.outcome = run'.outcome ∧ Agree V F run.context run'.context := by
  have hstart : (agreeCoupling F).state V ⟨c₁, []⟩ ⟨c₂, []⟩ := ⟨h, hclosed⟩
  rcases (agreeCoupling F).ends_right ⟨hreads, hcalls⟩ hstart hrun with
    ⟨_, _, hstop⟩ | ⟨run', hrun', houtcome, hagree, _⟩
  · exact hstop.elim
  · exact ⟨run', hrun', houtcome, hagree⟩

theorem exists_ends_of_agree' {e : Expr} {run' : Evaluation} (hreads : e.ReadsOnly V)
    (hcalls : e.CallsOnly F) (hclosed : c₁.Closed F) (h : Agree V F c₁ c₂) (hrun : Ends e c₂ run') :
    ∃ run, Ends e c₁ run ∧ run.outcome = run'.outcome ∧ Agree V F run.context run'.context := by
  have hstart : (agreeCoupling F).state V ⟨c₁, []⟩ ⟨c₂, []⟩ := ⟨h, hclosed⟩
  obtain ⟨run, hrun, ⟨_, _, hstop⟩ | ⟨houtcome, hagree, _⟩⟩ :=
    (agreeCoupling F).ends_left ⟨hreads, hcalls⟩ hstart hrun
  · exact hstop.elim
  · exact ⟨run, hrun, houtcome, hagree⟩

theorem readsOnly_literal (value : Float) : (Expr.literal value).ReadsOnly V :=
  .of_parts (by simp) (by simp)

theorem callsOnly_literal (value : Float) : (Expr.literal value).CallsOnly F :=
  .of_parts (by simp) (by simp)

/-- Contexts that agree on what an expression names are as good as each other: one evaluation ends if
the other one does, with the same outcome, and the contexts they leave agree again. In particular a
call on given values has the same outcome whatever the variables of its callers are. -/
theorem evaluation_noninterference (e : Expr) (V F : Set String) (c₁ c₂ : Context)
    (hreads : e.ReadsOnly V) (hcalls : e.CallsOnly F) (hclosed : c₁.Closed F)
    (h : Agree V F c₁ c₂) :
    (∀ run₁, Ends e c₁ run₁ → ∃ run₂, Ends e c₂ run₂ ∧ run₁.outcome = run₂.outcome ∧
      Agree V F run₁.context run₂.context) ∧
    (∀ run₂, Ends e c₂ run₂ → ∃ run₁, Ends e c₁ run₁ ∧ run₁.outcome = run₂.outcome ∧
      Agree V F run₁.context run₂.context) ∧
    ∀ name ∈ F, ∀ (values : List Float) (vars₁ vars₂ : Table Float) (run₁ : Evaluation),
      Ends (.call name (values.map .literal)) { c₁ with vars := vars₁ } run₁ →
      ∃ run₂, Ends (.call name (values.map .literal)) { c₂ with vars := vars₂ } run₂ ∧
        run₁.outcome = run₂.outcome := by
  refine ⟨fun _ => exists_ends_of_agree hreads hcalls hclosed h,
    fun _ => exists_ends_of_agree' hreads hcalls hclosed h, ?_⟩
  intro name hname values vars₁ vars₂ run₁ hrun
  have hreads' : (Expr.call name (values.map .literal)).ReadsOnly ∅ :=
    .of_parts (by simp) (by simp [readsOnly_literal])
  have hcalls' : (Expr.call name (values.map .literal)).CallsOnly F :=
    .of_parts (by simp [hname]) (by simp [callsOnly_literal])
  have hagree : Agree ∅ F { c₁ with vars := vars₁ } { c₂ with vars := vars₂ } :=
    ⟨by simp, h.functions, h.depth, h.limit⟩
  have hclosed' : Context.Closed { c₁ with vars := vars₁ } F := hclosed
  obtain ⟨run₂, hrun₂, houtcome, _⟩ := exists_ends_of_agree hreads' hcalls' hclosed' hagree hrun
  exact ⟨run₂, hrun₂, houtcome⟩

def echo : Function := ⟨"echo", ["n"], .var "n"⟩

/-- What is not read has another place and another value, and there is one function more. -/
theorem evaluation_noninterference_echo :
    let e : Expr := .assign "y" (.call "echo" [.var "x"])
    let c₁ : Context := ⟨.ofList [("x", 1), ("n", 2)], .ofList [("echo", echo)], 0, 10⟩
    let c₂ : Context :=
      ⟨.ofList [("n", 3), ("x", 1)], .ofList [("other", ⟨"other", [], e⟩), ("echo", echo)], 0, 10⟩
    e.ReadsOnly {"x"} ∧ e.CallsOnly {"echo"} ∧ c₁.Closed {"echo"} ∧ Agree {"x"} {"echo"} c₁ c₂ ∧
      ∃ run₂, Ends e c₂ run₂ ∧ run₂.outcome = .ok 1 := by
  intro e c₁ c₂
  have hx : (Expr.var "x").ReadsOnly {"x"} := .of_parts (by simp) (by simp)
  have hx' : (Expr.var "x").CallsOnly {"echo"} := .of_parts (by simp) (by simp)
  have hcall : (Expr.call "echo" [.var "x"]).ReadsOnly {"x"} := .of_parts (by simp) (by simpa)
  have hcall' : (Expr.call "echo" [.var "x"]).CallsOnly {"echo"} :=
    .of_parts (by simp +contextual) (by simpa)
  have hreads : e.ReadsOnly {"x"} := .of_parts (by simp [e]) (by simpa [e])
  have hcalls : e.CallsOnly {"echo"} := .of_parts (by simp [e]) (by simpa [e])
  have hclosed : c₁.Closed {"echo"} := by
    rintro _ rfl f hf
    cases Option.some.inj hf
    exact .of_parts (by simp [echo]) (by simp [echo])
  have hagree : Agree {"x"} {"echo"} c₁ c₂ :=
    ⟨by rintro _ rfl; rfl, by rintro _ rfl; rfl, rfl, rfl⟩
  have hrun : Ends e c₁ ⟨.ok 1, c₁.define "y" 1, [.called "echo" 1]⟩ := ⟨4, rfl⟩
  have hboth := evaluation_noninterference e {"x"} {"echo"} c₁ c₂ hreads hcalls hclosed hagree
  obtain ⟨run₂, hrun₂, houtcome, _⟩ := hboth.1 _ hrun
  exact ⟨hreads, hcalls, hclosed, hagree, run₂, hrun₂, houtcome.symm⟩

end Reckoner
