import Mathlib.Data.Set.Basic
import Reckoner.Proofs.Call
import Reckoner.Proofs.Table

/-! What an evaluation does to the variables. It writes those that its expression assigns outside
the bodies of declarations, and it does nothing else to them; the functions that it calls write
variables of their own, which are gone when the calls are left. -/

namespace Reckoner

/-- The variables that `e` assigns itself. -/
def Expr.assigned (e : Expr) : Set String := {name | ∃ value, Expr.Active (.assign name value) e}

theorem Expr.assigned_subset_of_mem {e x : Expr} (hx : x ∈ e.activeParts) :
    x.assigned ⊆ e.assigned := by
  rintro name ⟨value, hactive⟩
  exact ⟨value, hactive.tail hx⟩

theorem Expr.mem_assigned_assign (name : String) (value : Expr) :
    name ∈ (Expr.assign name value).assigned :=
  ⟨value, .refl⟩

theorem Expr.assigned_eq_empty {e : Expr} (h : ∀ name value, e ≠ .assign name value)
    (hparts : ∀ x ∈ e.activeParts, x.assigned = ∅) : e.assigned = ∅ := by
  ext name
  constructor
  · rintro ⟨value, hactive⟩
    rcases active_iff.mp hactive with heq | ⟨x, hx, hin⟩
    · exact h name value heq.symm
    · rw [← hparts x hx]
      exact ⟨value, hin⟩
  · exact False.elim

/-- In the outermost frame only `targets` are written. Other frames have variables of their own,
about which nothing is said. -/
def footprintInvariant (before : Table Float) (targets : Set String) : Invariant Bool where
  code outermost e := outermost = true → e.assigned ⊆ targets
  state outermost p := outermost = true →
    Table.Written (fun name _ => name ∈ targets) before p.context.vars
  inner _ := false
  part he hx houter := (Expr.assigned_subset_of_mem hx).trans (he houter)
  defined _ he h houter := (h houter).insert (he houter (Expr.mem_assigned_assign _ _))
  declared _ h := h
  body _ _ _ houter := by simp at houter
  entered _ _ houter := by simp at houter
  left h _ := h

theorem Ends.written {e : Expr} {c : Context} {run : Evaluation} (h : Ends e c run) :
    Table.Written (fun name _ => name ∈ e.assigned) c.vars run.context.vars :=
  (footprintInvariant c.vars e.assigned).ends (w := true) (fun _ => subset_rfl) (fun _ => .refl) h
    rfl

/-- What the body of a call does to variables is not seen by the caller, whose variables are as the
arguments left them, or as they were if no argument was evaluated. -/
theorem Ends.vars_call {name : String} {args : List Expr} {c : Context} {run : Evaluation}
    (h : Ends (.call name args) c run) :
    (∀ f, c.functions.get? name = some f → f.params.length ≠ args.length) ∧
        run.context.vars = c.vars ∨
      ∃ result c₁ log, ArgumentsEnd args c result c₁ log ∧ run.context.vars = c₁.vars := by
  obtain ⟨run', hrun'⟩ := exists_callEnds (exists_ends_iff.mp ⟨run, h⟩)
  rw [h.unique hrun'.ends]
  cases hrun' with
  | undefined hnone => exact .inl ⟨by simp [hnone], rfl⟩
  | mismatch hf hcount =>
    refine .inl ⟨fun g hg => ?_, rfl⟩
    cases hf.symm.trans hg
    exact hcount
  | argument _ _ hargs => exact .inr ⟨_, _, _, hargs, rfl⟩
  | tooDeep _ _ hargs => exact .inr ⟨_, _, _, hargs, rfl⟩
  | body _ _ hargs => exact .inr ⟨_, _, _, hargs, rfl⟩

/-- However an evaluation ends, the variables that its expression does not assign are as before,
none has been lost, and the names are as before with new ones after them, which the expression
assigns and which occur once. An expression that assigns nothing leaves the variables exactly as they
were, whatever the functions do that it calls, and a call leaves them as its arguments did. -/
theorem evaluation_footprint (e : Expr) (c : Context) (run : Evaluation) (h : Ends e c run) :
    (∀ name ∉ e.assigned, run.context.vars.get? name = c.vars.get? name) ∧
    (∀ name, c.vars.contains name → run.context.vars.contains name) ∧
    (∃ added, run.context.vars.names = c.vars.names ++ added ∧
      ∀ name ∈ added, name ∈ e.assigned ∧ run.context.vars.names.count name = 1) ∧
    (e.assigned = ∅ → run.context.vars = c.vars) ∧
    ∀ name args, e = .call name args →
      (∀ f, c.functions.get? name = some f → f.params.length ≠ args.length) ∧
          run.context.vars = c.vars ∨
        ∃ result c₁ log, ArgumentsEnd args c result c₁ log ∧ run.context.vars = c₁.vars := by
  have hwritten := h.written
  refine ⟨fun name hname => hwritten.get?_eq fun _ => hname, fun _ => hwritten.contains, ?_, ?_, ?_⟩
  · obtain ⟨added, hnames, hadded⟩ := hwritten.names_eq
    refine ⟨added, hnames, fun name hname => ?_⟩
    obtain ⟨⟨_, hassigned⟩, hcount⟩ := hadded name hname
    exact ⟨hassigned, hcount⟩
  · intro hnone
    refine hwritten.eq_of_forall_not fun name _ hassigned => ?_
    rw [hnone] at hassigned
    exact hassigned
  · rintro name args rfl
    exact h.vars_call

def shadow : Function := ⟨"shadow", ["y"], .assign "x" (.var "y")⟩

theorem evaluation_footprint_shadow :
    let e : Expr := .call "shadow" [.literal 5]
    let c : Context := ⟨.ofList [("x", 1), ("y", 2)], .ofList [("shadow", shadow)], 0, 10⟩
    e.assigned = ∅ ∧ ∃ run, Ends e c run ∧ run.outcome = .ok 5 ∧ run.context.vars = c.vars := by
  intro e c
  have hvalue : (Expr.literal 5).assigned = ∅ := Expr.assigned_eq_empty (by simp) (by simp)
  have hnone : e.assigned = ∅ := Expr.assigned_eq_empty (by simp [e]) (by simpa [e] using hvalue)
  have hrun : Ends e c ⟨.ok 5, c, [.called "shadow" 1]⟩ := ⟨3, rfl⟩
  have hfootprint := evaluation_footprint e c _ hrun
  exact ⟨hnone, _, hrun, rfl, hfootprint.2.2.2.1 hnone⟩

end Reckoner
