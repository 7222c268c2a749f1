import Reckoner.Proofs.Meaning

/-! The limit on the depth of calls cuts evaluations off and has no other effect. Two runs that differ
only in the limit go side by side until the run with the smaller one reaches it; the error that it
reports there is caught by nothing and ends that run. -/

namespace Reckoner

structure Evaluation.SameButLimit (run run' : Evaluation) : Prop where
  outcome : run.outcome = run'.outcome
  vars : run.context.vars = run'.context.vars
  functions : run.context.functions = run'.context.functions
  depth : run.context.depth = run'.context.depth

/-- A run with the limit `m` beside the same run with the larger limit `m'`. -/
def limitCoupling (m m' : Nat) (hm : m ≤ m') : Coupling Unit where
  code _ _ := True
  state _ p q := p.context.depth ≤ m ∧ p.context.limit = m ∧
    q = { p with context := { p.context with limit := m' } }
  stop error := error = .callTooDeep m m
  inner := id
  part _ _ := trivial
  variable_eq _ h := by rw [h.2.2]
  defined _ _ h := ⟨h.1, h.2.1, by rw [h.2.2]; rfl⟩
  declared _ h := ⟨h.1, h.2.1, by rw [h.2.2]; rfl⟩
  function_eq _ h := by rw [h.2.2]
  body _ _ _ := trivial
  tooDeep h hge := by
    have hdepth := Nat.le_antisymm h.1 (h.2.1 ▸ hge)
    rw [h.2.1, hdepth]
    exact .inl rfl
  entered h hlt := by
    rw [h.2.1] at hlt
    rw [h.2.2]
    exact ⟨Nat.lt_of_lt_of_le hlt hm, hlt, h.2.1, rfl⟩
  left h h' := by
    refine ⟨(Nat.sub_le _ 1).trans h'.1, h'.2.1, ?_⟩
    rw [h.2.2, h'.2.2]
    rfl

theorem sameButLimit_of_state {m m' : Nat} {hm : m ≤ m'} {run run' : Evaluation}
    (houtcome : run.outcome = run'.outcome)
    (h : (limitCoupling m m' hm).state () run.progress run'.progress) :
    run.SameButLimit run' := by
  have hcontext : run'.context = { run.context with limit := m' } :=
    congrArg Progress.context h.2.2
  exact ⟨houtcome, by rw [hcontext], by rw [hcontext], by rw [hcontext]⟩

/-- With a larger limit, an evaluation that did not fail at the smaller one ends in the same way. An
evaluation that ends with the larger limit ends with the smaller one, in the same way or by failing
there. -/
theorem evaluation_limit_monotone (e : Expr) (vars : Table Float) (functions : Table Function)
    (depth m m' : Nat) (hm : m ≤ m') (hdepth : depth ≤ m) :
    (∀ run, Ends e ⟨vars, functions, depth, m⟩ run → run.outcome ≠ .error (.callTooDeep m m) →
      ∃ run', Ends e ⟨vars, functions, depth, m'⟩ run' ∧ run.SameButLimit run') ∧
    ∀ run', Ends e ⟨vars, functions, depth, m'⟩ run' →
      ∃ run, Ends e ⟨vars, functions, depth, m⟩ run ∧
        (run.SameButLimit run' ∨ run.outcome = .error (.callTooDeep m m)) := by
  have hstart : (limitCoupling m m' hm).state () ⟨⟨vars, functions, depth, m⟩, []⟩
      ⟨⟨vars, functions, depth, m'⟩, []⟩ := ⟨hdepth, rfl, rfl⟩
  constructor
  · intro run hrun hne
    rcases (limitCoupling m m' hm).ends_right trivial hstart hrun with
      ⟨error, houtcome, rfl⟩ | ⟨run', hrun', houtcome, hstate⟩
    · exact absurd houtcome hne
    · exact ⟨run', hrun', sameButLimit_of_state houtcome hstate⟩
  · intro run' hrun'
    obtain ⟨run, hrun, hend⟩ := (limitCoupling m m' hm).ends_left trivial hstart hrun'
    refine ⟨run, hrun, ?_⟩
    rcases hend with ⟨error, houtcome, rfl⟩ | ⟨houtcome, hstate⟩
    · exact .inr houtcome
    · exact .inl (sameButLimit_of_state houtcome hstate)

/-- A function that calls another one, so that a call of it goes two levels down. -/
def outerFunctions : Table Function :=
  .ofList [("outer", ⟨"outer", [], .call "inner" []⟩), ("inner", ⟨"inner", [], .literal 1⟩)]

theorem evaluation_limit_monotone_outer :
    (0 ≤ 2 ∧ 2 ≤ 3 ∧ ∃ run', Ends (.call "outer" []) ⟨∅, outerFunctions, 0, 3⟩ run' ∧
      run'.outcome = .ok 1) ∧
    (0 ≤ 1 ∧ 1 ≤ 2 ∧ ∃ run, Ends (.call "outer" []) ⟨∅, outerFunctions, 0, 1⟩ run ∧
      run.outcome = .error (.callTooDeep 1 1)) := by
  have hrun : Ends (.call "outer" []) ⟨∅, outerFunctions, 0, 2⟩
      ⟨.ok 1, ⟨∅, outerFunctions, 0, 2⟩, [.called "outer" 1, .called "inner" 2]⟩ := ⟨3, rfl⟩
  have hlow : Ends (.call "outer" []) ⟨∅, outerFunctions, 0, 1⟩
      ⟨.error (.callTooDeep 1 1), ⟨∅, outerFunctions, 0, 1⟩, [.called "outer" 1]⟩ := ⟨3, rfl⟩
  refine ⟨⟨by decide, by decide, ?_⟩, by decide, by decide, ?_⟩
  · have hup := (evaluation_limit_monotone (.call "outer" []) ∅ outerFunctions 0 2 3 (by decide)
      (by decide)).1 _ hrun (by simp)
    obtain ⟨run', hrun', hsame⟩ := hup
    exact ⟨run', hrun', hsame.outcome.symm⟩
  · have hdown := (evaluation_limit_monotone (.call "outer" []) ∅ outerFunctions 0 1 2 (by decide)
      (by decide)).2 _ hrun
    obtain ⟨run, hends, _⟩ := hdown
    exact ⟨run, hends, by rw [hends.unique hlow]⟩

end Reckoner
