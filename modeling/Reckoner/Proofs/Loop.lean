import Reckoner.Proofs.Meaning
import Reckoner.Proofs.Trace

/-! What a loop does, round by round. In a round the test holds and the body has a value, each of them
evaluated in the context that was left before it. A loop that ends does so after some number of rounds,
in one of three ways, and its value is the one of the last round. -/

namespace Reckoner

open EvalM Filter

variable {α : Type}

/-! Loops without fuel -/

theorem eval_below_meaning (n : Nat) (e : Expr) : Below (eval n e) (meaning e) := by
  intro p
  by_cases hout : eval n e p = .outOfFuel
  · exact .inl hout
  · exact .inr (meaning_eq_eval hout).symm

theorem Settles.repeatWhile {test : Nat → EvalM Bool} {test' : EvalM Bool} {x : Nat → EvalM α}
    {y : EvalM α} (ht : Settles test test') (hx : Settles x y) (count : Nat) (last : α) :
    Settles (fun n => repeatWhile (test n) (x n) count last) (repeatWhile test' y count last) := by
  induction count generalizing last with
  | zero => exact const _
  | succ count ih =>
    refine bind ht fun holds => ?_
    cases holds with
    | true => exact bind hx ih
    | false => exact const _

noncomputable def Condition.meaning (test : Condition) : EvalM Bool :=
  compareBy test.op (Reckoner.meaning test.left) (Reckoner.meaning test.right)

theorem test_below_meaning (n : Nat) (test : Condition) :
    Below (compareBy test.op (eval n test.left) (eval n test.right)) test.meaning :=
  .compareBy test.op (eval_below_meaning n test.left) (eval_below_meaning n test.right)

theorem eval_loop_settles (test : Condition) (body : Expr) :
    Settles (fun n => repeatWhile (compareBy test.op (eval n test.left) (eval n test.right))
      (eval n body) n 0) (meaning (.whileLoop test body)) := fun p =>
  (tendsto_add_atTop_nat 1).eventually (eval_settles (.whileLoop test body) p)

/-- A loop is what repeating its body settles on as more and more rounds are allowed. -/
theorem loop_settles (test : Condition) (body : Expr) :
    Settles (fun count => repeatWhile test.meaning (meaning body) count 0)
      (meaning (.whileLoop test body)) := by
  intro p
  cases hmeaning : meaning (.whileLoop test body) p with
  | outOfFuel =>
    refine .of_forall fun count => ?_
    -- a loop that ends within so many rounds would end with enough fuel
    by_contra hends
    have hrounds := Settles.repeatWhile
      (.compareBy test.op (eval_settles test.left) (eval_settles test.right))
      (eval_settles body) count 0 p
    obtain ⟨n, hn, hrounds, hcount⟩ := ((eval_loop_settles test body p).and
      (hrounds.and (eventually_ge_atTop count))).exists
    rcases Below.repeatWhile (.refl (compareBy test.op (eval n test.left) (eval n test.right)))
      (.refl (eval n body)) hcount 0 p with hout | heq
    · exact hends (hrounds.symm.trans hout)
    · exact hends (hrounds.symm.trans (heq.trans (hn.trans hmeaning)))
  | value x after | failure error after =>
    obtain ⟨n, hn⟩ := (eval_loop_settles test body p).exists
    filter_upwards [eventually_ge_atTop n] with count hcount
    rcases Below.repeatWhile (test_below_meaning n test) (eval_below_meaning n body) hcount 0 p with
      hout | heq
    · cases hout.symm.trans (hn.trans hmeaning)
    · exact heq.symm.trans (hn.trans hmeaning)

theorem meaning_loop_congr {test test' : Condition} {body body' : Expr}
    (ht : test.meaning = test'.meaning) (hbody : meaning body = meaning body') :
    meaning (.whileLoop test body) = meaning (.whileLoop test' body') := by
  have h := loop_settles test body
  rw [ht, hbody] at h
  exact h.unique (loop_settles test' body')

/-! Rules -/

/-- How a test ends. The operator is looked up first, and the operands are evaluated from left to
right. -/
inductive TestEnds (test : Condition) (c : Context) :
    Except EvalError Bool → Context → List Event → Prop
  | unknown : Comparison.ofSymbol? test.op = none →
      TestEnds test c (.error (.unknownOperator test.op)) c []
  | left {relation : Comparison} {error : EvalError} {c₁ : Context} {log : List Event} :
      Comparison.ofSymbol? test.op = some relation →
      Ends test.left c ⟨.error error, c₁, log⟩ → TestEnds test c (.error error) c₁ log
  | right {relation : Comparison} {x : Float} {error : EvalError} {c₁ c₂ : Context}
      {log log' : List Event} : Comparison.ofSymbol? test.op = some relation →
      Ends test.left c ⟨.ok x, c₁, log⟩ → Ends test.right c₁ ⟨.error error, c₂, log'⟩ →
      TestEnds test c (.error error) c₂ (log ++ log')
  | compared {relation : Comparison} {x y : Float} {c₁ c₂ : Context} {log log' : List Event} :
      Comparison.ofSymbol? test.op = some relation →
      Ends test.left c ⟨.ok x, c₁, log⟩ → Ends test.right c₁ ⟨.ok y, c₂, log'⟩ →
      TestEnds test c (.ok (relation.holds x y)) c₂ (log ++ log')

/-- So many rounds of a loop, one after another. The first value is the one before any of them, and
the other one is that of the last round. -/
inductive Rounds (test : Condition) (body : Expr) :
    Float → Context → Nat → Float → Context → List Event → Prop
  | nil {last : Float} {c : Context} : Rounds test body last c 0 last c []
  | cons {last x v : Float} {c c₁ c₂ c₃ : Context} {n : Nat} {log log' log'' : List Event} :
      TestEnds test c (.ok true) c₁ log → Ends body c₁ ⟨.ok x, c₂, log'⟩ →
      Rounds test body x c₂ n v c₃ log'' →
      Rounds test body last c (n + 1) v c₃ (log ++ log' ++ log'')

inductive LoopExit where
  | finished
  | testFailed
  | bodyFailed
deriving DecidableEq, Repr

/-- How a loop ends that does not go into another round. -/
inductive ExitEnds (test : Condition) (body : Expr) (last : Float) (c : Context) :
    LoopExit → Evaluation → Prop
  | finished {c₁ : Context} {log : List Event} : TestEnds test c (.ok false) c₁ log →
      ExitEnds test body last c .finished ⟨.ok last, c₁, log⟩
  | testFailed {error : EvalError} {c₁ : Context} {log : List Event} :
      TestEnds test c (.error error) c₁ log →
      ExitEnds test body last c .testFailed ⟨.error error, c₁, log⟩
  | bodyFailed {error : EvalError} {c₁ c₂ : Context} {log log' : List Event} :
      TestEnds test c (.ok true) c₁ log → Ends body c₁ ⟨.error error, c₂, log'⟩ →
      ExitEnds test body last c .bodyFailed ⟨.error error, c₂, log ++ log'⟩

/-- The rules of a loop: rounds, and what ends it after them. Without a round its value is zero. -/
inductive LoopEnds (test : Condition) (body : Expr) (c : Context) (n : Nat) (exit : LoopExit) :
    Evaluation → Prop
  | mk {v : Float} {c₁ c₂ : Context} {log log' : List Event} {outcome : Except EvalError Float} :
      Rounds test body 0 c n v c₁ log → ExitEnds test body v c₁ exit ⟨outcome, c₂, log'⟩ →
      LoopEnds test body c n exit ⟨outcome, c₂, log ++ log'⟩

theorem Outcome.ended_inj {result result' : Except EvalError α} {p p' : Progress} :
    Outcome.ended result p = .ended result' p' ↔ result = result' ∧ p = p' := by
  cases result <;> cases result' <;> simp [ended]

section Rules

variable {test : Condition} {body : Expr} {c c₁ c' c₁' : Context} {last v v' : Float} {n n' : Nat}
  {exit exit' : LoopExit} {run run' : Evaluation} {log log' : List Event}
  {result result' : Except EvalError Bool}

theorem Condition.meaning_of_none (h : Comparison.ofSymbol? test.op = none) :
    test.meaning = fail (.unknownOperator test.op) := by
  unfold Condition.meaning compareBy
  rw [h]
  rfl

theorem Condition.meaning_of_some {relation : Comparison}
    (h : Comparison.ofSymbol? test.op = some relation) :
    test.meaning = (do
      let x ← Reckoner.meaning test.left
      let y ← Reckoner.meaning test.right
      pure (relation.holds x y)) := by
  unfold Condition.meaning compareBy
  rw [h]
  rfl

theorem TestEnds.meaning_eq (h : TestEnds test c result c₁ log) (earlier : List Event) :
    test.meaning ⟨c, earlier⟩ = .ended result ⟨c₁, log.reverse ++ earlier⟩ := by
  cases h with
  | unknown hop =>
    rw [Condition.meaning_of_none hop]
    rfl
  | left hop hl =>
    rw [Condition.meaning_of_some hop]
    exact bind_of_failure (hl.meaning_eq earlier)
  | right hop hl hr =>
    rw [Condition.meaning_of_some hop, List.reverse_append, List.append_assoc]
    refine (bind_of_value (hl.meaning_eq earlier)).trans ?_
    exact bind_of_failure (hr.meaning_eq _)
  | compared hop hl hr =>
    rw [Condition.meaning_of_some hop, List.reverse_append, List.append_assoc]
    refine (bind_of_value (hl.meaning_eq earlier)).trans ?_
    exact bind_of_value (hr.meaning_eq _)

theorem exists_testEnds {p : Progress} (h : test.meaning p ≠ .outOfFuel) :
    ∃ result c₁ log, TestEnds test p.context result c₁ log := by
  cases hop : Comparison.ofSymbol? test.op with
  | none => exact ⟨_, _, _, .unknown hop⟩
  | some relation =>
    rw [Condition.meaning_of_some hop] at h
    have hleft : meaning test.left p ≠ .outOfFuel := fun hout => h (bind_of_outOfFuel hout)
    obtain ⟨⟨outcome, c₁, log⟩, hl⟩ := exists_ends hleft
    cases outcome with
    | error error => exact ⟨_, _, _, .left hop hl⟩
    | ok x =>
      have hright : meaning test.right ⟨c₁, log.reverse ++ p.events⟩ ≠ .outOfFuel := by
        intro hout
        apply h
        exact (bind_of_value (hl.meaning_eq p.events)).trans (bind_of_outOfFuel hout)
      obtain ⟨⟨outcome, c₂, log'⟩, hr⟩ := exists_ends hright
      cases outcome with
      | error error => exact ⟨_, _, _, .right hop hl hr⟩
      | ok y => exact ⟨_, _, _, .compared hop hl hr⟩

theorem TestEnds.unique (h : TestEnds test c result c₁ log)
    (h' : TestEnds test c result' c₁' log') : result = result' ∧ c₁ = c₁' ∧ log = log' := by
  have heq := (h.meaning_eq []).symm.trans (h'.meaning_eq [])
  simpa [Outcome.ended_inj] using heq

theorem ExitEnds.repeatWhile_eq (h : ExitEnds test body last c exit run) (count : Nat)
    (earlier : List Event) :
    repeatWhile test.meaning (meaning body) (count + 1) last ⟨c, earlier⟩ =
      .ended run.outcome (run.progress.after earlier) := by
  cases h with
  | finished ht => exact bind_of_value (ht.meaning_eq earlier)
  | testFailed ht => exact bind_of_failure (ht.meaning_eq earlier)
  | bodyFailed ht hbody =>
    refine (bind_of_value (ht.meaning_eq earlier)).trans ?_
    refine (bind_of_failure (hbody.meaning_eq _)).trans ?_
    simp [Outcome.ended, Evaluation.progress, Progress.after]

/-- After its rounds a loop goes on with as many fewer of them. -/
theorem Rounds.repeatWhile_eq (h : Rounds test body last c n v c₁ log) (count : Nat)
    (earlier : List Event) :
    repeatWhile test.meaning (meaning body) (count + n) last ⟨c, earlier⟩ =
      repeatWhile test.meaning (meaning body) count v ⟨c₁, log.reverse ++ earlier⟩ := by
  induction h generalizing earlier with
  | nil => rfl
  | cons ht hbody _ ih =>
    refine (bind_of_value (ht.meaning_eq earlier)).trans ?_
    refine (bind_of_value (hbody.meaning_eq _)).trans ?_
    refine (ih _).trans ?_
    simp [Evaluation.progress]

theorem LoopEnds.ends (h : LoopEnds test body c n exit run) : Ends (.whileLoop test body) c run := by
  cases h with
  | mk hrounds hexit =>
    rw [ends_iff_meaning]
    obtain ⟨count, hcount, hle⟩ := ((loop_settles test body ⟨c, []⟩).and
      (eventually_ge_atTop (n + 1))).exists
    obtain ⟨more, rfl⟩ : ∃ k, count = k + 1 + n := ⟨count - (n + 1), by omega⟩
    rw [← hcount]
    refine (hrounds.repeatWhile_eq (more + 1) []).trans ((hexit.repeatWhile_eq more _).trans ?_)
    simp [Evaluation.progress, Progress.after]

theorem ExitEnds.not_round (h : ExitEnds test body last c exit run) {x : Float} {c₂ : Context}
    (ht : TestEnds test c (.ok true) c₁ log) : ¬ Ends body c₁ ⟨.ok x, c₂, log'⟩ := by
  intro hbody
  cases h with
  | finished ht' => cases (ht.unique ht').1
  | testFailed ht' => cases (ht.unique ht').1
  | bodyFailed ht' hbody' =>
    obtain ⟨-, rfl, -⟩ := ht.unique ht'
    cases hbody.unique hbody'

/-- The way in which a loop ends that tests its condition with this result for the last time. -/
def LoopExit.ofTest : Except EvalError Bool → LoopExit
  | .ok true => .bodyFailed
  | .ok false => .finished
  | .error _ => .testFailed

theorem ExitEnds.exists_test (h : ExitEnds test body last c exit run) :
    ∃ result c₁ log, TestEnds test c result c₁ log ∧ exit = .ofTest result := by
  cases h with
  | finished ht => exact ⟨_, _, _, ht, rfl⟩
  | testFailed ht => exact ⟨_, _, _, ht, rfl⟩
  | bodyFailed ht _ => exact ⟨_, _, _, ht, rfl⟩

theorem Rounds.unique (h : Rounds test body last c n v c₁ log)
    (hexit : ExitEnds test body v c₁ exit run) (h' : Rounds test body last c n' v' c₁' log')
    (hexit' : ExitEnds test body v' c₁' exit' run') : n = n' ∧ exit = exit' := by
  induction h generalizing n' log' with
  | nil =>
    cases h' with
    | nil =>
      obtain ⟨result, _, _, ht, rfl⟩ := hexit.exists_test
      obtain ⟨result', _, _, ht', rfl⟩ := hexit'.exists_test
      rw [(ht.unique ht').1]
      exact ⟨rfl, rfl⟩
    | cons ht hbody _ => exact absurd hbody (hexit.not_round ht)
  | cons ht hbody _ ih =>
    cases h' with
    | nil => exact absurd hbody (hexit'.not_round ht)
    | cons ht' hbody' hrest' =>
      obtain ⟨-, rfl, -⟩ := ht.unique ht'
      cases hbody.unique hbody'
      obtain ⟨rfl, rfl⟩ := ih hexit hrest'
      exact ⟨rfl, rfl⟩

theorem LoopEnds.unique (h : LoopEnds test body c n exit run)
    (h' : LoopEnds test body c n' exit' run') : n = n' ∧ exit = exit' ∧ run = run' := by
  have hrun : run = run' := h.ends.unique h'.ends
  cases h with
  | mk hrounds hexit =>
    cases h' with
    | mk hrounds' hexit' =>
      obtain ⟨hn, hexit⟩ := hrounds.unique hexit hrounds' hexit'
      exact ⟨hn, hexit, hrun⟩

end Rules

/-! Tests -/

/-- Rounds with a record of the tests and of nothing else: each one, where it begins. -/
def testedRounds (fuel : Nat) (test : Condition) (body : Expr) (count : Nat) (last : Float) :
    Traced Float :=
  .repeatWhile (.noting (.begins [] (.ofCondition test))
    (.quiet (compareBy test.op (eval fuel test.left) (eval fuel test.right))))
    (.quiet (eval fuel body)) count last

def testedLoop (fuel : Nat) (test : Condition) (body : Expr) : Traced Float :=
  testedRounds fuel test body fuel 0

theorem run_testedLoop (fuel : Nat) (test : Condition) (body : Expr) :
    (testedLoop fuel test body).run = eval (fuel + 1) (.whileLoop test body) :=
  Traced.run_repeatWhile _ _ _ _

section Tests

variable {fuel count : Nat} {test : Condition} {body : Expr} {last : Float} {p : Progress}

theorem run_testedRounds_succ :
    (testedRounds fuel test body (count + 1) last).run = (do
      if ← compareBy test.op (eval fuel test.left) (eval fuel test.right) then
        let x ← eval fuel body
        (testedRounds fuel test body count x).run
      else pure last) := by
  unfold testedRounds
  simp only [Traced.run_repeatWhile, Traced.run_noting, Traced.run_quiet]
  rfl

theorem moments_testedRounds_succ :
    (testedRounds fuel test body (count + 1) last).moments p =
      .begins [] (.ofCondition test) p.context ::
        (compareBy test.op (eval fuel test.left) (eval fuel test.right) p).next fun holds q =>
          if holds then (eval fuel body q).next fun x => (testedRounds fuel test body count x).moments
          else [] := by
  unfold testedRounds
  change _ :: (compareBy test.op (eval fuel test.left) (eval fuel test.right) p).next _ = _ :: _
  congr 2
  funext holds q
  cases holds <;> rfl

theorem exists_ends_of_eval {e : Expr} (h : eval fuel e p ≠ .outOfFuel) :
    ∃ run, Ends e p.context run ∧ eval fuel e p = .ended run.outcome (run.progress.after p.events) := by
  have hmeaning := meaning_eq_eval h
  rw [← hmeaning] at h
  obtain ⟨run, hends⟩ := exists_ends h
  exact ⟨run, hends, hmeaning.symm.trans (hends.meaning_eq p.events)⟩

theorem exists_testEnds_of_eval
    (h : compareBy test.op (eval fuel test.left) (eval fuel test.right) p ≠ .outOfFuel) :
    ∃ result c₁ log, TestEnds test p.context result c₁ log ∧
      compareBy test.op (eval fuel test.left) (eval fuel test.right) p =
        .ended result ⟨c₁, log.reverse ++ p.events⟩ := by
  have hmeaning := (test_below_meaning fuel test p).resolve_left h
  rw [hmeaning] at h ⊢
  obtain ⟨result, c₁, log, ht⟩ := exists_testEnds h
  exact ⟨result, c₁, log, ht, ht.meaning_eq p.events⟩

/-- A loop that ends has rounds and an exit, and tests once more than there are rounds. -/
theorem exists_rounds (h : (testedRounds fuel test body count last).run p ≠ .outOfFuel) :
    ∃ n v c₁ log exit run, Rounds test body last p.context n v c₁ log ∧
      ExitEnds test body v c₁ exit run ∧
      ((testedRounds fuel test body count last).moments p).length = n + 1 := by
  induction count generalizing last p with
  | zero => exact absurd rfl h
  | succ count ih =>
    rw [run_testedRounds_succ] at h
    rw [moments_testedRounds_succ]
    obtain ⟨result, c₁, log, ht, htest⟩ :=
      exists_testEnds_of_eval fun hout => h (bind_of_outOfFuel hout)
    rw [htest]
    cases result with
    | error error => exact ⟨0, last, _, [], _, _, .nil, .testFailed ht, rfl⟩
    | ok holds =>
      rw [bind_of_value htest] at h
      cases holds with
      | false => exact ⟨0, last, _, [], _, _, .nil, .finished ht, rfl⟩
      | true =>
        obtain ⟨⟨outcome, c₂, log'⟩, hends, hbody⟩ :=
          exists_ends_of_eval fun hout => h (bind_of_outOfFuel hout)
        cases outcome with
        | error error =>
          refine ⟨0, last, _, [], _, _, .nil, .bodyFailed ht hends, ?_⟩
          simp only [Outcome.ended, Outcome.next, if_true, hbody, List.length_singleton]
        | ok x =>
          obtain ⟨n, v, c₃, log'', exit, run, hrounds, hexit, hcount⟩ :=
            ih fun hout => h ((bind_of_value hbody).trans hout)
          refine ⟨n + 1, v, c₃, _, exit, run, .cons ht hends hrounds, hexit, ?_⟩
          simp only [Outcome.ended, Outcome.next, if_true, hbody, List.length_cons, hcount]

theorem exists_loopEnds {run : Evaluation} {c : Context}
    (h : evaluate (fuel + 1) (.whileLoop test body) c = some run) :
    ∃ n exit, LoopEnds test body c n exit run ∧
      ((testedLoop fuel test body).moments ⟨c, []⟩).length = n + 1 := by
  have hrun : (testedLoop fuel test body).run ⟨c, []⟩ ≠ .outOfFuel := by
    rw [run_testedLoop, evaluate_eq_some_iff.mp h]
    exact Outcome.ended_ne_outOfFuel _ _
  obtain ⟨n, v, c₁, log, exit, last, hrounds, hexit, hcount⟩ := exists_rounds hrun
  have hloop := LoopEnds.mk hrounds hexit
  have hends : Ends (.whileLoop test body) c run := ⟨fuel + 1, h⟩
  rw [hends.unique hloop.ends]
  exact ⟨n, exit, hloop, hcount⟩

end Tests

/-- A loop ends exactly as its rules say: after a number of rounds, in one of three ways. Both the
number and the way are unique, and the test is evaluated once more than there are rounds. -/
theorem while_loop_rounds (test : Condition) (body : Expr) (c : Context) :
    (∀ run, Ends (.whileLoop test body) c run ↔ ∃ n exit, LoopEnds test body c n exit run) ∧
    (∀ n n' exit exit' run run', LoopEnds test body c n exit run →
      LoopEnds test body c n' exit' run' → n = n' ∧ exit = exit' ∧ run = run') ∧
    ∀ fuel, (testedLoop fuel test body).run = eval (fuel + 1) (.whileLoop test body) ∧
      ∀ n exit run, evaluate (fuel + 1) (.whileLoop test body) c = some run →
        LoopEnds test body c n exit run →
        ((testedLoop fuel test body).moments ⟨c, []⟩).length = n + 1 := by
  refine ⟨fun run => ⟨?_, ?_⟩, fun _ _ _ _ _ _ h h' => h.unique h', fun fuel => ⟨?_, ?_⟩⟩
  · rintro ⟨fuel, hfuel⟩
    obtain ⟨n, exit, hloop, -⟩ := exists_loopEnds (evaluate_of_le (Nat.le_succ fuel) hfuel)
    exact ⟨n, exit, hloop⟩
  · rintro ⟨n, exit, hloop⟩
    exact hloop.ends
  · exact run_testedLoop fuel test body
  · intro n exit run hrun hloop
    obtain ⟨n', exit', hloop', hcount⟩ := exists_loopEnds hrun
    rw [(hloop.unique hloop').1, hcount]

/-- The test counts upwards itself, so it leaves a larger number than the last round has seen. -/
theorem while_loop_rounds_counting :
    let test : Condition := ⟨"lt", .assign "i" (.binary "plus" (.var "i") (.literal 1)), .literal 3⟩
    let c := (Context.withLimit 0).define "i" 0
    ∃ run, evaluate 4 (.whileLoop test (.var "i")) c = some run ∧
      run.outcome.toOption = some 2 ∧ run.context.vars.entries = [("i", 3)] ∧
      ((testedLoop 3 test (.var "i")).moments ⟨c, []⟩).length = 3 ∧
      LoopEnds test (.var "i") c 2 .finished run := by
  intro test c
  have hseen : (evaluate 4 (.whileLoop test (.var "i")) c).map
      (fun run => (run.outcome.toOption, run.context.vars.entries)) =
        some (some 2, [("i", 3)]) := by
    decide +kernel
  have hcount : ((testedLoop 3 test (.var "i")).moments ⟨c, []⟩).length = 3 := by decide +kernel
  obtain ⟨run, hrun, hseen⟩ := Option.map_eq_some_iff.mp hseen
  obtain ⟨houtcome, hentries⟩ := Prod.ext_iff.mp hseen
  obtain ⟨hends, -, htests⟩ := while_loop_rounds test (.var "i") c
  obtain ⟨n, exit, hloop⟩ := (hends run).mp ⟨4, hrun⟩
  have hn : ((testedLoop 3 test (.var "i")).moments ⟨c, []⟩).length = n + 1 :=
    (htests 3).2 n exit run hrun hloop
  obtain rfl : n = 2 := by omega
  refine ⟨run, hrun, houtcome, hentries, hcount, ?_⟩
  cases hloop with
  | mk hrounds hexit =>
    cases hexit with
    | finished ht => exact .mk hrounds (.finished ht)
    | testFailed | bodyFailed => cases houtcome

end Reckoner
