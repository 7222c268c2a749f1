import Reckoner.Proofs.CallLimit
import Reckoner.Proofs.Termination
import Reckoner.Proofs.Transcript

/-! The built-in checks. Each of them ends whatever the limit is, since only one has a loop, which
counts to a hundred and calls nothing. Several checks are run one after another in contexts of their
own, so together they print what each prints alone, up to the first number that has no check. -/

namespace Reckoner

/-! Expressions without loops -/

namespace Expr

variable {op name : String} {x l r t e body : Expr} {es : List Expr} {params : List String}

theorem loopFree_iff (h : ∀ op left right body, e ≠ .loop op left right body) :
    e.LoopFree ↔ ∀ x ∈ e.parts, x.LoopFree :=
  ⟨fun he _ hx => he.part hx, .of_parts h⟩

@[simp] theorem loopFree_literal (value : Float) : (literal value).LoopFree :=
  .of_parts (by simp) (by simp)

@[simp] theorem loopFree_var (name : String) : (var name).LoopFree := .of_parts (by simp) (by simp)

@[simp] theorem loopFree_binary : (binary op l r).LoopFree ↔ l.LoopFree ∧ r.LoopFree :=
  (loopFree_iff (by simp)).trans (by simp)

@[simp] theorem loopFree_assign : (assign name x).LoopFree ↔ x.LoopFree :=
  (loopFree_iff (by simp)).trans (by simp)

@[simp] theorem loopFree_branch :
    (branch op l r t e).LoopFree ↔ l.LoopFree ∧ r.LoopFree ∧ t.LoopFree ∧ e.LoopFree :=
  (loopFree_iff (by simp)).trans (by simp)

@[simp] theorem loopFree_block : (block es).LoopFree ↔ ∀ x ∈ es, x.LoopFree :=
  loopFree_iff (by simp)

@[simp] theorem loopFree_declare : (declare name params body).LoopFree ↔ body.LoopFree :=
  (loopFree_iff (by simp)).trans (by simp)

@[simp] theorem loopFree_call : (call name es).LoopFree ↔ ∀ x ∈ es, x.LoopFree :=
  loopFree_iff (by simp)

end Expr

/-! Programs that end -/

theorem exists_ends_of_loopFree {e : Expr} {c : Context} (he : e.LoopFree) (hc : c.LoopFree) :
    ∃ run, Ends e c run ∧ run.context.LoopFree := by
  have h := meaning_halts he c.depth c.limit ⟨c, []⟩ ⟨rfl, rfl, hc⟩
  cases hmeaning : meaning e ⟨c, []⟩ with
  | value x after =>
    rw [hmeaning] at h
    exact ⟨after.finish (.ok x), ends_finish hmeaning, h.2.2.2⟩
  | failure error after =>
    rw [hmeaning] at h
    exact ⟨after.finish (.error error), ends_finish hmeaning, h.2.2.2⟩
  | outOfFuel =>
    rw [hmeaning] at h
    exact h.elim

theorem Program.exists_evaluates_of_loopFree {program : Program} {c : Context}
    (h : ∀ e ∈ program, e.LoopFree) (hc : c.LoopFree) : ∃ runs, program.Evaluates c runs := by
  induction program generalizing c with
  | nil => exact ⟨[], .nil⟩
  | cons e rest ih =>
    obtain ⟨run, hrun, hcontext⟩ := exists_ends_of_loopFree (h e (by simp)) hc
    obtain ⟨runs, hruns⟩ := ih (fun x hx => h x (by simp [hx])) hcontext
    exact ⟨run :: runs, .cons hrun hruns⟩

theorem Context.loopFree_withLimit (limit : Nat) : (withLimit limit).LoopFree := by
  intro name f hf
  simp [withLimit] at hf

/-- What ends with no calls allowed, and does not fail for that, ends with every limit. -/
theorem exists_ends_of_limit_zero {e : Expr} {run : Evaluation} (h : Ends e (.withLimit 0) run)
    (hcalls : run.outcome ≠ .error (.callTooDeep 0 0)) (limit : Nat) :
    ∃ run', Ends e (.withLimit limit) run' := by
  have hstart : (limitCoupling 0 limit (Nat.zero_le limit)).state () ⟨.withLimit 0, []⟩
      ⟨.withLimit limit, []⟩ := ⟨Nat.le_refl 0, rfl, rfl⟩
  rcases (limitCoupling 0 limit _).ends_right trivial hstart h with
    ⟨error, houtcome, rfl⟩ | ⟨run', hrun', -, -⟩
  · exact absurd houtcome hcalls
  · exact ⟨run', hrun'⟩

namespace Check

theorem whileLoop_evaluates (limit : Nat) :
    ∃ runs, whileLoop.program.Evaluates (.withLimit limit) runs := by
  obtain ⟨e, he⟩ : ∃ e, whileLoop.program = [e] := ⟨_, rfl⟩
  have hsum : (whileLoop.program.map fun e => (evaluate 110 e (.withLimit 0)).map
      fun run => run.outcome.toOption) = [some (some 4950)] := by
    decide +kernel
  rw [he, List.map_singleton, List.singleton_inj] at hsum
  obtain ⟨run, hrun, houtcome⟩ := Option.map_eq_some_iff.mp hsum
  have hcalls : run.outcome ≠ .error (.callTooDeep 0 0) := by
    intro herror
    rw [herror] at houtcome
    cases houtcome
  obtain ⟨run', hrun'⟩ := exists_ends_of_limit_zero ⟨110, hrun⟩ hcalls limit
  exact ⟨[run'], he ▸ .cons hrun' .nil⟩

theorem loopFree_of_mem {check : Check} (h : check ∈ all) :
    check = whileLoop ∨ ∀ e ∈ check.program, e.LoopFree := by
  simp only [all, List.mem_cons, List.not_mem_nil, or_false] at h
  rcases h with rfl | rfl | rfl | rfl | rfl | rfl | rfl | rfl | rfl | rfl | rfl | rfl <;>
    simp [literals, arithmetic, badOperator, assignments, unboundVariable, branching, block,
      functionCall, undefinedFunction, arityMismatch, recursion, circleArea, declareAdd]

theorem exists_evaluates {check : Check} (h : check ∈ all) (limit : Nat) :
    ∃ runs, check.program.Evaluates (.withLimit limit) runs := by
  rcases loopFree_of_mem h with rfl | hloopFree
  · exact whileLoop_evaluates limit
  · exact Program.exists_evaluates_of_loopFree hloopFree (Context.loopFree_withLimit limit)

def isNumber (n : Nat) : Bool := 1 ≤ n && n ≤ 12

theorem exists_numbered {n : Nat} (h : isNumber n = true) :
    ∃ check ∈ all, numbered? n = some check := by
  simp only [isNumber, Bool.and_eq_true, decide_eq_true_eq] at h
  obtain ⟨index, rfl⟩ : ∃ k, n = k + 1 := ⟨n - 1, by omega⟩
  have hindex : index < all.length := by
    simp only [all, List.length_cons, List.length_nil]
    omega
  exact ⟨all[index], List.getElem_mem hindex, List.getElem?_eq_getElem hindex⟩

theorem numbered?_eq_none {n : Nat} (h : isNumber n = false) : numbered? n = none := by
  cases n with
  | zero => rfl
  | succ index =>
    simp only [isNumber, Bool.and_eq_false_iff, decide_eq_false_iff_not] at h
    refine List.getElem?_eq_none ?_
    simp only [all, List.length_cons, List.length_nil]
    omega

end Check

/-! Commands -/

namespace CommandLine

variable {fuel limit : Nat} {numbers : List Nat} {execution : Execution}

theorem runChecks_of_le {m : Nat} (hle : fuel ≤ m)
    (h : runChecks fuel limit numbers = some execution) :
    runChecks m limit numbers = some execution := by
  induction numbers generalizing execution with
  | nil => exact h
  | cons number rest ih =>
    unfold runChecks at h ⊢
    cases hcheck : Check.numbered? number with
    | none =>
      rw [hcheck] at h
      exact h
    | some check =>
      rw [hcheck] at h
      obtain ⟨run, hrun, h⟩ := Option.bind_eq_some_iff.mp h
      obtain ⟨others, hothers, h⟩ := Option.bind_eq_some_iff.mp h
      simp only [Program.run_of_le hle hrun, ih hothers]
      exact h

def noCheck (n : Nat) : Failure :=
  ⟨"no check numbered " ++ toString n ++ " (expected 1..=12)", none⟩

theorem lines_noCheck (n : Nat) :
    (noCheck n).lines = ["Error: no check numbered " ++ toString n ++ " (expected 1..=12)"] := by
  have hstart : "Error: no check numbered " = "Error: " ++ "no check numbered " := rfl
  unfold Failure.lines noCheck
  rw [splitOn_of_not_mem, hstart]
  · simp only [String.append_assoc]
  · simp [not_mem_toDigits]

/-- An execution that is made of others, one after another, and has this failure. -/
structure Joined (executions : List Execution) (failure : Option Failure) (execution : Execution) :
    Prop where
  output_eq : execution.output = String.join (executions.map Execution.output)
  log_eq : execution.log = executions.flatMap Execution.log
  failure_eq : execution.failure = failure

theorem runChecks_noCheck {n : Nat} (h : Check.isNumber n = false) (rest : List Nat) :
    runChecks fuel limit (n :: rest) = some ⟨"", [], some (noCheck n)⟩ := by
  have hcount : toString Check.all.length = "12" := rfl
  have hexpected : " (expected " ++ (("1..=" ++ "12") ++ ")") = " (expected 1..=12)" := rfl
  unfold runChecks noCheck
  rw [Check.numbered?_eq_none h, ← hexpected]
  simp only [hcount, String.append_assoc]

theorem runChecks_cons {n : Nat} {check : Check} {run : Program.Run} {rest : List Nat}
    (hcheck : Check.numbered? n = some check)
    (hrun : check.program.run fuel (.withLimit limit) = some run)
    (h : runChecks fuel limit rest = some execution) :
    runChecks fuel limit (n :: rest) =
      some ⟨check.header n ++ run.output ++ "\n" ++ execution.output,
        run.events.map .event ++ execution.log, execution.failure⟩ := by
  simp only [runChecks, hcheck, hrun, h]
  rfl

/-- Checks one after another print and log what each does alone, up to the first number without one. -/
theorem exists_runChecks (limit : Nat) (numbers : List Nat) :
    ∃ fuel execution alone, runChecks fuel limit numbers = some execution ∧
      List.Forall₂ (fun n single => runChecks fuel limit [n] = some single)
        (numbers.takeWhile Check.isNumber) alone ∧
      Joined alone ((numbers.dropWhile Check.isNumber).head?.map noCheck) execution := by
  induction numbers with
  | nil => exact ⟨0, _, [], rfl, .nil, rfl, rfl, rfl⟩
  | cons number rest ih =>
    cases hnumber : Check.isNumber number with
    | false =>
      rw [List.takeWhile_cons_of_neg (by simp [hnumber]), List.dropWhile_cons_of_neg (by simp [hnumber])]
      exact ⟨0, _, [], runChecks_noCheck hnumber rest, .nil, rfl, rfl, rfl⟩
    | true =>
      rw [List.takeWhile_cons_of_pos hnumber, List.dropWhile_cons_of_pos hnumber]
      obtain ⟨fuel, others, alone, hothers, halone, hjoined⟩ := ih
      obtain ⟨check, hmem, hcheck⟩ := Check.exists_numbered hnumber
      obtain ⟨runs, hruns⟩ := Check.exists_evaluates hmem limit
      obtain ⟨fuel', hfuel'⟩ := Program.exists_run hruns
      obtain ⟨run, hrun⟩ := Option.isSome_iff_exists.mp hfuel'
      -- both parts have to end with the same fuel
      have hrun := Program.run_of_le (Nat.le_max_right fuel fuel') hrun
      have hothers := runChecks_of_le (Nat.le_max_left fuel fuel') hothers
      have halone := halone.imp fun _ _ => runChecks_of_le (Nat.le_max_left fuel fuel')
      refine ⟨max fuel fuel', _, _, runChecks_cons hcheck hrun hothers,
        .cons (runChecks_cons hcheck hrun rfl) halone, ?_, ?_, hjoined.failure_eq⟩
      · simp only [hjoined.output_eq, List.map_cons, String.join_cons, String.append_empty]
      · simp only [hjoined.log_eq, List.flatMap_cons, List.append_nil]

/-- The command ends, and in this way only. -/
def EndsAs (read : String → Except FileError ByteArray) (arguments : Arguments)
    (execution : Execution) : Prop :=
  ∀ execution', Executes read arguments execution' ↔ execution' = execution

variable {read : String → Except FileError ByteArray} {verbosity : Nat}

theorem executes_checks_iff (h : numbers ≠ []) :
    Executes read ⟨verbosity, limit, .checks numbers⟩ execution ↔
      ∃ fuel, runChecks fuel limit numbers = some execution := by
  have hnumbers : numbers.isEmpty = false := by simp [h]
  unfold Executes execute checks
  simp only [hnumbers]
  rfl

theorem endsAs_checks (hne : numbers ≠ []) (h : runChecks fuel limit numbers = some execution) :
    EndsAs read ⟨verbosity, limit, .checks numbers⟩ execution := by
  intro execution'
  rw [executes_checks_iff hne]
  constructor
  · rintro ⟨fuel', h'⟩
    have h := runChecks_of_le (Nat.le_max_left fuel fuel') h
    have h' := runChecks_of_le (Nat.le_max_right fuel fuel') h'
    exact Option.some.inj (h'.symm.trans h)
  · rintro rfl
    exact ⟨fuel, h⟩

end CommandLine

open CommandLine in
/-- Checks are independent. The command always ends; it prints and logs what the checks up to the first
number without one do alone, and it fails exactly if there is such a number, which it then names. Whether
expressions fail makes no difference to that. Without numbers all checks are run. -/
theorem checks_are_independent (read : String → Except FileError ByteArray)
    (verbosity limit : Nat) :
    (∀ numbers, numbers ≠ [] →
      let first := numbers.takeWhile fun n => 1 ≤ n && n ≤ 12
      ∃ execution alone, EndsAs read ⟨verbosity, limit, .checks numbers⟩ execution ∧
        List.Forall₂ (fun n single => EndsAs read ⟨verbosity, limit, .checks [n]⟩ single)
          first alone ∧
        (execution.report verbosity).output =
          String.join (alone.map fun single => (single.report verbosity).output) ∧
        (execution.report verbosity).log =
          alone.flatMap (fun single => (single.report verbosity).log) ∧
        ((execution.report verbosity).code = 0 ↔ first = numbers) ∧
        ∀ n rest, numbers = first ++ n :: rest → (execution.report verbosity).code = 1 ∧
          (execution.report verbosity).errors =
            ["Error: no check numbered " ++ toString n ++ " (expected 1..=12)"]) ∧
    ∀ execution, Executes read ⟨verbosity, limit, .checks []⟩ execution ↔
      Executes read ⟨verbosity, limit, .checks [1, 2, 3, 4, 5, 6, 7, 8, 9, 10, 11, 12]⟩ execution := by
  refine ⟨fun numbers hne => ?_, fun execution => Iff.rfl⟩
  obtain ⟨fuel, execution, alone, hexecution, halone, houtput, hlog, hfailure⟩ :=
    exists_runChecks limit numbers
  have hsplit : numbers.takeWhile Check.isNumber ++ numbers.dropWhile Check.isNumber = numbers :=
    List.takeWhile_append_dropWhile
  refine ⟨execution, alone, endsAs_checks hne hexecution,
    halone.imp fun _ _ => endsAs_checks (by simp), houtput, ?_, ?_, ?_⟩
  · simp only [Execution.report, hlog, List.filter_flatMap, List.map_flatMap]
  · have hcode : (execution.report verbosity).code = 0 ↔ numbers.dropWhile Check.isNumber = [] := by
      cases hrest : numbers.dropWhile Check.isNumber <;> simp [Execution.report, hfailure, hrest]
    rw [hcode]
    constructor
    · intro hrest
      rw [hrest, List.append_nil] at hsplit
      exact hsplit
    · intro hfirst
      exact List.append_cancel_left ((hsplit.trans hfirst.symm).trans (List.append_nil _).symm)
  · intro n rest hnumbers
    have hrest : numbers.dropWhile Check.isNumber = n :: rest :=
      List.append_cancel_left (hsplit.trans hnumbers)
    rw [hrest] at hfailure
    simp [Execution.report, hfailure, lines_noCheck]

open CommandLine in
/-- A check that fails, the same check once more, and a number without one. -/
theorem checks_are_independent_stopping :
    let text := "# check5: unbound variable\npi\n[err] variable 'pi' is not defined\n\n"
    ∃ execution, EndsAs (fun _ => .error .notFound) ⟨0, 5, .checks [5, 5, 0, 12]⟩ execution ∧
      (execution.report 0).output = text ++ text ∧ (execution.report 0).code = 1 ∧
      (execution.report 0).errors = ["Error: no check numbered 0 (expected 1..=12)"] := by
  intro text
  obtain ⟨execution, alone, hends, halone, houtput, -, -, hstop⟩ :=
    (checks_are_independent (fun _ => .error .notFound) 0 5).1 [5, 5, 0, 12] (by simp)
  have hfirst : [5, 5, 0, 12].takeWhile (fun n => 1 ≤ n && n ≤ 12) = [5, 5] := by decide
  rw [hfirst] at halone
  obtain ⟨first, _, hsingle, hrest, rfl⟩ := List.forall₂_cons_left_iff.mp halone
  obtain ⟨second, _, hsecond, hnone, rfl⟩ := List.forall₂_cons_left_iff.mp hrest
  obtain rfl := List.forall₂_nil_left_iff.mp hnone
  have hprinted : (runChecks 100 5 [5]).map (fun single => single.output) = some text := by
    decide +kernel
  obtain ⟨single, hrun, htext⟩ := Option.map_eq_some_iff.mp hprinted
  obtain rfl := (hsingle single).mp ⟨100, hrun⟩
  obtain rfl := (hsecond single).mp ⟨100, hrun⟩
  refine ⟨execution, hends, ?_, hstop 0 [12] (by rw [hfirst]; rfl)⟩
  rw [houtput]
  simp only [Execution.report, List.map_cons, List.map_nil, htext, String.join_cons]
  rfl

end Reckoner
