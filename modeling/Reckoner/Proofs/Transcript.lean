import Mathlib
import Reckoner.CommandLine
import Reckoner.Expr.Encode
import Reckoner.Proofs.JsonText
import Reckoner.Proofs.Meaning

/-! A program from its file to the exit code. Every expression is evaluated once, in the context
that the one before it left, and failures are counted; what is printed is told from the evaluations
alone. -/

namespace Reckoner

/-! Numbers with two decimals -/

namespace Number

/-- The text is a sign and a whole number of hundredths, the nearest one to the double, and the even
one if two are as near. -/
def ShowsCents (x : Float) (text : String) : Prop :=
  ∃ cents : Nat,
    text = (if isNegative x then "-" else "") ++ toString (cents / 100) ++ "." ++
      toString (cents % 100 / 10) ++ toString (cents % 10) ∧
    |(cents : ℚ) - 100 * (toFraction (magnitude x)).value| ≤ 1 / 2 ∧
    (cents % 2 = 1 → |(cents : ℚ) - 100 * (toFraction (magnitude x)).value| < 1 / 2)

theorem showsCents_formatCents {x : Float} (h : x.isFinite = true) :
    ShowsCents x (formatCents x) := by
  rw [isFinite_iff] at h
  have hden : 0 < ((toFraction (magnitude x)).scale 10 2).den :=
    Fraction.scale_den_pos (toFraction_den_pos _) (by decide) 2
  have hvalue : ((toFraction (magnitude x)).scale 10 2).value =
      100 * (toFraction (magnitude x)).value := by
    rw [Fraction.value_scale _ (by decide)]
    norm_num
    ring
  refine ⟨((toFraction (magnitude x)).scale 10 2).round, ?_, ?_, ?_⟩
  · simp only [formatCents, if_pos h]
    rw [Nat.mod_mod_of_dvd _ (by decide : 10 ∣ 100)]
  · rw [← hvalue]
    exact Fraction.round_near hden
  · rw [← hvalue]
    exact Fraction.round_odd hden

end Number

/-! Programs -/

namespace Program

/-- Each expression is evaluated once, in the context that the one before it left. -/
inductive Evaluates : Context → Program → List Evaluation → Prop
  | nil {c : Context} : Evaluates c [] []
  | cons {c : Context} {e : Expr} {rest : Program} {run : Evaluation} {runs : List Evaluation} :
      Ends e c run → Evaluates run.context rest runs → Evaluates c (e :: rest) (run :: runs)

def transcript (program : Program) (runs : List Evaluation) : String :=
  String.join (program.zipWith (fun e run => e.text ++ "\n" ++ (match run.outcome with
    | .ok x => "=> " ++ Number.formatCents x
    | .error error => "[err] " ++ error.message) ++ "\n") runs)

def failures (runs : List Evaluation) : Nat :=
  runs.countP fun run => match run.outcome with
    | .ok _ => false
    | .error _ => true

variable {c : Context} {program p q : Program} {runs runs' : List Evaluation}

theorem Evaluates.unique (h : Evaluates c program runs) (h' : Evaluates c program runs') :
    runs = runs' := by
  induction h generalizing runs' with
  | nil =>
    cases h'
    rfl
  | cons he _ ih =>
    cases h' with
    | cons he' hrest' =>
      cases he.unique he'
      rw [ih hrest']

theorem Evaluates.length_eq (h : Evaluates c program runs) : program.length = runs.length := by
  induction h with
  | nil => rfl
  | cons _ _ ih => rw [List.length_cons, List.length_cons, ih]

theorem Evaluates.append_inv (h : Evaluates c (p ++ q) runs) :
    ∃ first second, runs = first ++ second ∧ Evaluates c p first := by
  induction p generalizing c runs with
  | nil => exact ⟨[], runs, rfl, .nil⟩
  | cons e p ih =>
    cases h with
    | @cons _ _ _ run _ he hrest =>
      obtain ⟨first, second, rfl, hfirst⟩ := ih hrest
      exact ⟨run :: first, second, rfl, .cons he hfirst⟩

theorem transcript_append (h : p.length = runs.length) :
    transcript (p ++ q) (runs ++ runs') = transcript p runs ++ transcript q runs' := by
  unfold transcript
  rw [List.zipWith_append h, String.join_append]

theorem run_of_le {n m : Nat} (hnm : n ≤ m) {r : Run} (h : run n c program = some r) :
    run m c program = some r := by
  induction program generalizing c r with
  | nil => exact h
  | cons e rest ih =>
    obtain ⟨first, hfirst, h⟩ := Option.bind_eq_some_iff.mp h
    obtain ⟨others, hothers, h⟩ := Option.bind_eq_some_iff.mp h
    unfold run
    rw [evaluate_of_le hnm hfirst]
    simp only [Option.bind_eq_bind, Option.bind_some, ih hothers]
    exact h

theorem exists_run (h : Evaluates c program runs) : ∃ fuel, (run fuel c program).isSome := by
  induction h with
  | nil => exact ⟨0, rfl⟩
  | cons he _ ih =>
    obtain ⟨n, hn⟩ := he
    obtain ⟨m, hm⟩ := ih
    obtain ⟨others, hothers⟩ := Option.isSome_iff_exists.mp hm
    refine ⟨max n m, ?_⟩
    unfold run
    rw [evaluate_of_le (Nat.le_max_left n m) hn]
    simp [run_of_le (Nat.le_max_right n m) hothers]

theorem evaluates_of_run {fuel : Nat} {r : Run} (h : run fuel c program = some r) :
    ∃ runs, Evaluates c program runs ∧ r.output = transcript program runs ∧
      r.events = runs.flatMap Evaluation.events ∧ r.failed = failures runs := by
  induction program generalizing c r with
  | nil =>
    cases h
    exact ⟨[], .nil, rfl, rfl, rfl⟩
  | cons e rest ih =>
    obtain ⟨first, hfirst, h⟩ := Option.bind_eq_some_iff.mp h
    obtain ⟨others, hothers, h⟩ := Option.bind_eq_some_iff.mp h
    cases h
    obtain ⟨runs, hruns, houtput, hevents, hfailed⟩ := ih hothers
    refine ⟨first :: runs, .cons ⟨fuel, hfirst⟩ hruns, ?_, ?_, ?_⟩
    · simp only [houtput, transcript, List.zipWith_cons_cons, String.join_cons, report]
      cases first.outcome <;> rfl
    · rw [hevents, List.flatMap_cons]
    · simp only [hfailed, failures, List.countP_cons]
      cases first.outcome <;> simp [Nat.add_comm]

theorem failures_eq_zero_iff :
    failures runs = 0 ↔ ∀ run ∈ runs, ∃ x, run.outcome = .ok x := by
  unfold failures
  rw [List.countP_eq_zero]
  refine forall₂_congr fun run _ => ?_
  cases run.outcome <;> simp

end Program

namespace CommandLine

/-! Lines of messages -/

theorem splitOnAux_of_not_mem (before rest : List Char) (h : '\n' ∉ rest) :
    String.splitOnAux (String.ofList (before ++ rest)) "\n" 0 ⟨String.utf8Len before⟩ 0 [] =
      [String.ofList (before ++ rest)] := by
  induction rest generalizing before with
  | nil =>
    have hwhole := String.extract_of_valid [] before []
    rw [String.splitOnAux, if_pos ((String.atEnd_of_valid before []).mpr rfl)]
    simpa using hwhole
  | cons ch rest ih =>
    have hne : ch ≠ '\n' := fun heq => h (heq ▸ List.mem_cons_self)
    have hend : ¬ String.Pos.Raw.atEnd (String.ofList (before ++ ch :: rest))
        ⟨String.utf8Len before⟩ = true := by
      rw [String.atEnd_of_valid]
      exact List.cons_ne_nil ch rest
    have hnext : ((String.Pos.Raw.mk (String.utf8Len before)).unoffsetBy 0).next
        (String.ofList (before ++ ch :: rest)) = ⟨String.utf8Len before + ch.utf8Size⟩ :=
      String.next_of_valid before ch rest
    have hlength : String.utf8Len (before ++ [ch]) = String.utf8Len before + ch.utf8Size := by simp
    have hlater := ih (before ++ [ch]) fun hmem => h (List.mem_cons_of_mem ch hmem)
    rw [List.append_assoc, List.singleton_append, hlength] at hlater
    rw [String.splitOnAux, if_neg hend, String.get_of_valid, if_neg, hnext]
    · exact hlater
    · intro heq
      exact hne (beq_iff_eq.mp heq)

theorem splitOn_of_not_mem {s : String} (h : '\n' ∉ s.toList) : s.splitOn "\n" = [s] := by
  have hwhole := splitOnAux_of_not_mem [] s.toList h
  rw [List.nil_append, String.ofList_toList] at hwhole
  exact hwhole

theorem not_mem_toDigits (n : Nat) : '\n' ∉ Nat.toDigits 10 n := by
  intro hmem
  have hdigit := Json.isDigit_toDigits n _ hmem
  simp at hdigit

/-! The command -/

/-- What is seen of a program that was run: its transcript, an exit code that tells whether an
expression failed, and how many did. -/
structure Tells (program : Program) (runs : List Evaluation) (report : Report) : Prop where
  output_eq : report.output = program.transcript runs
  code_eq_zero_iff : report.code = 0 ↔ ∀ run ∈ runs, ∃ x, run.outcome = .ok x
  of_failure : (∃ run ∈ runs, ∃ error, run.outcome = .error error) →
    report.code = 1 ∧ report.errors = ["Error: " ++ toString (Program.failures runs) ++ " of " ++
      toString program.length ++ " expression(s) failed"]

/-- The command ends, and did this. -/
def Executes (read : String → Except FileError ByteArray) (arguments : Arguments)
    (execution : Execution) : Prop :=
  ∃ fuel, execute fuel read arguments = some execution

section Run

variable {fuel limit : Nat} {program : Program} {runs : List Evaluation} {execution : Execution}

theorem lines_failed (failed count : Nat) :
    Failure.lines ⟨toString failed ++ " of " ++ toString count ++ " expression(s) failed", none⟩ =
      ["Error: " ++ toString failed ++ " of " ++ toString count ++ " expression(s) failed"] := by
  unfold Failure.lines
  rw [splitOn_of_not_mem]
  · simp only [String.append_assoc]
  · simp [not_mem_toDigits]

theorem tells_of_runProgram (verbosity : Nat)
    (h : runProgram fuel limit program = some execution) :
    ∃ runs, program.Evaluates (.withLimit limit) runs ∧
      Tells program runs (execution.report verbosity) ∧
      execution.log = .loaded program.length :: (runs.flatMap Evaluation.events).map .event := by
  obtain ⟨r, hr, h⟩ := Option.bind_eq_some_iff.mp h
  obtain ⟨runs, hruns, houtput, hevents, hfailed⟩ := Program.evaluates_of_run hr
  cases h
  refine ⟨runs, hruns, ⟨houtput, ?_, ?_⟩, by rw [hevents]⟩
  · rw [← Program.failures_eq_zero_iff, ← hfailed]
    by_cases hzero : r.failed = 0 <;> simp [Execution.report, hzero]
  · rintro ⟨run, hmem, error, herror⟩
    have hne : r.failed ≠ 0 := by
      rw [hfailed, Ne, Program.failures_eq_zero_iff]
      intro hall
      obtain ⟨x, hx⟩ := hall run hmem
      rw [herror] at hx
      cases hx
    rw [← hfailed]
    simp only [Execution.report, if_neg hne, Option.isSome_some, if_true, Option.map_some,
      Option.getD_some, lines_failed, and_self]

theorem exists_runProgram (h : program.Evaluates (.withLimit limit) runs) :
    ∃ fuel execution, runProgram fuel limit program = some execution := by
  obtain ⟨fuel, hfuel⟩ := Program.exists_run h
  obtain ⟨r, hr⟩ := Option.isSome_iff_exists.mp hfuel
  refine ⟨fuel, ?_⟩
  unfold runProgram
  rw [hr]
  exact ⟨_, rfl⟩

end Run

section File

variable {read : String → Except FileError ByteArray} {file text : String}
  {fuel limit verbosity : Nat}

theorem fromUTF8?_toUTF8 (text : String) : String.fromUTF8? text.toUTF8 = some text := by
  have hvalid : text.toUTF8.IsValidUTF8 := text.isValidUTF8
  rw [String.fromUTF8?, dif_pos hvalid]
  rfl

theorem execute_of_parse_ok (hread : read file = .ok text.toUTF8) {program : Program}
    (h : Program.parse text = .ok program) :
    execute fuel read ⟨verbosity, limit, .run file⟩ = runProgram fuel limit program := by
  simp only [execute, runFile, hread, fromUTF8?_toUTF8, h]

theorem exists_execute_of_parse_error (hread : read file = .ok text.toUTF8) {error : ProgramError}
    (h : Program.parse text = .error error) :
    ∃ failure, ∀ verbosity limit fuel,
      execute fuel read ⟨verbosity, limit, .run file⟩ = some ⟨"", [], some failure⟩ := by
  simp only [execute, runFile, hread, fromUTF8?_toUTF8, h]
  cases error <;> exact ⟨_, fun _ _ _ => rfl⟩

theorem executes_iff (hread : read file = .ok text.toUTF8) {program : Program}
    (h : Program.parse text = .ok program) {execution : Execution} :
    Executes read ⟨verbosity, limit, .run file⟩ execution ↔
      ∃ fuel, runProgram fuel limit program = some execution := by
  unfold Executes
  simp only [execute_of_parse_ok hread h]

end File

section Program

variable {fuel fuel' limit : Nat} {program more : Program} {runs : List Evaluation}
  {execution execution' : Execution}

theorem tells_of_evaluates (verbosity : Nat)
    (hruns : program.Evaluates (.withLimit limit) runs)
    (h : runProgram fuel limit program = some execution) :
    Tells program runs (execution.report verbosity) ∧
      execution.log = .loaded program.length :: (runs.flatMap Evaluation.events).map .event := by
  obtain ⟨runs', hruns', htells⟩ := tells_of_runProgram verbosity h
  rwa [hruns.unique hruns']

/-- An initial part of a program ends if the whole does, and prints what the whole prints first. -/
theorem output_append (h : runProgram fuel' limit (program ++ more) = some execution') :
    ∃ fuel execution rest, runProgram fuel limit program = some execution ∧
      execution'.output = execution.output ++ rest := by
  obtain ⟨runs', hruns', htells', -⟩ := tells_of_runProgram 0 h
  obtain ⟨first, second, rfl, hfirst⟩ := hruns'.append_inv
  obtain ⟨fuel, execution, hexecution⟩ := exists_runProgram hfirst
  have houtput := (tells_of_evaluates 0 hfirst hexecution).1.output_eq
  have houtput' := htells'.output_eq
  rw [Program.transcript_append hfirst.length_eq, ← houtput] at houtput'
  exact ⟨fuel, execution, _, hexecution, houtput'⟩

end Program

end CommandLine

open CommandLine in
/-- The command that runs the program of a file. A text that holds no program is refused before
anything is evaluated. A program is told whole: its command ends iff every evaluation does, it
shows what those evaluations came to, and its output starts with that of any initial part of it. -/
theorem run_command_transcript (read : String → Except FileError ByteArray)
    (verbosity limit : Nat) {file text : String} (hread : read file = .ok text.toUTF8) :
    (∀ error, Program.parse text = .error error →
      ∃ execution, (∀ fuel, execute fuel read ⟨verbosity, limit, .run file⟩ = some execution) ∧
        execution.log = [] ∧ (execution.report verbosity).output = "" ∧
        (execution.report verbosity).code = 1) ∧
    (∀ program, Program.parse text = .ok program →
      ((∃ execution, Executes read ⟨verbosity, limit, .run file⟩ execution) ↔
        ∃ runs, program.Evaluates (.withLimit limit) runs) ∧
      (∀ runs execution, program.Evaluates (.withLimit limit) runs →
        Executes read ⟨verbosity, limit, .run file⟩ execution →
        Tells program runs (execution.report verbosity) ∧
          execution.log =
            .loaded program.length :: (runs.flatMap Evaluation.events).map .event) ∧
      (∀ longer text' more execution', read longer = .ok text'.toUTF8 →
        Program.parse text' = .ok (program ++ more) →
        Executes read ⟨verbosity, limit, .run longer⟩ execution' →
        ∃ execution rest, Executes read ⟨verbosity, limit, .run file⟩ execution ∧
          (execution'.report verbosity).output = (execution.report verbosity).output ++ rest)) ∧
    ∀ x : Float, x.isFinite = true → Number.ShowsCents x (Number.formatCents x) := by
  refine ⟨fun error h => ?_, fun program h => ⟨⟨?_, ?_⟩, ?_, ?_⟩,
    fun x => Number.showsCents_formatCents⟩
  · obtain ⟨failure, hfailure⟩ := exists_execute_of_parse_error hread h
    exact ⟨_, hfailure verbosity limit, rfl, rfl, rfl⟩
  · rintro ⟨execution, hexecution⟩
    obtain ⟨fuel, hfuel⟩ := (executes_iff hread h).mp hexecution
    obtain ⟨runs, hruns, -⟩ := tells_of_runProgram verbosity hfuel
    exact ⟨runs, hruns⟩
  · rintro ⟨runs, hruns⟩
    obtain ⟨fuel, execution, hfuel⟩ := exists_runProgram hruns
    exact ⟨execution, (executes_iff hread h).mpr ⟨fuel, hfuel⟩⟩
  · intro runs execution hruns hexecution
    obtain ⟨fuel, hfuel⟩ := (executes_iff hread h).mp hexecution
    exact tells_of_evaluates verbosity hruns hfuel
  · intro longer text' more execution' hread' h' hexecution'
    obtain ⟨fuel', hfuel'⟩ := (executes_iff hread' h').mp hexecution'
    obtain ⟨fuel, execution, rest, hfuel, houtput⟩ := output_append hfuel'
    exact ⟨execution, rest, (executes_iff hread h).mpr ⟨fuel, hfuel⟩, houtput⟩

open CommandLine in
/-- The first of two expressions fails, and the other is evaluated all the same. -/
theorem run_command_transcript_of_two :
    let program : Program := [.var "x", .declare "f" [] (.var "x")]
    let text := (Json.array (program.map Expr.toJson)).compact
    let read := fun (_ : String) => (Except.ok text.toUTF8 : Except FileError ByteArray)
    Program.parse text = .ok program ∧
      ∃ execution, Executes read ⟨1, 3, .run "program"⟩ execution ∧
        (execution.report 1).output =
          "x\n[err] variable 'x' is not defined\n(def f () x)\n=> 0.00\n" ∧
        (execution.report 1).code = 1 ∧
        (execution.report 1).errors = ["Error: 1 of 2 expression(s) failed"] := by
  intro program text read
  have hparse : Program.parse text = .ok program := by
    unfold Program.parse
    rw [Json.read_compact]
    rfl
  have hread : read "program" = .ok text.toUTF8 := rfl
  obtain ⟨-, hprogram, -⟩ := run_command_transcript read 1 3 hread
  obtain ⟨hends, htells, -⟩ := hprogram program hparse
  have hruns : program.Evaluates (.withLimit 3) [_, _] :=
    .cons ⟨1, rfl⟩ (.cons ⟨1, rfl⟩ .nil)
  obtain ⟨execution, hexecution⟩ := hends.mpr ⟨_, hruns⟩
  obtain ⟨⟨houtput, -, hfailure⟩, -⟩ := htells _ _ hruns hexecution
  obtain ⟨hcode, herrors⟩ := hfailure ⟨_, List.mem_cons_self, _, rfl⟩
  refine ⟨hparse, execution, hexecution, ?_, hcode, ?_⟩
  · rw [houtput]
    decide +kernel
  · rw [herrors]
    decide +kernel

end Reckoner
