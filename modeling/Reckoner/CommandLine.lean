import Reckoner.Check
import Reckoner.CommandLine.Arguments
import Reckoner.CommandLine.Directory

/-! What the command line prints, logs and returns. -/

namespace Reckoner.CommandLine

inductive Level where
  | debug
  | trace
deriving DecidableEq, Repr

inductive Entry where
  | loaded (count : Nat)
  | event (event : Event)
deriving DecidableEq, Repr

namespace Entry

def level : Entry → Level
  | event (.called _ _) => .trace
  | _ => .debug

def text : Entry → String
  | loaded count => "DEBUG loaded program count=" ++ toString count
  | event (.declared name arity) =>
      "DEBUG declared function name=" ++ Text.quote name ++ " arity=" ++ toString arity
  | event (.redeclared name arity) =>
      "DEBUG redeclared function name=" ++ Text.quote name ++ " arity=" ++ toString arity
  | event (.called name depth) =>
      "TRACE calling function name=" ++ name ++ " depth=" ++ toString depth

/-- Without a flag nothing is logged, and a second flag adds the finer level. -/
def shown (verbosity : Nat) (entry : Entry) : Bool :=
  match entry.level with
  | .debug => 0 < verbosity
  | .trace => 1 < verbosity

end Entry

structure Failure where
  summary : String
  cause : Option String

def Failure.lines (failure : Failure) : List String :=
  let headline := ("Error: " ++ failure.summary).splitOn "\n"
  match failure.cause with
  | none => headline
  | some cause =>
      headline ++ ["", "Caused by:"] ++ (cause.splitOn "\n").map fun line => "    " ++ line

structure Execution where
  output : String
  log : List Entry
  failure : Option Failure

/-- Runs checks in order, each in a context of its own, up to the first number without a check. -/
def runChecks (fuel limit : Nat) : List Nat → Option Execution
  | [] => some ⟨"", [], none⟩
  | number :: rest =>
      match Check.numbered? number with
      | none =>
          let expected := "1..=" ++ toString Check.all.length
          let summary := "no check numbered " ++ toString number ++ " (expected " ++ expected ++ ")"
          some ⟨"", [], some ⟨summary, none⟩⟩
      | some check => do
          let run ← Program.run fuel (.withLimit limit) check.program
          let others ← runChecks fuel limit rest
          pure ⟨check.header number ++ run.output ++ "\n" ++ others.output,
            run.events.map .event ++ others.log, others.failure⟩

def checks (fuel limit : Nat) (numbers : List Nat) : Option Execution :=
  runChecks fuel limit
    (if numbers.isEmpty then (List.range Check.all.length).map (· + 1) else numbers)

def runProgram (fuel limit : Nat) (program : Program) : Option Execution := do
  let run ← Program.run fuel (.withLimit limit) program
  let summary :=
    toString run.failed ++ " of " ++ toString program.length ++ " expression(s) failed"
  pure ⟨run.output, .loaded program.length :: run.events.map .event,
    if run.failed = 0 then none else some ⟨summary, none⟩⟩

/-- Runs the program in a file. Nothing is evaluated before all of it is decoded. -/
def runFile (fuel limit : Nat) (file : String) (content : Except FileError ByteArray) :
    Option Execution :=
  let refuse (summary : String) (cause : Option String) : Option Execution :=
    some ⟨"", [], some ⟨summary ++ " " ++ file, cause⟩⟩
  match content with
  | .error error => refuse "reading" (some error.message)
  | .ok bytes =>
      match String.fromUTF8? bytes with
      | none => refuse "reading" (some "stream did not contain valid UTF-8")
      | some text =>
          match Program.parse text with
          | .error .notJson => refuse "decoding" none
          | .error (.undecodable error) => refuse "decoding" (some error.message)
          | .ok program => runProgram fuel limit program

def execute (fuel : Nat) (read : String → Except FileError ByteArray) (arguments : Arguments) :
    Option Execution :=
  match arguments.command with
  | .checks numbers => checks fuel arguments.limit numbers
  | .run file => runFile fuel arguments.limit file (read file)

structure Report where
  code : Nat
  output : String
  errors : List String
  log : List String

def usageCode : Nat := 2

def Execution.report (verbosity : Nat) (execution : Execution) : Report where
  code := if execution.failure.isSome then 1 else 0
  output := execution.output
  errors := (execution.failure.map Failure.lines).getD []
  log := (execution.log.filter (Entry.shown verbosity)).map Entry.text

end Reckoner.CommandLine
