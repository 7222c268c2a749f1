import Reckoner.CommandLine

/-! The command line as a program. -/

namespace Reckoner.CommandLine

/-- More steps than any machine takes. -/
def ampleFuel : Nat := 0x4000000000000000

def readFile (path : String) : IO (Except FileError ByteArray) := do
  try
    let bytes ← IO.FS.readBinFile path
    pure (.ok bytes)
  catch
    | .noFileOrDirectory .. => pure (.error .notFound)
    | .inappropriateType _ code _ => pure (.error (if code = 21 then .isDirectory else .notDirectory))
    | .invalidArgument .. => pure (.error .nameTooLong)
    | error => pure (.error (.other (toString error)))

def usage : String :=
  "usage: reckoner [-v]... [--max-call-depth N] (checks [NUMBER]... | run FILE)"

def finish (verbosity : Nat) (execution : Execution) : IO UInt32 := do
  let report := execution.report verbosity
  report.log.forM IO.eprintln
  IO.print report.output
  report.errors.forM IO.eprintln
  pure (UInt32.ofNat report.code)

def start (arguments : Arguments) : IO UInt32 := do
  let content ← match arguments.command with
    | .run file => readFile file
    | .checks _ => pure (.error .notFound)
  match execute ampleFuel (fun _ => content) arguments with
  | some execution => finish arguments.verbosity execution
  | none =>
      IO.eprintln "Error: the evaluation does not end"
      pure 1

end Reckoner.CommandLine

open Reckoner.CommandLine in
def main (arguments : List String) : IO UInt32 := do
  match Arguments.parse arguments with
  | some arguments => start arguments
  | none =>
      IO.eprintln usage
      pure (UInt32.ofNat usageCode)
