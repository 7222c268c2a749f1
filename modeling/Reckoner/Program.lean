import Reckoner.Evaluation
import Reckoner.Expr.Decode
import Reckoner.Expr.Source
import Reckoner.Expr.Text

/-! Programs: expressions that are evaluated one after another in one context. A program file holds
one encoded expression or an array of them. -/

namespace Reckoner

inductive ProgramError where
  | notJson
  | undecodable (error : DecodeError)

abbrev Program := List Expr

namespace Program

/-- Reads a program. Everything in the text counts for the nesting and the range of numbers. -/
def parse (text : String) : Except ProgramError Program :=
  let document := Json.Document.read text
  match if document.tree.nesting ≤ nestingLimit then document.toJson? else none with
  | none => .error .notJson
  | some (.array items) => (items.mapM Json.decode).mapError .undecodable
  | some json => (json.decode.map fun e => [e]).mapError .undecodable

def outcomeText : Except EvalError Float → String
  | .ok x => "=> " ++ Number.formatCents x
  | .error error => "[err] " ++ error.message

def report (e : Expr) (outcome : Except EvalError Float) : String :=
  e.text ++ "\n" ++ outcomeText outcome ++ "\n"

structure Run where
  output : String
  events : List Event
  failed : Nat
  context : Context

/-- Evaluates every expression, whether or not earlier ones failed. -/
def run (fuel : Nat) (c : Context) : Program → Option Run
  | [] => some ⟨"", [], 0, c⟩
  | e :: rest => do
      let first ← evaluate fuel e c
      let others ← run fuel first.context rest
      let failed := match first.outcome with
        | .ok _ => 0
        | .error _ => 1
      pure ⟨report e first.outcome ++ others.output, first.events ++ others.events,
        failed + others.failed, others.context⟩

end Program

end Reckoner
