import Reckoner.Check
import Reckoner.CommandLine
import Reckoner.CommandLine.Arguments
import Reckoner.CommandLine.Directory
import Reckoner.Context
import Reckoner.EvalError
import Reckoner.Evaluation
import Reckoner.Evaluation.Fuel
import Reckoner.Expr
import Reckoner.Expr.Decode
import Reckoner.Expr.Encode
import Reckoner.Expr.Schema
import Reckoner.Expr.Source
import Reckoner.Expr.Text
import Reckoner.Json
import Reckoner.Json.Document
import Reckoner.Json.Numeral
import Reckoner.Json.Writer
import Reckoner.Main
import Reckoner.Number.Decimal
import Reckoner.Number.Double
import Reckoner.Operator
import Reckoner.Program
import Reckoner.Proofs.Call
import Reckoner.Proofs.CallLimit
import Reckoner.Proofs.Computation
import Reckoner.Proofs.Construction
import Reckoner.Proofs.Contract
import Reckoner.Proofs.Coupling
import Reckoner.Proofs.Depth
import Reckoner.Proofs.Double
import Reckoner.Proofs.Finiteness
import Reckoner.Proofs.Footprint
import Reckoner.Proofs.Guarded
import Reckoner.Proofs.JsonText
import Reckoner.Proofs.Literals
import Reckoner.Proofs.Meaning
import Reckoner.Proofs.NonInterference
import Reckoner.Proofs.Numeral
import Reckoner.Proofs.Occurrence
import Reckoner.Proofs.Provenance
import Reckoner.Proofs.Reading
import Reckoner.Proofs.RoundTrip
import Reckoner.Proofs.Rounding
import Reckoner.Proofs.SessionRules
import Reckoner.Proofs.Shortest
import Reckoner.Proofs.Table
import Reckoner.Proofs.Termination
import Reckoner.Proofs.TextRoundTrip
import Reckoner.Proofs.Trace
import Reckoner.Proofs.ValueRoundTrip
import Reckoner.Proofs.WellBuilt
import Reckoner.Session
import Reckoner.Table
import Reckoner.Text.Quoted
import Reckoner.Text.Unprintable
import Reckoner.Proofs.Grammar
import Reckoner.Proofs.JsonSyntax
import Reckoner.Proofs.Denotation
import Reckoner.Proofs.Agreement
import Reckoner.Proofs.Renaming
import Reckoner.Proofs.Delimiting
import Reckoner.Proofs.UniqueReading
import Reckoner.Proofs.SessionInvariants
import Reckoner.Proofs.Transcript
import Reckoner.Proofs.Congruence
import Reckoner.Proofs.Log
import Reckoner.Proofs.Loop
import Reckoner.Proofs.Splicing
import Reckoner.Proofs.Checks
import Reckoner.Proofs.Faults
import Reckoner.Proofs.History
import Reckoner.Proofs.Parameters
