import Reckoner.Context
import Reckoner.Number.Decimal

/-! The arguments of the command line. Options may stand on either side of the command's name and
among its arguments. An option after the name overrides the same option before it. -/

namespace Reckoner.CommandLine

inductive Command where
  | checks (numbers : List Nat)
  | run (file : String)
deriving DecidableEq, Repr

/-- The options given on one side of the command's name. -/
structure Options where
  verbosity : Nat
  limit : Option Nat
deriving DecidableEq, Repr

structure Arguments where
  verbosity : Nat
  limit : Nat
  command : Command
deriving DecidableEq, Repr

def parseNumber (text : String) : Option Nat :=
  let digits := match text.toList with
    | '+' :: digits => digits
    | digits => digits
  if digits.isEmpty || !digits.all Char.isDigit then none
  else
    let value := Number.ofDigits digits
    if value < UInt64.size then some value else none

/-- An argument that stands for itself: it has no dash in front or is a dash alone. -/
def isPlain (argument : String) : Bool :=
  match argument.toList with
  | '-' :: _ :: _ => false
  | _ => true

def verboseCluster (argument : String) : Option Nat :=
  match argument.toList with
  | '-' :: 'v' :: more => if more.all (· = 'v') then some (more.length + 1) else none
  | _ => none

def limitOption : String := "--max-call-depth"

def Options.setLimit (options : Options) (value : String) : Option Options :=
  match options.limit, parseNumber value with
  | none, some limit => some { options with limit := some limit }
  | _, _ => none

/-- Takes the options apart from the other arguments, as far as `stop` allows. There is no answer if
an option is unknown, is badly written or sets the limit a second time. -/
def splitOptions (stop : Bool) : List String → Options → List String →
    Option (Options × List String × List String)
  | [], options, plain => some (options, plain.reverse, [])
  | argument :: rest, options, plain =>
      if isPlain argument then
        if stop then some (options, plain.reverse, argument :: rest)
        else splitOptions stop rest options (argument :: plain)
      else if argument = "--" then
        if stop then none else some (options, plain.reverse ++ rest, [])
      else if argument = "--verbose" then
        splitOptions stop rest { options with verbosity := options.verbosity + 1 } plain
      else if argument = limitOption then
        match rest with
        | [] => none
        | value :: rest =>
            match options.setLimit value with
            | some options => splitOptions stop rest options plain
            | none => none
      else if (limitOption ++ "=").toList.isPrefixOf argument.toList then
        match options.setLimit (String.ofList (argument.toList.drop (limitOption.length + 1))) with
        | some options => splitOptions stop rest options plain
        | none => none
      else
        match verboseCluster argument with
        | some count =>
            splitOptions stop rest { options with verbosity := options.verbosity + count } plain
        | none => none

def Command.parse (name : String) (arguments : List String) : Option Command :=
  if name = "checks" then (arguments.mapM parseNumber).map .checks
  else if name = "run" then
    match arguments with
    | [file] => if file.isEmpty then none else some (.run file)
    | _ => none
  else none

def Arguments.parse (arguments : List String) : Option Arguments := do
  let (before, _, rest) ← splitOptions true arguments ⟨0, none⟩ []
  match rest with
  | [] => none
  | name :: rest =>
      let (after, plain, _) ← splitOptions false rest ⟨0, none⟩ []
      let command ← Command.parse name plain
      let verbosity := if after.verbosity = 0 then before.verbosity else after.verbosity
      let limit := (after.limit.or before.limit).getD Context.defaultLimit
      pure ⟨verbosity, limit, command⟩

end Reckoner.CommandLine
