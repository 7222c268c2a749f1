import Reckoner.Expr.Schema
import Reckoner.Json.Document

/-! Expressions from JSON text, read in the order of the text. Unlike a value, a text may repeat a
key, which is an error where the key matters, and the parts that matter may be nested only so deep. -/

namespace Reckoner

/-- Why a text encodes no expression. Only a badly built expression is told apart. -/
inductive SourceError where
  | rejected
  | invalid (error : BuildError)
deriving DecidableEq, Repr

/-- How many arrays and objects may stand inside each other. -/
def nestingLimit : Nat := 127

namespace Json.ParseTree

def readNumber : ParseTree → Except SourceError Float
  | numeral value =>
      match value.toFloat? with
      | some value => .ok value
      | none => .error .rejected
  | _ => .error .rejected

def readText : ParseTree → Except SourceError String
  | string (some content) => .ok content
  | _ => .error .rejected

def readContent (node : ParseTree → Except SourceError Expr)
    (condition : ParseTree → Except SourceError Condition)
    (names : ParseTree → Except SourceError (List String))
    (exprs : ParseTree → Except SourceError (List Expr)) :
    (content : Content) → ParseTree → Except SourceError content.Carrier
  | .text, tree => readText tree
  | .expr, tree => node tree
  | .optionalExpr, null => .ok none
  | .optionalExpr, tree => (node tree).map some
  | .condition, tree => condition tree
  | .names, tree => names tree
  | .exprs, tree => exprs tree

/-- Reads a member into its slot. What belongs to no field only has to be JSON. -/
def readMember (read : (content : Content) → ParseTree → Except SourceError content.Carrier)
    (fields : List Field) (slots : Slots fields) :
    Option String × ParseTree → Except SourceError (Slots fields)
  | (none, _) => .error .rejected
  | (some key, value) =>
      match Slots.fill (read · value) .rejected key fields slots with
      | some filled => filled
      | none => if value.wellFormed then .ok slots else .error .rejected

def readMembers (read : (content : Content) → ParseTree → Except SourceError content.Carrier)
    (fields : List Field) (members : List (Option String × ParseTree)) :
    Except SourceError (Values fields) := do
  let slots ← members.foldlM (readMember read fields) (Slots.empty fields)
  (slots.close).mapError fun _ => .rejected

def readItems (read : (content : Content) → ParseTree → Except SourceError content.Carrier)
    (fields : List Field) (items : List ParseTree) : Except SourceError (Values fields) := do
  let (values, left) ← Values.ofItems read .rejected fields items
  if left.isEmpty then pure values else .error .rejected

/-- A sequence of names. Each reader of an array or an object gives up one of its levels. -/
def readNames : Nat → ParseTree → Except SourceError (List String)
  | _ + 1, array items => items.mapM readText
  | _, _ => .error .rejected

mutual

/-- A node. Its content is read before anything is said about further keys. -/
def readNode : Nat → ParseTree → Except SourceError Expr
  | levels + 1, object ((some tag, content) :: more) => do
      let expr ← match NodeShape.ofTag? tag with
        | none => .error .rejected
        | some .number => (readNumber content).map .literal
        | some .name => (readText content).map .var
        | some .sequence => do
            let body ← readExprs levels content
            (Expr.ofBlock body).mapError .invalid
        | some (.record type) => do
            let values ← readRecord levels type.fields content
            (type.build values).mapError .invalid
      if more.isEmpty then pure expr else .error .rejected
  | _, _ => .error .rejected

def readRecord : Nat → (fields : List Field) → ParseTree → Except SourceError (Values fields)
  | levels + 1, fields, tree =>
      let read := readContent (readNode levels) (fun tree => do
        let values ← readRecord levels RecordType.condition.fields tree
        (RecordType.condition.build values).mapError .invalid) (readNames levels)
        (readExprs levels)
      match tree with
      | object members => readMembers read fields members
      | array items => readItems read fields items
      | _ => .error .rejected
  | 0, _, _ => .error .rejected

def readExprs : Nat → ParseTree → Except SourceError (List Expr)
  | levels + 1, array items => items.mapM (readNode levels)
  | _, _ => .error .rejected

end

end Json.ParseTree

def Expr.ofSource (source : String) : Except SourceError Expr := do
  let document := Json.Document.read source
  let expr ← document.tree.readNode nestingLimit
  if document.complete then pure expr else .error .rejected

end Reckoner
