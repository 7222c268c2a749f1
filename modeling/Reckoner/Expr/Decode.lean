import Reckoner.Expr.Schema
import Reckoner.Json.Writer
import Reckoner.Text.Quoted

/-! Expressions from JSON values. -/

namespace Reckoner

inductive Expected where
  | node
  | number
  | text
  | sequence
  | record (title : String)
deriving DecidableEq, Repr

def Expected.describe : Expected → String
  | node => "string or map"
  | number => "f64"
  | text => "a string"
  | sequence => "a sequence"
  | record title => "struct " ++ title

inductive DecodeError where
  | wrongType (found : Json) (expected : Expected)
  | notTagged
  | unknownTag (tag : String)
  | bareTag
  | missingField (key : String)
  | tooShort (length : Nat) (title : String) (count : Nat)
  | tooLong (length : Nat)
  | invalid (error : BuildError)

def Json.describe : Json → String
  | null => "null"
  | bool value => "boolean `" ++ toString value ++ "`"
  | integer value => "integer `" ++ toString value ++ "`"
  | float value => "floating point `" ++ floatText value ++ "`"
  | string value => "string " ++ Text.quote value
  | array _ => "sequence"
  | object _ => "map"

def DecodeError.message : DecodeError → String
  | wrongType found expected =>
      "invalid type: " ++ found.describe ++ ", expected " ++ expected.describe
  | notTagged => "invalid value: map, expected map with a single key"
  | unknownTag tag =>
      "unknown variant `" ++ tag ++ "`, expected one of " ++
        String.intercalate ", " (nodeShapes.map fun (known, _) => "`" ++ known ++ "`")
  | bareTag => "invalid type: unit variant, expected newtype variant"
  | missingField key => "missing field `" ++ key ++ "`"
  | tooShort length title count =>
      "invalid length " ++ toString length ++ ", expected struct " ++ title ++ " with " ++
        toString count ++ " elements"
  | tooLong length =>
      "invalid length " ++ toString length ++ ", expected fewer elements in array"
  | invalid error => error.message

namespace Json

def decodeNumber (json : Json) : Except DecodeError Float :=
  match json.toFloat? with
  | some value => .ok value
  | none => .error (.wrongType json .number)

def decodeText : Json → Except DecodeError String
  | string value => .ok value
  | found => .error (.wrongType found .text)

def decodeNames : Json → Except DecodeError (List String)
  | array items => items.mapM decodeText
  | found => .error (.wrongType found .sequence)

def decodeContent (node : Json → Except DecodeError Expr)
    (condition : Json → Except DecodeError Condition)
    (exprs : Json → Except DecodeError (List Expr)) :
    (content : Content) → Json → Except DecodeError content.Carrier
  | .text, json => decodeText json
  | .expr, json => node json
  | .optionalExpr, null => .ok none
  | .optionalExpr, json => (node json).map some
  | .condition, json => condition json
  | .names, json => decodeNames json
  | .exprs, json => exprs json

/-- Reads every field that an object has, and collects the errors with their keys. Members that
belong to no field are passed over. -/
def readFields (read : (content : Content) → Json → Except DecodeError content.Carrier)
    (members : List (String × Json)) : (fields : List Field) →
    Slots fields × List (String × DecodeError)
  | [] => ((), [])
  | field :: rest =>
      let (slots, errors) := readFields read members rest
      match (members.lookup field.key).map (read field.content) with
      | none => ((none, slots), errors)
      | some (.ok value) => ((some value, slots), errors)
      | some (.error error) => ((none, slots), (field.key, error) :: errors)

def leastError : List (String × DecodeError) → Option (String × DecodeError)
  | [] => none
  | (key, error) :: rest =>
      match leastError rest with
      | none => some (key, error)
      | some (other, earlier) => if other < key then some (other, earlier) else some (key, error)

/-- Reads the fields of a record from an object. Of several bad fields the one of the least key is
reported, and a missing field only after them. -/
def decodeMembers (read : (content : Content) → Json → Except DecodeError content.Carrier)
    (fields : List Field) (members : List (String × Json)) : Except DecodeError (Values fields) :=
  let (slots, errors) := readFields read members fields
  match leastError errors with
  | some (_, error) => .error error
  | none => (slots.close).mapError .missingField

def decodeItems (read : (content : Content) → Json → Except DecodeError content.Carrier)
    (title : String) (fields : List Field) (items : List Json) :
    Except DecodeError (Values fields) := do
  let short := .tooShort items.length title fields.length
  let (values, left) ← Values.ofItems read short fields items
  if left.isEmpty then pure values else .error (.tooLong items.length)

mutual

/-- A node. Each reader of an array or an object gives up one of its levels. -/
def decodeNode : Nat → Json → Except DecodeError Expr
  | levels + 1, object [(tag, content)] =>
      match NodeShape.ofTag? tag with
      | none => .error (.unknownTag tag)
      | some .number => (decodeNumber content).map .literal
      | some .name => (decodeText content).map .var
      | some .sequence => do
          let body ← decodeExprs levels content
          (Expr.ofBlock body).mapError .invalid
      | some (.record type) => do
          let values ← decodeRecord levels type.title type.fields content
          (type.build values).mapError .invalid
  | _, object _ => .error .notTagged
  | _, string tag =>
      match NodeShape.ofTag? tag with
      | none => .error (.unknownTag tag)
      | some _ => .error .bareTag
  | _, found => .error (.wrongType found .node)

def decodeRecord : Nat → (title : String) → (fields : List Field) → Json →
    Except DecodeError (Values fields)
  | levels + 1, title, fields, json =>
      let read := decodeContent (decodeNode levels) (fun json => do
        let values ← decodeRecord levels RecordType.condition.title RecordType.condition.fields json
        (RecordType.condition.build values).mapError .invalid) (decodeExprs levels)
      match json with
      | object members => decodeMembers read fields members
      | array items => decodeItems read title fields items
      | found => .error (.wrongType found (.record title))
  | 0, title, _, found => .error (.wrongType found (.record title))

def decodeExprs : Nat → Json → Except DecodeError (List Expr)
  | levels + 1, array items => items.mapM (decodeNode levels)
  | _, found => .error (.wrongType found .sequence)

end

/-- The expression that a JSON value encodes. The value has no more levels than its depth. -/
def decode (json : Json) : Except DecodeError Expr := decodeNode json.depth json

end Json

end Reckoner
