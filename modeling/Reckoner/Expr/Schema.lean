import Reckoner.Expr

/-! The layout of encoded expressions: a node is tagged with its kind, and a node of several parts is
a record whose fields have a fixed order. A record may be written as an object or as the array of its
fields. -/

namespace Reckoner

inductive Content where
  | text
  | expr
  | optionalExpr
  | condition
  | names
  | exprs
deriving DecidableEq, Repr

namespace Content

abbrev Carrier : Content → Type
  | text => String
  | expr => Expr
  | optionalExpr => Option Expr
  | condition => Condition
  | names => List String
  | exprs => List Expr

/-- The value of a field that is left out. Most fields must be there. -/
def absent? : (content : Content) → Option content.Carrier
  | optionalExpr => some none
  | text | expr | condition | names | exprs => none

end Content

structure Field where
  key : String
  content : Content
deriving DecidableEq, Repr

def Values : List Field → Type
  | [] => Unit
  | field :: rest => field.content.Carrier × Values rest

/-- Values of fields of which some are still missing. -/
def Slots : List Field → Type
  | [] => Unit
  | field :: rest => Option field.content.Carrier × Slots rest

namespace Slots

variable {ε : Type}

def empty : (fields : List Field) → Slots fields
  | [] => ()
  | _ :: rest => (none, empty rest)

/-- Fills the slot of a key with what `read` makes of it. A slot is filled only once, and a key that
belongs to no field has no answer. -/
def fill (read : (content : Content) → Except ε content.Carrier) (repeated : ε) (key : String) :
    (fields : List Field) → Slots fields → Option (Except ε (Slots fields))
  | [], _ => none
  | field :: rest, (slot, slots) =>
      if field.key = key then
        match slot with
        | some _ => some (.error repeated)
        | none => some ((read field.content).map fun value => (some value, slots))
      else (fill read repeated key rest slots).map fun filled => filled.map fun slots => (slot, slots)

def close : (fields : List Field) → Slots fields → Except String (Values fields)
  | [], _ => .ok ()
  | field :: rest, (slot, slots) =>
      match slot.or field.content.absent? with
      | some value => (close rest slots).map fun values => (value, values)
      | none => .error field.key

end Slots

/-- Reads the fields from the items of an array, one after another, and gives back the items that
are left. `short` is the error of an array that ends too soon. -/
def Values.ofItems {ε ν : Type} (read : (content : Content) → ν → Except ε content.Carrier)
    (short : ε) : (fields : List Field) → List ν → Except ε (Values fields × List ν)
  | [], items => .ok ((), items)
  | field :: rest, [] =>
      match field.content.absent? with
      | some value => (ofItems read short rest []).map fun (values, left) => ((value, values), left)
      | none => .error short
  | field :: rest, item :: items => do
      let value ← read field.content item
      let (values, left) ← ofItems read short rest items
      pure ((value, values), left)

/-- A kind of record: its title in messages, its fields, and what they make. -/
structure RecordType (α : Type) where
  title : String
  fields : List Field
  build : Values fields → Except BuildError α

namespace RecordType

def arithmetic : RecordType Expr where
  title := "Arithmetic"
  fields := [⟨"op", .text⟩, ⟨"left", .expr⟩, ⟨"right", .optionalExpr⟩]
  build := fun
    | (op, left, none, ()) => .ok (.unary op left)
    | (op, left, some right, ()) => .ok (.binary op left right)

def assignment : RecordType Expr where
  title := "Assignment"
  fields := [⟨"name", .text⟩, ⟨"value", .expr⟩]
  build := fun (name, value, ()) => .ok (.assign name value)

def condition : RecordType Condition where
  title := "Condition"
  fields := [⟨"op", .text⟩, ⟨"left", .expr⟩, ⟨"right", .expr⟩]
  build := fun (op, left, right, ()) => .ok ⟨op, left, right⟩

/-- A condition that stands for itself. -/
def comparison : RecordType Expr where
  title := condition.title
  fields := condition.fields
  build := fun values => (condition.build values).map .ofCondition

def ifElse : RecordType Expr where
  title := "IfElse"
  fields := [⟨"test", .condition⟩, ⟨"then_branch", .expr⟩, ⟨"else_branch", .expr⟩]
  build := fun (test, onTrue, onFalse, ()) => .ok (.ifElse test onTrue onFalse)

def whileLoop : RecordType Expr where
  title := "WhileLoop"
  fields := [⟨"test", .condition⟩, ⟨"body", .expr⟩]
  build := fun (test, body, ()) => .ok (.whileLoop test body)

def functionDeclaration : RecordType Expr where
  title := "FunctionDeclarationRepr"
  fields := [⟨"name", .text⟩, ⟨"params", .names⟩, ⟨"body", .expr⟩]
  build := fun (name, params, body, ()) => Expr.ofFunction name params body

def functionInvocation : RecordType Expr where
  title := "FunctionInvocation"
  fields := [⟨"name", .text⟩, ⟨"args", .exprs⟩]
  build := fun (name, args, ()) => .ok (.call name args)

end RecordType

inductive NodeShape where
  | number
  | name
  | sequence
  | record (type : RecordType Expr)

/-- The kinds of nodes by their tags, in the order in which messages list them. -/
def nodeShapes : List (String × NodeShape) := [
  ("literal", .number),
  ("arithmetic", .record .arithmetic),
  ("assignment", .record .assignment),
  ("variable", .name),
  ("condition", .record .comparison),
  ("if_else", .record .ifElse),
  ("block", .sequence),
  ("while_loop", .record .whileLoop),
  ("function_declaration", .record .functionDeclaration),
  ("function_invocation", .record .functionInvocation)]

def NodeShape.ofTag? (tag : String) : Option NodeShape := nodeShapes.lookup tag

end Reckoner
