import Reckoner.Proofs.Denotation
import Reckoner.Proofs.JsonText

/-! Faults in encoded expressions. An expression is encoded at some place inside the encoding of another
one. If what stands there is replaced by a value that cannot be built, then the whole is refused with the
error of that value: every reader around it passes the error on, and finds nothing else to report. -/

namespace Reckoner

theorem firstRepeat_append {seen names : List String} {name : String} (hdistinct : names.Nodup)
    (hfresh : ∀ other ∈ names, other ∉ seen) (hname : name ∈ names ∨ name ∈ seen)
    (rest : List String) : firstRepeat seen (names ++ name :: rest) = some name := by
  induction names generalizing seen with
  | nil =>
    have hseen : name ∈ seen := by simpa using hname
    simp [firstRepeat, hseen]
  | cons first names ih =>
    have hfirst : first ∉ seen := hfresh first (by simp)
    obtain ⟨hother, hdistinct⟩ := List.nodup_cons.mp hdistinct
    rw [List.cons_append, firstRepeat, if_neg hfirst]
    apply ih hdistinct
    · intro other hin
      have hseen := hfresh other (by simp [hin])
      grind
    · simp only [List.mem_cons] at hname ⊢
      tauto

theorem mapM_eq_error {α β ε : Type} {f : α → Except ε β} {before : List α} {a : α} {error : ε}
    (hbefore : ∀ other ∈ before, ∃ b, f other = .ok b) (ha : f a = .error error) (after : List α) :
    (before ++ a :: after).mapM f = .error error := by
  induction before with
  | nil =>
    rw [List.nil_append, List.mapM_cons, ha]
    rfl
  | cons other before ih =>
    obtain ⟨b, hb⟩ := hbefore other (by simp)
    rw [List.cons_append, List.mapM_cons, hb, ih fun other hother => hbefore other (by simp [hother])]
    rfl

namespace Values

variable {ν : Type} {reads : (content : Content) → ν → content.Carrier → Prop} {fields : List Field}
  {values : Values fields} {field : Field} {item : ν}

theorem Given.exists_reads {find : String → Option ν} (h : values.Given reads find)
    (hfield : field ∈ fields) (hitem : find field.key = some item) :
    ∃ value, reads field.content item value := by
  induction fields with
  | nil => simp at hfield
  | cons first rest ih =>
    obtain ⟨value, values⟩ := values
    rcases List.mem_cons.mp hfield with rfl | hin
    · rcases h.1 with ⟨found, hfound, hread⟩ | ⟨hnone, -⟩
      · rw [hitem] at hfound
        cases hfound
        exact ⟨value, hread⟩
      · simp [hitem] at hnone
    · exact ih h.2 hin

theorem Listed.exists_reads {before after : List ν}
    (h : Listed reads (before ++ item :: after) fields values)
    (hfield : fields[before.length]? = some field) : ∃ value, reads field.content item value := by
  induction before generalizing fields with
  | nil =>
    cases fields with
    | nil => simp at hfield
    | cons first rest =>
      obtain ⟨value, values⟩ := values
      cases hfield
      exact ⟨value, h.1⟩
  | cons other before ih =>
    cases fields with
    | nil => simp at hfield
    | cons first rest =>
      obtain ⟨value, values⟩ := values
      exact ih h.2 hfield

end Values

namespace Json

/-! Places -/

/-- A place for a field in a record whose fields have this order: a member of an object, which is the
first of its key, or an item of an array. -/
inductive Slot (order : List String) (key : String) where
  | member (before after : List (String × Json)) (first : ∀ other ∈ before, other.1 ≠ key)
  | item (before after : List Json) (place : order[before.length]? = some key)

def Slot.fill {order : List String} {key : String} : Slot order key → Json → Json
  | .member before after _, json => .object (before ++ (key, json) :: after)
  | .item before after _, json => .array (before ++ json :: after)

/-- A node of this kind has fields in this order, and the field of this key is an expression. -/
inductive ExprField : String → List String → String → Prop
  | leftOperand : ExprField "arithmetic" ["op", "left", "right"] "left"
  | rightOperand : ExprField "arithmetic" ["op", "left", "right"] "right"
  | assigned : ExprField "assignment" ["name", "value"] "value"
  | leftCompared : ExprField "condition" ["op", "left", "right"] "left"
  | rightCompared : ExprField "condition" ["op", "left", "right"] "right"
  | thenBranch : ExprField "if_else" ["test", "then_branch", "else_branch"] "then_branch"
  | elseBranch : ExprField "if_else" ["test", "then_branch", "else_branch"] "else_branch"
  | loopBody : ExprField "while_loop" ["test", "body"] "body"
  | functionBody : ExprField "function_declaration" ["name", "params", "body"] "body"

/-- A node of this kind has fields in this order, and one of them is a test. -/
inductive TestField : String → List String → Prop
  | branch : TestField "if_else" ["test", "then_branch", "else_branch"]
  | loop : TestField "while_loop" ["test", "body"]

/-- A node that lacks one of its parts. -/
inductive Layer where
  | field {tag : String} {order : List String} {key : String} (kind : ExprField tag order key)
      (slot : Slot order key)
  | test {tag : String} {order : List String} {key : String} (kind : TestField tag order)
      (slot : Slot order "test") (operand : key = "left" ∨ key = "right")
      (within : Slot ["op", "left", "right"] key)
  | element (before after : List Json)
  | argument (slot : Slot ["name", "args"] "args") (before after : List Json)

def Layer.around : Layer → Json → Json
  | @field tag _ _ _ slot, json => .object [(tag, slot.fill json)]
  | @test tag _ _ _ slot _ within, json => .object [(tag, slot.fill (within.fill json))]
  | element before after, json => .object [("block", .array (before ++ json :: after))]
  | argument slot before after, json =>
      .object [("function_invocation", slot.fill (.array (before ++ json :: after)))]

/-- A value inside of layers, the first of which is the outermost one. -/
def inside (layers : List Layer) (json : Json) : Json := layers.foldr Layer.around json

/-- The value is like an encoded expression, but this expression cannot be built: it is a block without
content or a declaration in which `param` is the first name to be repeated. -/
inductive Faulty : Json → BuildError → Prop
  | emptyBlock : Faulty (.object [("block", .array [])]) .emptyBlock
  | duplicateParameter {name param : String} {before after : List String} {body content : Json}
      {x : Expr} :
      Record [("name", .string name),
        ("params", .array ((before ++ param :: after).map .string)), ("body", body)] content →
      before.Nodup → param ∈ before → Encodes body x →
      Faulty (.object [("function_declaration", content)]) (.duplicateParameter name param)

/-! Records with a place -/

section Slots

variable {before after : List (String × Json)} {key : String}

theorem lookup_self (h : ∀ other ∈ before, other.1 ≠ key) (json : Json) :
    (before ++ (key, json) :: after).lookup key = some json := by
  have hbefore : before.lookup key = none := by
    rw [List.lookup_eq_none_iff]
    intro other hother
    simpa using (h other hother).symm
  simp [List.lookup_append, hbefore]

theorem lookup_other {other : String} (h : other ≠ key) (json json' : Json) :
    (before ++ (key, json) :: after).lookup other = (before ++ (key, json') :: after).lookup other := by
  have hne : (other == key) = false := by simpa using h
  simp [List.lookup_append, List.lookup_cons, hne]

variable {read : (content : Content) → Json → Except DecodeError content.Carrier}
  {fields : List Field} {values : Values fields} {old new : Json} {error : DecodeError}

/-- All errors are those of the value in the place, and there is one. -/
theorem readFields_member (hfirst : ∀ other ∈ before, other.1 ≠ key)
    (hold : values.Given Means ((before ++ (key, old) :: after).lookup ·))
    (halike : ∀ other part, (before ++ (key, new) :: after).lookup other = some part →
      Values.Alike (Reads read) Means part part)
    (hnew : ∀ field ∈ fields, field.key = key → read field.content new = .error error) :
    (∀ found ∈ (readFields read (before ++ (key, new) :: after) fields).2, found.2 = error) ∧
      (key ∈ fields.map Field.key →
        (readFields read (before ++ (key, new) :: after) fields).2 ≠ []) := by
  induction fields with
  | nil => exact ⟨by simp [readFields], by simp⟩
  | cons field rest ih =>
    obtain ⟨value, values⟩ := values
    obtain ⟨hfield, hrest⟩ := hold
    obtain ⟨hall, hsome⟩ := ih hrest fun other hother => hnew other (by simp [hother])
    rw [readFields_cons]
    by_cases hkey : field.key = key
    · rw [hkey, lookup_self hfirst, Option.map_some, hnew field (by simp) hkey]
      exact ⟨by simpa using hall, by simp⟩
    · have hmem : key ∈ (field :: rest).map Field.key → key ∈ rest.map Field.key := by
        simp [Ne.symm hkey]
      simp only [lookup_other hkey old new] at hfield
      rcases hfield with ⟨part, hlookup, hmeans⟩ | ⟨hlookup, -⟩
      · have hread : read field.content part = .ok value :=
          (halike _ part hlookup field.content value).mpr hmeans
        rw [hlookup, Option.map_some, hread]
        exact ⟨hall, fun h => hsome (hmem h)⟩
      · rw [hlookup, Option.map_none]
        exact ⟨hall, fun h => hsome (hmem h)⟩

theorem ofItems_item {before after : List Json} {short : DecodeError}
    (hplace : (fields.map Field.key)[before.length]? = some key)
    (hold : Values.Listed Means (before ++ old :: after) fields values)
    (halike : ∀ part ∈ before, Values.Alike (Reads read) Means part part)
    (hnew : ∀ field ∈ fields, field.key = key → read field.content new = .error error) :
    Values.ofItems read short fields (before ++ new :: after) = .error error := by
  induction before generalizing fields with
  | nil =>
    cases fields with
    | nil => simp at hplace
    | cons field rest =>
      have hkey : field.key = key := by simpa using hplace
      rw [List.nil_append, Values.ofItems_cons, hnew field (by simp) hkey]
      rfl
  | cons part before ih =>
    cases fields with
    | nil => simp at hplace
    | cons field rest =>
      obtain ⟨value, values⟩ := values
      obtain ⟨hmeans, hrest⟩ := hold
      have hread : read field.content part = .ok value :=
        (halike part (by simp) field.content value).mpr hmeans
      have hothers := ih (by simpa using hplace) hrest
        (fun other hother => halike other (by simp [hother]))
        fun other hother => hnew other (by simp [hother])
      rw [List.cons_append, Values.ofItems_cons, hread, hothers]
      rfl

theorem Holds.exists_reads {reads : (content : Content) → Json → content.Carrier → Prop}
    {slot : Slot (fields.map Field.key) key} {json : Json} (hkey : key ∈ fields.map Field.key)
    (h : Holds reads fields values (slot.fill json)) :
    ∃ field ∈ fields, field.key = key ∧ ∃ value, reads field.content json value := by
  cases slot with
  | member before after first =>
    obtain ⟨field, hfield, rfl⟩ := List.mem_map.mp hkey
    exact ⟨field, hfield, rfl, Values.Given.exists_reads h hfield (lookup_self first json)⟩
  | item before after place =>
    rw [List.getElem?_map, Option.map_eq_some_iff] at place
    obtain ⟨field, hfield, rfl⟩ := place
    exact ⟨field, List.mem_of_getElem? hfield, rfl, Values.Listed.exists_reads h hfield⟩

end Slots

/-! Readers that fail -/

section Records

variable {fields : List Field} {values : Values fields} {key : String}
  {slot : Slot (fields.map Field.key) key} {old new json : Json} {error : DecodeError} {levels : Nat}

theorem decodeRecord_of_holds (h : Holds Means fields values json) (hdepth : json.depth ≤ levels + 1)
    (title : String) : decodeRecord (levels + 1) title fields json = .ok values := by
  refine decodeRecord_eq_ok_iff.mpr ((holds_congr fun part hpart => ?_).mpr h)
  exact alike_contentReader (fun k _ => decodesNodes k) (by omega)

/-- A record all of whose fields but one are in order is refused with the error of that field. -/
theorem decodeRecord_fill (hold : Holds Means fields values (slot.fill old))
    (hkey : key ∈ fields.map Field.key) (hdepth : (slot.fill new).depth ≤ levels + 1)
    (hnew : ∀ field ∈ fields, field.key = key → contentReader levels field.content new = .error error)
    (title : String) : decodeRecord (levels + 1) title fields (slot.fill new) = .error error := by
  have halike (part : Json) (hpart : part.depth < (slot.fill new).depth) :
      Values.Alike (Reads (contentReader levels)) Means part part :=
    alike_contentReader (fun k _ => decodesNodes k) (by omega)
  cases slot with
  | member before after first =>
    have hparts (other : String) (part : Json)
        (hpart : (before ++ (key, new) :: after).lookup other = some part) :
        Values.Alike (Reads (contentReader levels)) Means part part :=
      halike part (Nat.lt_succ_of_le (depth_le_of_lookup hpart))
    obtain ⟨hall, hsome⟩ := readFields_member first hold hparts hnew
    obtain ⟨least, hleast⟩ := leastError_eq (hsome hkey) hall
    change decodeMembers (contentReader levels) fields _ = _
    unfold decodeMembers
    simp only [hleast]
  | item before after place =>
    have hparts (part : Json) (hpart : part ∈ before) :
        Values.Alike (Reads (contentReader levels)) Means part part :=
      halike part (Nat.lt_succ_of_le (depth_le_of_mem (by simp [hpart])))
    change Values.ofItems (contentReader levels) _ fields (before ++ new :: after) >>= _ = _
    rw [ofItems_item place hold hparts hnew]
    rfl

theorem depth_lt_fill {order : List String} (slot : Slot order key) (json : Json) :
    json.depth < (slot.fill json).depth := by
  cases slot with
  | member before after first => exact Nat.lt_succ_of_le (depth_le_of_lookup (lookup_self first json))
  | item before after place => exact Nat.lt_succ_of_le (depth_le_of_mem (by simp))

end Records

theorem contentReader_expr (levels : Nat) (json : Json) :
    contentReader levels .expr json = decodeNode levels json := rfl

theorem contentReader_exprs (levels : Nat) (json : Json) :
    contentReader levels .exprs json = decodeExprs levels json := rfl

/-- The value is refused with this error where a content of this kind is expected. -/
def FailsAs (content : Content) (error : DecodeError) (json : Json) : Prop :=
  ∀ levels, json.depth ≤ levels → contentReader levels content json = .error error

theorem Encodes.decodeShape_eq {tag : String} {shape : NodeShape} {content : Json} {e : Expr}
    (htag : NodeShape.ofTag? tag = some shape) (h : Encodes (.object [(tag, content)]) e) :
    decodeShape content.depth content shape = .ok e := by
  have hdecode : decodeNode (content.depth + 1) (.object [(tag, content)]) = .ok e :=
    (decodesNodes _ _ (by simp [depth, depthMembers]) e).mpr h
  rw [decodeNode_tagged, htag] at hdecode
  exact hdecode

theorem Encodes.exists_holds {tag : String} {type : RecordType Expr} {content : Json} {e : Expr}
    (htag : NodeShape.ofTag? tag = some (.record type)) (h : Encodes (.object [(tag, content)]) e) :
    ∃ values, Holds Means type.fields values content := by
  obtain ⟨values, hholds, -⟩ :=
    (decodeShape_record_iff (fun k _ => decodesNodes k) (Nat.le_refl _) type).mp
      (h.decodeShape_eq htag)
  exact ⟨values, hholds⟩

theorem Means.holds_condition {json : Json} {test : Condition} (h : Means .condition json test) :
    Holds Means RecordType.condition.fields (test.op, test.left, test.right, ()) json := by
  obtain ⟨left, right, hrecord, hl, hr⟩ := h
  exact (holds_triple_iff rfl rfl rfl).mpr ⟨_, left, right, hrecord, rfl, hl, hr⟩

theorem condition_operand {key : String} (h : key = "left" ∨ key = "right") :
    key ∈ RecordType.condition.fields.map Field.key ∧
      ∀ field ∈ RecordType.condition.fields, field.key = key → field.content = .expr := by
  rcases h with rfl | rfl <;> decide

namespace FailsAs

variable {error : DecodeError} {key : String} {old new : Json} {before after : List Json}

theorem tagged {tag : String} {shape : NodeShape} {content : Json}
    (htag : NodeShape.ofTag? tag = some shape)
    (h : ∀ levels, content.depth ≤ levels → decodeShape levels content shape = .error error) :
    FailsAs .expr error (.object [(tag, content)]) := by
  intro levels hlevels
  have hcontent : content.depth + 1 ≤ levels := by simpa [depth, depthMembers] using hlevels
  obtain ⟨levels, rfl⟩ : ∃ k, levels = k + 1 := ⟨levels - 1, by omega⟩
  rw [contentReader_expr, decodeNode_tagged, htag]
  exact h levels (by omega)

theorem record {tag : String} {type : RecordType Expr} {slot : Slot (type.fields.map Field.key) key}
    {e : Expr} (htag : NodeShape.ofTag? tag = some (.record type))
    (hkey : key ∈ type.fields.map Field.key) (hold : Encodes (.object [(tag, slot.fill old)]) e)
    (hnew : ∀ field ∈ type.fields, field.key = key → FailsAs field.content error new) :
    FailsAs .expr error (.object [(tag, slot.fill new)]) := by
  obtain ⟨values, hholds⟩ := hold.exists_holds htag
  apply tagged htag
  intro levels hlevels
  have hlt := depth_lt_fill slot new
  obtain ⟨levels, rfl⟩ : ∃ k, levels = k + 1 := ⟨levels - 1, by omega⟩
  change decodeRecord (levels + 1) type.title type.fields (slot.fill new) >>= _ = _
  rw [decodeRecord_fill hholds hkey hlevels fun field hfield hname =>
    hnew field hfield hname levels (by omega)]
  rfl

theorem optional {error : BuildError} (h : FailsAs .expr (.invalid error) new) :
    FailsAs .optionalExpr (.invalid error) new := by
  intro levels hlevels
  have hnode : decodeNode levels new = .error (.invalid error) := h levels hlevels
  cases new with
  | null =>
    have hnull : decodeNode levels .null = .error (.wrongType .null .node) := by
      cases levels <;> rfl
    simp [hnull] at hnode
  | _ =>
    change (decodeNode levels _).map some = _
    rw [hnode]
    rfl

theorem condition {slot : Slot ["op", "left", "right"] key} {test : Condition}
    (hkey : key = "left" ∨ key = "right") (hold : Means .condition (slot.fill old) test)
    (hnew : FailsAs .expr error new) : FailsAs .condition error (slot.fill new) := by
  intro levels hlevels
  have hlt := depth_lt_fill slot new
  obtain ⟨levels, rfl⟩ : ∃ k, levels = k + 1 := ⟨levels - 1, by omega⟩
  obtain ⟨hmem, hcontent⟩ := condition_operand hkey
  have hfield (field : Field) (hfield : field ∈ RecordType.condition.fields)
      (hname : field.key = key) : contentReader levels field.content new = .error error := by
    rw [hcontent field hfield hname]
    exact hnew levels (by omega)
  have hfill : decodeRecord (levels + 1) RecordType.condition.title RecordType.condition.fields
      (slot.fill new) = .error error :=
    decodeRecord_fill (Means.holds_condition hold) hmem hlevels hfield _
  change decodeRecord (levels + 1) _ _ (slot.fill new) >>= _ = _
  rw [hfill]
  rfl

theorem sequence (hbefore : ∀ other ∈ before, ∃ x, Encodes other x) (hnew : FailsAs .expr error new) :
    FailsAs .exprs error (.array (before ++ new :: after)) := by
  intro levels hlevels
  have hpos := (array (before ++ new :: after)).depth_pos
  obtain ⟨levels, rfl⟩ : ∃ k, levels = k + 1 := ⟨levels - 1, by omega⟩
  have hitems (item : Json) (hitem : item ∈ before ++ new :: after) : item.depth ≤ levels :=
    (depth_le_of_mem hitem).trans (Nat.le_of_succ_le_succ hlevels)
  rw [contentReader_exprs, decodeExprs]
  apply mapM_eq_error _ (hnew levels (hitems new (by simp)))
  intro other hother
  obtain ⟨x, hx⟩ := hbefore other hother
  exact ⟨x, (decodesNodes levels other (hitems other (by simp [hother])) x).mpr hx⟩

theorem block (h : FailsAs .exprs error new) : FailsAs .expr error (.object [("block", new)]) := by
  apply tagged rfl
  intro levels hlevels
  have hexprs : decodeExprs levels new = .error error := h levels hlevels
  change decodeExprs levels new >>= _ = _
  rw [hexprs]
  rfl

end FailsAs

/-! Layers -/

theorem ExprField.exists_type {tag key : String} {order : List String} (h : ExprField tag order key) :
    ∃ type : RecordType Expr, NodeShape.ofTag? tag = some (.record type) ∧
      type.fields.map Field.key = order ∧ key ∈ order ∧
      ∀ field ∈ type.fields, field.key = key →
        field.content = .expr ∨ field.content = .optionalExpr := by
  cases h <;> exact ⟨_, rfl, rfl, by decide, by decide⟩

theorem TestField.exists_type {tag : String} {order : List String} (h : TestField tag order) :
    ∃ type : RecordType Expr, NodeShape.ofTag? tag = some (.record type) ∧
      type.fields.map Field.key = order ∧ "test" ∈ order ∧
      ∀ field ∈ type.fields, field.key = "test" → field.content = .condition := by
  cases h <;> exact ⟨_, rfl, rfl, by decide, by decide⟩

theorem Encodes.exists_means {tag key : String} {type : RecordType Expr} {json : Json} {e : Expr}
    {slot : Slot (type.fields.map Field.key) key} (htag : NodeShape.ofTag? tag = some (.record type))
    (hkey : key ∈ type.fields.map Field.key) (h : Encodes (.object [(tag, slot.fill json)]) e) :
    ∃ field ∈ type.fields, field.key = key ∧ ∃ value, Means field.content json value := by
  obtain ⟨values, hholds⟩ := h.exists_holds htag
  exact hholds.exists_reads hkey

theorem Encodes.exists_test {tag : String} {order : List String} {slot : Slot order "test"}
    {json : Json} {e : Expr} (kind : TestField tag order)
    (h : Encodes (.object [(tag, slot.fill json)]) e) : ∃ test, Means .condition json test := by
  obtain ⟨type, htag, rfl, hkey, hcontent⟩ := kind.exists_type
  obtain ⟨⟨name, content⟩, hfield, hname, value, hmeans⟩ := h.exists_means htag hkey
  obtain rfl := hcontent _ hfield hname
  exact ⟨value, hmeans⟩

theorem Encodes.exists_args {slot : Slot ["name", "args"] "args"} {items : List Json} {e : Expr}
    (h : Encodes (.object [("function_invocation", slot.fill (.array items))]) e) :
    ∃ es, List.Forall₂ Encodes items es := by
  have hmeans : ∃ field ∈ RecordType.functionInvocation.fields, field.key = "args" ∧
      ∃ value, Means field.content (.array items) value := h.exists_means rfl (by decide)
  simp only [RecordType.functionInvocation, List.mem_cons, List.not_mem_nil, or_false] at hmeans
  obtain ⟨field, rfl | rfl, hname, value, hvalue⟩ := hmeans
  · simp at hname
  · obtain ⟨_, heq, hitems⟩ := hvalue
    cases heq
    exact ⟨value, hitems⟩

theorem Encodes.exists_elements {items : List Json} {e : Expr}
    (h : Encodes (.object [("block", .array items)]) e) : ∃ es, List.Forall₂ Encodes items es := by
  have htag : NodeShape.ofTag? "block" = some .sequence := rfl
  obtain ⟨es, ⟨_, heq, hitems⟩, -⟩ :=
    (decodeShape_sequence_iff (fun k _ => decodesNodes k) (Nat.le_refl _)).mp (h.decodeShape_eq htag)
  cases heq
  exact ⟨es, hitems⟩

theorem exists_encodes_of_mem {items : List Json} {es : List Expr}
    (h : List.Forall₂ Encodes items es) {item : Json} (hitem : item ∈ items) :
    ∃ x, Encodes item x :=
  ParseTree.forall_mem_of_forall₂ h (fun _ x hx => Exists.intro x hx) item hitem

namespace Layer

variable {old new : Json} {e : Expr} {error : BuildError}

/-- What stands inside of a layer is an encoded expression, or the null of an operand that is left
out. -/
theorem encodes_of_around {layer : Layer} (h : Encodes (layer.around old) e) :
    old = .null ∨ ∃ x, Encodes old x := by
  cases layer with
  | field kind slot =>
    obtain ⟨type, htag, rfl, hkey, hcontent⟩ := kind.exists_type
    obtain ⟨⟨name, content⟩, hfield, hname, value, hmeans⟩ := Encodes.exists_means htag hkey h
    rcases hcontent _ hfield hname with hexpr | hoptional
    · obtain rfl := hexpr
      exact .inr ⟨value, hmeans⟩
    · obtain rfl := hoptional
      cases value with
      | none => exact .inl hmeans
      | some x => exact .inr ⟨x, hmeans⟩
  | test kind slot operand within =>
    obtain ⟨test, htest⟩ := Encodes.exists_test kind h
    obtain ⟨hkey, hcontent⟩ := condition_operand operand
    obtain ⟨⟨name, content⟩, hfield, hname, value, hmeans⟩ :=
      (Means.holds_condition htest).exists_reads hkey
    obtain rfl := hcontent _ hfield hname
    exact .inr ⟨value, hmeans⟩
  | element before after =>
    obtain ⟨es, hes⟩ := Encodes.exists_elements h
    exact .inr (exists_encodes_of_mem hes (by simp))
  | argument slot before after =>
    obtain ⟨es, hes⟩ := Encodes.exists_args h
    exact .inr (exists_encodes_of_mem hes (by simp))

theorem fails_around {layer : Layer} (hold : Encodes (layer.around old) e)
    (h : FailsAs .expr (.invalid error) new) : FailsAs .expr (.invalid error) (layer.around new) := by
  cases layer with
  | field kind slot =>
    obtain ⟨type, htag, rfl, hkey, hcontent⟩ := kind.exists_type
    refine .record htag hkey hold fun field hfield hname => ?_
    rcases hcontent field hfield hname with hexpr | hoptional
    · rw [hexpr]
      exact h
    · rw [hoptional]
      exact h.optional
  | test kind slot operand within =>
    obtain ⟨test, htest⟩ := Encodes.exists_test kind hold
    obtain ⟨type, htag, rfl, hkey, hcontent⟩ := kind.exists_type
    refine .record htag hkey hold fun field hfield hname => ?_
    rw [hcontent field hfield hname]
    exact h.condition operand htest
  | element before after =>
    obtain ⟨es, hes⟩ := Encodes.exists_elements hold
    exact .block (.sequence (fun other hother => exists_encodes_of_mem hes (by simp [hother])) h)
  | argument slot before after =>
    obtain ⟨es, hes⟩ := Encodes.exists_args hold
    have hargs : FailsAs .exprs (.invalid error) (.array (before ++ new :: after)) :=
      .sequence (fun other hother => exists_encodes_of_mem hes (by simp [hother])) h
    have hcontent : ∀ field ∈ RecordType.functionInvocation.fields, field.key = "args" →
        field.content = .exprs := by decide
    have htag : NodeShape.ofTag? "function_invocation" =
        some (.record RecordType.functionInvocation) := rfl
    have hkey : "args" ∈ RecordType.functionInvocation.fields.map Field.key := by decide
    refine .record htag hkey hold fun field hfield hname => ?_
    rw [hcontent field hfield hname]
    exact hargs

end Layer

theorem exists_around_eq_object (layer : Layer) (json : Json) :
    ∃ members, layer.around json = .object members := by
  cases layer <;> exact ⟨_, rfl⟩

theorem fails_inside {layers : List Layer} {old bad : Json} {e : Expr} {error : BuildError}
    (hold : Encodes (inside layers old) e) (hbad : FailsAs .expr (.invalid error) bad) :
    FailsAs .expr (.invalid error) (inside layers bad) := by
  induction layers generalizing e with
  | nil => exact hbad
  | cons layer layers ih =>
    apply Layer.fails_around hold
    rcases Layer.encodes_of_around hold with hnull | ⟨x, hx⟩
    · -- a layer is no null, so only the innermost value can be one
      cases layers with
      | nil => exact hbad
      | cons other layers =>
        obtain ⟨members, hmembers⟩ := exists_around_eq_object other (inside layers old)
        cases hmembers.symm.trans hnull
    · exact ih hx

theorem Faulty.exists_object {bad : Json} {error : BuildError} (h : Faulty bad error)
    (layers : List Layer) : ∃ members, inside layers bad = .object members := by
  cases layers with
  | nil => cases h <;> exact ⟨_, rfl⟩
  | cons layer layers => exact exists_around_eq_object layer _

theorem Faulty.fails {json : Json} {error : BuildError} (h : Faulty json error) :
    FailsAs .expr (.invalid error) json := by
  cases h with
  | emptyBlock =>
    have htag : NodeShape.ofTag? "block" = some .sequence := rfl
    refine .tagged htag fun levels hlevels => ?_
    obtain ⟨levels, rfl⟩ : ∃ k, levels = k + 1 := ⟨levels - 1, by simp [depth] at hlevels; omega⟩
    rfl
  | @duplicateParameter name param before after body content x hrecord hdistinct hparam hbody =>
    have htag : NodeShape.ofTag? "function_declaration" =
        some (.record RecordType.functionDeclaration) := rfl
    refine .tagged htag fun levels hlevels => ?_
    have hpos := content.depth_pos
    obtain ⟨levels, rfl⟩ : ∃ k, levels = k + 1 := ⟨levels - 1, by omega⟩
    have hholds : Holds Means RecordType.functionDeclaration.fields
        (name, before ++ param :: after, x, ()) content :=
      (holds_triple_iff rfl rfl rfl).mpr ⟨_, _, body, hrecord, rfl, rfl, hbody⟩
    have hrepeat : firstRepeat [] (before ++ param :: after) = some param :=
      firstRepeat_append hdistinct (by simp) (.inl hparam) after
    change decodeRecord (levels + 1) _ RecordType.functionDeclaration.fields content >>= _ = _
    rw [decodeRecord_of_holds hholds hlevels]
    change (Expr.ofFunction name (before ++ param :: after) x).mapError DecodeError.invalid = _
    rw [Expr.ofFunction, hrepeat]
    rfl

/-! Every part of an encoded expression stands in a place -/

theorem Record.exists_slot {contents : List (String × Json)} {content json : Json} {key : String}
    (h : Record contents content) (order : List String) (index : Nat)
    (hcontent : contents[index]? = some (key, json)) (horder : order[index]? = some key) :
    ∃ slot : Slot order key, content = slot.fill json := by
  cases h with
  | @object members hmembers =>
    have hlookup : members.lookup key = some json :=
      hmembers (key, json) (List.mem_of_getElem? hcontent)
    obtain ⟨before, after, rfl, hbefore⟩ := List.lookup_eq_some_iff.mp hlookup
    have hfirst (other : String × Json) (hother : other ∈ before) : other.1 ≠ key :=
      (bne_iff_ne.mp (hbefore other hother)).symm
    exact ⟨.member before after hfirst, rfl⟩
  | array =>
    obtain ⟨hindex, hget⟩ := List.getElem?_eq_some_iff.mp hcontent
    have hlength : (contents.take index).length = index := by
      rw [List.length_take]
      omega
    refine ⟨.item ((contents.take index).map Prod.snd) ((contents.drop (index + 1)).map Prod.snd) ?_, ?_⟩
    · rw [List.length_map, hlength, horder]
    · have hsplit : contents = contents.take index ++ (key, json) :: contents.drop (index + 1) := by
        rw [← hget, ← List.drop_eq_getElem_cons hindex, List.take_append_drop]
      unfold Slot.fill
      conv_lhs => rw [hsplit]
      simp

section Parts

variable {tag key : String} {order : List String} {contents : List (String × Json)}
  {content part : Json} {x : Expr}

theorem exists_layer_of_field (kind : ExprField tag order key) (hrecord : Record contents content)
    (index : Nat) (hcontent : contents[index]? = some (key, part)) (horder : order[index]? = some key)
    (hpart : Encodes part x) :
    ∃ (layer : Layer) (part : Json), .object [(tag, content)] = layer.around part ∧ Encodes part x := by
  obtain ⟨slot, rfl⟩ := hrecord.exists_slot order index hcontent horder
  exact ⟨.field kind slot, part, rfl, hpart⟩

theorem exists_layer_of_test {op : String} {left right test : Json} {l r : Expr}
    (kind : TestField tag order) (hrecord : Record contents content)
    (hcontent : contents[0]? = some ("test", test)) (horder : order[0]? = some "test")
    (htest : Record [("op", .string op), ("left", left), ("right", right)] test)
    (hl : Encodes left l) (hr : Encodes right r) (hx : x = l ∨ x = r) :
    ∃ (layer : Layer) (part : Json), .object [(tag, content)] = layer.around part ∧ Encodes part x := by
  obtain ⟨slot, rfl⟩ := hrecord.exists_slot order 0 hcontent horder
  rcases hx with rfl | rfl
  · obtain ⟨within, rfl⟩ := htest.exists_slot ["op", "left", "right"] 1 rfl rfl
    exact ⟨.test kind slot (.inl rfl) within, left, rfl, hl⟩
  · obtain ⟨within, rfl⟩ := htest.exists_slot ["op", "left", "right"] 2 rfl rfl
    exact ⟨.test kind slot (.inr rfl) within, right, rfl, hr⟩

end Parts

theorem exists_layer_of_part {json : Json} {e x : Expr} (h : Encodes json e) (hx : x ∈ e.parts) :
    ∃ (layer : Layer) (part : Json), json = layer.around part ∧ Encodes part x := by
  cases h with
  | literal | var => simp at hx
  | block hne hitems =>
    obtain ⟨item, hmem, hitem⟩ := ParseTree.exists_mem_of_forall₂ hitems hx
    obtain ⟨before, after, rfl⟩ := List.append_of_mem hmem
    exact ⟨.element before after, item, rfl, hitem⟩
  | unary hrecord _ hpart | unaryNull hrecord hpart =>
    obtain rfl := List.mem_singleton.mp hx
    exact exists_layer_of_field .leftOperand hrecord 1 rfl rfl hpart
  | binary hrecord hl hr =>
    simp only [Expr.parts, List.mem_cons, List.not_mem_nil, or_false] at hx
    rcases hx with rfl | rfl
    · exact exists_layer_of_field .leftOperand hrecord 1 rfl rfl hl
    · exact exists_layer_of_field .rightOperand hrecord 2 rfl rfl hr
  | assignment hrecord hpart =>
    obtain rfl := List.mem_singleton.mp hx
    exact exists_layer_of_field .assigned hrecord 1 rfl rfl hpart
  | condition hrecord hl hr =>
    simp only [Expr.parts, List.mem_cons, List.not_mem_nil, or_false] at hx
    rcases hx with rfl | rfl
    · exact exists_layer_of_field .leftCompared hrecord 1 rfl rfl hl
    · exact exists_layer_of_field .rightCompared hrecord 2 rfl rfl hr
  | ifElse hrecord htest hl hr ht he =>
    simp only [Expr.parts, List.mem_cons, List.not_mem_nil, or_false] at hx
    rcases hx with hx | hx | rfl | rfl
    · exact exists_layer_of_test .branch hrecord rfl rfl htest hl hr (.inl hx)
    · exact exists_layer_of_test .branch hrecord rfl rfl htest hl hr (.inr hx)
    · exact exists_layer_of_field .thenBranch hrecord 1 rfl rfl ht
    · exact exists_layer_of_field .elseBranch hrecord 2 rfl rfl he
  | whileLoop hrecord htest hl hr hpart =>
    simp only [Expr.parts, List.mem_cons, List.not_mem_nil, or_false] at hx
    rcases hx with hx | hx | rfl
    · exact exists_layer_of_test .loop hrecord rfl rfl htest hl hr (.inl hx)
    · exact exists_layer_of_test .loop hrecord rfl rfl htest hl hr (.inr hx)
    · exact exists_layer_of_field .loopBody hrecord 1 rfl rfl hpart
  | functionDeclaration hrecord _ hpart =>
    obtain rfl := List.mem_singleton.mp hx
    exact exists_layer_of_field .functionBody hrecord 2 rfl rfl hpart
  | functionInvocation hrecord hargs =>
    obtain ⟨arg, hmem, harg⟩ := ParseTree.exists_mem_of_forall₂ hargs hx
    obtain ⟨before, after, rfl⟩ := List.append_of_mem hmem
    obtain ⟨slot, rfl⟩ := hrecord.exists_slot ["name", "args"] 1 rfl rfl
    exact ⟨.argument slot before after, arg, rfl, harg⟩

theorem exists_inside_of_within {json : Json} {e x : Expr} (h : Encodes json e)
    (hx : Expr.Within x e) : ∃ layers part, json = inside layers part ∧ Encodes part x := by
  induction hx generalizing json with
  | refl => exact ⟨[], json, rfl, h⟩
  | tail _ hpart ih =>
    obtain ⟨layer, part, rfl, hencodes⟩ := exists_layer_of_part h hpart
    obtain ⟨layers, inner, rfl, hinner⟩ := ih hencodes
    exact ⟨layer :: layers, inner, rfl, hinner⟩

theorem decode_eq_ok_iff {json : Json} {e : Expr} : json.decode = .ok e ↔ Encodes json e :=
  decodesNodes json.depth json (Nat.le_refl _) e

/-- The value is a program whose only expression is this one, or one of whose expressions it is while
those before it are in order. -/
def InProgram (json value : Json) : Prop :=
  value = json ∨ ∃ before after, value = .array (before ++ json :: after) ∧
    ∀ other ∈ before, ∃ x, other.decode = .ok x

end Json

theorem Program.parse_eq_notJson {text : String}
    (h : nestingLimit < (Json.Document.read text).tree.nesting) :
    Program.parse text = .error .notJson := by
  unfold Program.parse
  simp only [if_neg (Nat.not_le.mpr h)]

theorem Program.parse_eq_error {text : String} {json value : Json} {error : DecodeError}
    (hvalue : (Json.Document.read text).toJson? = some value) (hin : json.InProgram value)
    (hobject : ∃ members, json = .object members) (herror : json.decode = .error error) :
    Program.parse text =
      if (Json.Document.read text).tree.nesting ≤ nestingLimit then .error (.undecodable error)
      else .error .notJson := by
  by_cases hnesting : (Json.Document.read text).tree.nesting ≤ nestingLimit
  · unfold Program.parse
    simp only [if_pos hnesting, hvalue]
    rcases hin with rfl | ⟨before, after, rfl, hbefore⟩
    · obtain ⟨members, rfl⟩ := hobject
      simp only [herror]
      rfl
    · simp only [mapM_eq_error hbefore herror]
      rfl
  · rw [if_neg hnesting]
    exact Program.parse_eq_notJson (Nat.lt_of_not_le hnesting)

open Json in
/-- Build errors surface unchanged. Every subexpression of an encoded expression stands inside of some
layers. Whatever stands inside of layers, if a faulty value is put in its place, then decoding fails with
the error of this value and with the text of that error. So does reading a program that has the value as
its only expression, or as one after others that are in order, unless the text nests more than 127 arrays
and objects: then it is not read as JSON at all. -/
theorem build_errors_surface {json : Json} {e : Expr} (h : json.decode = .ok e) :
    (∀ x, Expr.Within x e → ∃ layers part, json = inside layers part ∧ part.decode = .ok x) ∧
    ∀ layers old, json = inside layers old → ∀ bad error, Faulty bad error →
      (inside layers bad).decode = .error (.invalid error) ∧
      (DecodeError.invalid error).message = error.message ∧
      ∀ text value, (Document.read text).toJson? = some value → (inside layers bad).InProgram value →
        Program.parse text =
          if (Document.read text).tree.nesting ≤ 127 then .error (.undecodable (.invalid error))
          else .error .notJson := by
  have hencodes := decode_eq_ok_iff.mp h
  constructor
  · intro x hx
    obtain ⟨layers, part, hjson, hpart⟩ := exists_inside_of_within hencodes hx
    exact ⟨layers, part, hjson, decode_eq_ok_iff.mpr hpart⟩
  · rintro layers old rfl bad error hbad
    have hdecode : (inside layers bad).decode = .error (.invalid error) :=
      fails_inside hencodes hbad.fails _ (Nat.le_refl _)
    refine ⟨hdecode, rfl, fun text value hvalue hin => ?_⟩
    exact Program.parse_eq_error hvalue hin (hbad.exists_object layers) hdecode

open Json in
/-- A name is repeated in a declaration below the test of a loop below an argument, and the program has
one more fault after it. -/
theorem build_errors_surface_nested :
    let x := Json.object [("variable", .string "x")]
    let layers : List Layer := [
      .argument (.member [("note", .null), ("name", .string "g")] [] (by decide)) [x] [],
      .test .loop (.item [] [x] rfl) (.inr rfl)
        (.member [("left", x), ("op", .string "lt")] [] (by decide))]
    let bad := Json.object [("function_declaration", .array
      [.string "f", .array [.string "a", .string "b", .string "b", .string "a"], x])]
    let text := (Json.array [x, inside layers bad, .object [("block", .array [])]]).compact
    (∃ e, (inside layers x).decode = .ok e) ∧
      (inside layers bad).decode = .error (.invalid (.duplicateParameter "f" "b")) ∧
      Program.parse text = .error (.undecodable (.invalid (.duplicateParameter "f" "b"))) := by
  intro x layers bad text
  have hold : (inside layers x).decode =
      .ok (.call "g" [.var "x", .loop "lt" (.var "x") (.var "x") (.var "x")]) := rfl
  have hbad : Faulty bad (.duplicateParameter "f" "b") := by
    have hrecord : Record [("name", .string "f"), ("params", .array ((["a", "b"] ++ "b" :: ["a"]).map
        .string)), ("body", x)] (.array [.string "f", .array [.string "a", .string "b", .string "b",
        .string "a"], x]) := .array
    exact .duplicateParameter hrecord (by decide) (by decide) .var
  have hread : Document.read text = ⟨_, true⟩ := read_compact _
  have hvalue : (Document.read text).toJson? =
      some (.array [x, inside layers bad, .object [("block", .array [])]]) := by
    rw [hread]
    rfl
  have hin : (inside layers bad).InProgram
      (.array [x, inside layers bad, .object [("block", .array [])]]) :=
    .inr ⟨[x], _, rfl, List.forall_mem_singleton.mpr ⟨.var "x", rfl⟩⟩
  obtain ⟨hdecode, -, hparse⟩ := (build_errors_surface hold).2 layers x rfl bad _ hbad
  refine ⟨⟨_, hold⟩, hdecode, ?_⟩
  rw [hparse text _ hvalue hin, hread]
  rfl

namespace Json

def inBlocks (n : Nat) (json : Json) : Json := inside (List.replicate n (.element [] [])) json

theorem inBlocks_succ (n : Nat) (json : Json) :
    inBlocks (n + 1) json = .object [("block", .array [inBlocks n json])] := rfl

theorem encodes_inBlocks (n : Nat) {json : Json} {e : Expr} (h : Encodes json e) :
    Encodes (inBlocks n json) ((fun x => .block [x])^[n] e) := by
  induction n with
  | zero => exact h
  | succ n ih =>
    rw [Function.iterate_succ_apply', inBlocks_succ]
    exact .block (by simp) (.cons ih .nil)

theorem tree_inBlocks (n : Nat) {json : Json} (h : json.tree.toJson? = some json) :
    (inBlocks n json).tree.toJson? = some (inBlocks n json) ∧
      (inBlocks n json).tree.nesting = 2 * n + json.tree.nesting := by
  induction n with
  | zero => exact ⟨h, (Nat.zero_add _).symm⟩
  | succ n ih =>
    obtain ⟨htoJson, hnesting⟩ := ih
    simp only [inBlocks_succ, tree, treeMembers, treeItems]
    constructor
    · simp only [ParseTree.toJson?, ParseTree.toJsonMembers?, ParseTree.toJsonItems?, htoJson]
      rfl
    · simp only [ParseTree.nesting, ParseTree.nestingMembers, ParseTree.nestingItems, hnesting]
      omega

end Json

theorem Program.parse_compact {members : List (String × Json)} {e : Expr}
    (hvalue : (Json.object members).tree.toJson? = some (.object members))
    (hnesting : (Json.object members).tree.nesting ≤ nestingLimit)
    (hdecode : (Json.object members).decode = .ok e) :
    Program.parse (Json.object members).compact = .ok [e] := by
  unfold Program.parse
  simp only [Json.read_compact, Json.Document.toJson?, if_true, if_pos hnesting, hvalue, hdecode]
  rfl

open Json in
/-- A variable below 63 blocks is a program. With an empty block in its place the text nests one level
more, which is too many, and the error of that block does not show. -/
theorem build_errors_hidden_by_nesting :
    let layers : List Layer := List.replicate 63 (.element [] [])
    let old := Json.object [("variable", .string "x")]
    let bad := Json.object [("block", .array [])]
    (∃ e, (inside layers old).decode = .ok e ∧ Program.parse (inside layers old).compact = .ok [e]) ∧
      Faulty bad .emptyBlock ∧
      (Document.read (inside layers bad).compact).toJson? = some (inside layers bad) ∧
      Program.parse (inside layers bad).compact = .error .notJson := by
  intro layers old bad
  have hbad : Faulty bad .emptyBlock := .emptyBlock
  have hdecode := decode_eq_ok_iff.mpr (encodes_inBlocks 63 (.var : Encodes old (.var "x")))
  obtain ⟨hold, hfits⟩ := tree_inBlocks 63 (show old.tree.toJson? = some old from rfl)
  obtain ⟨hvalue, hdeep⟩ := tree_inBlocks 63 (show bad.tree.toJson? = some bad from rfl)
  have hread : (Document.read (inBlocks 63 bad).compact).toJson? = some (inBlocks 63 bad) := by
    rw [read_compact]
    exact hvalue
  refine ⟨⟨_, hdecode, ?_⟩, hbad, hread, ?_⟩
  · change Program.parse (inBlocks 63 old).compact = _
    rw [inBlocks_succ] at hold hfits hdecode ⊢
    exact Program.parse_compact hold (hfits.trans_le (by decide)) hdecode
  · change Program.parse (inBlocks 63 bad).compact = _
    apply Program.parse_eq_notJson
    rw [read_compact, hdeep]
    decide

end Reckoner
