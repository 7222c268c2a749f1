import Reckoner.Program
import Reckoner.Proofs.WellBuilt

/-! What is read was built: every expression that comes from a JSON value, from a text or from a
program file comes out of the constructors that check their parts. The two readers fill the same
records, so what the record types build is settled once for both. -/

namespace Reckoner

variable {α β γ ε δ : Type}

/-- If there is a result, it satisfies `P`. -/
def Yields (P : α → Prop) (x : Except ε α) : Prop := ∀ a, x = .ok a → P a

namespace Yields

variable {P : α → Prop} {Q : β → Prop}

theorem ok {a : α} (h : P a) : Yields P (.ok a : Except ε α) := by
  rintro _ ⟨⟩
  exact h

theorem error {e : ε} : Yields P (.error e) := nofun

theorem bind {x : Except ε α} {f : α → Except ε β} (hx : Yields P x)
    (hf : ∀ a, P a → Yields Q (f a)) : Yields Q (x >>= f) := by
  cases x with
  | error e => exact error
  | ok a => exact hf a (hx a rfl)

theorem map {x : Except ε α} {f : α → β} (hx : Yields P x) (hf : ∀ a, P a → Q (f a)) :
    Yields Q (x.map f) := by
  cases x with
  | error e => exact error
  | ok a => exact ok (hf a (hx a rfl))

theorem mapError {x : Except ε α} {f : ε → δ} (hx : Yields P x) : Yields P (x.mapError f) := by
  cases x with
  | error e => exact error
  | ok a => exact ok (hx a rfl)

theorem mapM {f : γ → Except ε α} {l : List γ} (h : ∀ a ∈ l, Yields P (f a)) :
    Yields (fun bs => ∀ b ∈ bs, P b) (l.mapM f) := by
  induction l with
  | nil => exact ok (by simp)
  | cons a l ih =>
    rw [List.mapM_cons]
    refine bind (h a (by simp)) fun b hb => ?_
    refine bind (ih fun c hc => h c (by simp [hc])) fun bs hbs => ?_
    exact ok (by simpa using ⟨hb, hbs⟩)

theorem foldlM {f : α → γ → Except ε α} {l : List γ} {a : α} (ha : P a)
    (h : ∀ a c, P a → Yields P (f a c)) : Yields P (l.foldlM f a) := by
  induction l generalizing a with
  | nil => exact ok ha
  | cons c l ih =>
    rw [List.foldlM_cons]
    exact bind (h a c ha) fun b hb => ih hb

end Yields

/-! Fields and records -/

/-- The expressions in the value of a field were built. -/
def Content.Built : (content : Content) → content.Carrier → Prop
  | text, _ | names, _ => True
  | expr, e => e.Built
  | optionalExpr, found => ∀ e ∈ found, e.Built
  | condition, test => test.left.Built ∧ test.right.Built
  | exprs, es => ∀ e ∈ es, e.Built

def Values.Built : (fields : List Field) → Values fields → Prop
  | [], _ => True
  | field :: rest, (value, values) => field.content.Built value ∧ Built rest values

def Slots.Built : (fields : List Field) → Slots fields → Prop
  | [], _ => True
  | field :: rest, (slot, slots) => (∀ value ∈ slot, field.content.Built value) ∧ Built rest slots

theorem Content.built_of_absent? {content : Content} {value : content.Carrier}
    (h : content.absent? = some value) : content.Built value := by
  cases content with
  | optionalExpr =>
    cases h
    simp [Built]
  | _ => cases h

/-- Fields of every content have built values if those that hold expressions do. An operand that may
be missing is read like one that has to be there. -/
theorem Content.yields_read (read : (content : Content) → Except ε content.Carrier)
    (hexpr : Yields Expr.Built (read .expr))
    (hoptional : read .optionalExpr = .ok none ∨ read .optionalExpr = (read .expr).map some)
    (hcondition : Yields (Built .condition) (read .condition))
    (hexprs : Yields (Built .exprs) (read .exprs)) (content : Content) :
    Yields content.Built (read content) := by
  cases content with
  | text | names => exact fun _ _ => trivial
  | expr => exact hexpr
  | optionalExpr =>
    rcases hoptional with hnone | hsome
    · rw [hnone]
      exact .ok (by simp [Built])
    · rw [hsome]
      exact hexpr.map fun e he => by simpa [Built] using he
  | condition => exact hcondition
  | exprs => exact hexprs

theorem Slots.built_empty (fields : List Field) : (Slots.empty fields).Built := by
  induction fields with
  | nil => trivial
  | cons field rest ih => exact ⟨by simp, ih⟩

def Slots.push {field : Field} {rest : List Field} (slot : Option field.content.Carrier)
    (slots : Slots rest) : Slots (field :: rest) := (slot, slots)

theorem Slots.close_push {field : Field} {rest : List Field} (slot : Option field.content.Carrier)
    (slots : Slots rest) :
    (slots.push slot).close =
      match slot.or field.content.absent? with
      | some value => slots.close.map fun values => (value, values)
      | none => .error field.key := rfl

theorem Slots.fill_push (read : (content : Content) → Except ε content.Carrier) (repeated : ε)
    (key : String) {field : Field} {rest : List Field} (slot : Option field.content.Carrier)
    (slots : Slots rest) :
    (slots.push slot).fill read repeated key =
      if field.key = key then
        match slot with
        | some _ => some (.error repeated)
        | none => some ((read field.content).map fun value => slots.push (some value))
      else (slots.fill read repeated key).map fun filled => filled.map (push slot) := rfl

theorem Slots.yields_close {fields : List Field} {slots : Slots fields} (h : slots.Built) :
    Yields (Values.Built fields) slots.close := by
  induction fields with
  | nil => exact .ok trivial
  | cons field rest ih =>
    obtain ⟨slot, slots⟩ := slots
    change Yields _ (slots.push slot).close
    rw [Slots.close_push]
    split
    next value hvalue =>
      refine (ih h.2).map fun values hvalues => ⟨?_, hvalues⟩
      rcases Option.or_eq_some_iff.mp hvalue with hslot | ⟨_, habsent⟩
      · exact h.1 value hslot
      · exact Content.built_of_absent? habsent
    next => exact .error

theorem Slots.yields_fill {read : (content : Content) → Except ε content.Carrier}
    (hread : ∀ content, Yields content.Built (read content)) {repeated : ε} {key : String}
    {fields : List Field} {slots : Slots fields} (h : slots.Built)
    {filled : Except ε (Slots fields)} (hfill : slots.fill read repeated key = some filled) :
    Yields (Slots.Built fields) filled := by
  induction fields with
  | nil => cases hfill
  | cons field rest ih =>
    obtain ⟨slot, slots⟩ := slots
    change (slots.push slot).fill read repeated key = some filled at hfill
    rw [Slots.fill_push] at hfill
    split at hfill
    · split at hfill
      · cases hfill
        exact .error
      · cases hfill
        exact (hread field.content).map fun value hvalue => ⟨by simpa using hvalue, h.2⟩
    · obtain ⟨others, hothers, rfl⟩ := Option.map_eq_some_iff.mp hfill
      exact (ih h.2 hothers).map fun slots hslots => ⟨h.1, hslots⟩

theorem Values.yields_ofItems {ν : Type} {read : (content : Content) → ν → Except ε content.Carrier}
    (hread : ∀ content item, Yields content.Built (read content item)) (short : ε)
    (fields : List Field) (items : List ν) :
    Yields (fun found => Values.Built fields found.1) (Values.ofItems read short fields items) := by
  induction fields generalizing items with
  | nil => exact .ok trivial
  | cons field rest ih =>
    cases items with
    | nil =>
      unfold Values.ofItems
      split
      next value habsent =>
        exact (ih []).map fun found hfound => ⟨Content.built_of_absent? habsent, hfound⟩
      next => exact .error
    | cons item items =>
      refine .bind (hread field.content item) fun value hvalue => ?_
      exact .bind (ih items) fun found hfound => .ok ⟨hvalue, hfound⟩

theorem Values.yields_ofItems_isEmpty {ν : Type}
    {read : (content : Content) → ν → Except ε content.Carrier}
    (hread : ∀ content item, Yields content.Built (read content item)) (short long : ε)
    (fields : List Field) (items : List ν) :
    Yields (Values.Built fields) (Values.ofItems read short fields items >>= fun found =>
      if found.2.isEmpty then pure found.1 else .error long) := by
  refine .bind (yields_ofItems hread short fields items) fun found hfound => ?_
  split
  · exact .ok hfound
  · exact .error

namespace RecordType

/-- Reads the fields of a record with `record`, and builds what they make. -/
def read {ν : Type} (type : RecordType α) (invalid : BuildError → ε)
    (record : (title : String) → (fields : List Field) → ν → Except ε (Values fields)) (item : ν) :
    Except ε α := do
  let values ← record type.title type.fields item
  (type.build values).mapError invalid

theorem yields_read {ν : Type} {type : RecordType α} {P : α → Prop}
    (hbuild : ∀ values : Values type.fields, values.Built → Yields P (type.build values))
    {record : (title : String) → (fields : List Field) → ν → Except ε (Values fields)} {item : ν}
    (hrecord : ∀ title fields, Yields (Values.Built fields) (record title fields item))
    (invalid : BuildError → ε) : Yields P (type.read invalid record item) :=
  .bind (hrecord _ _) fun values hvalues => (hbuild values hvalues).mapError

theorem yields_condition {values : Values condition.fields} (h : values.Built) :
    Yields (Content.Built .condition) (condition.build values) := by
  obtain ⟨op, left, right, ⟨⟩⟩ := values
  exact .ok ⟨h.2.1, h.2.2.1⟩

end RecordType

theorem NodeShape.mem_nodeShapes {tag : String} {shape : NodeShape}
    (htag : ofTag? tag = some shape) : (tag, shape) ∈ nodeShapes := by
  obtain ⟨before, after, hshapes, -⟩ := List.lookup_eq_some_iff.mp htag
  rw [hshapes]
  simp

theorem RecordType.mem_of_ofTag? {tag : String} {type : RecordType Expr}
    (htag : NodeShape.ofTag? tag = some (.record type)) :
    type ∈ [arithmetic, assignment, comparison, ifElse, whileLoop, functionDeclaration,
      functionInvocation] := by
  have hmem := NodeShape.mem_nodeShapes htag
  simp only [nodeShapes, List.mem_cons, Prod.mk.injEq, reduceCtorEq, NodeShape.record.injEq,
    and_false, false_or, List.not_mem_nil, or_false] at hmem ⊢
  grind

/-- The record types of the nodes build what their constructors do. -/
theorem RecordType.yields_build {tag : String} {type : RecordType Expr}
    (htag : NodeShape.ofTag? tag = some (.record type)) {values : Values type.fields}
    (h : values.Built) : Yields Expr.Built (type.build values) := by
  have hmem := mem_of_ofTag? htag
  simp only [List.mem_cons, List.not_mem_nil, or_false] at hmem
  rcases hmem with rfl | rfl | rfl | rfl | rfl | rfl | rfl
  · obtain ⟨op, left, right | right, ⟨⟩⟩ := values
    · exact .ok (.unary op h.2.1)
    · exact .ok (.binary op h.2.1 (h.2.2.1 right rfl))
  · obtain ⟨name, value, ⟨⟩⟩ := values
    exact .ok (.assign name h.2.1)
  · exact (yields_condition h).map fun test htest => .condition test htest.1 htest.2
  · obtain ⟨test, onTrue, onFalse, ⟨⟩⟩ := values
    exact .ok (.ifElse test h.1.1 h.1.2 h.2.1 h.2.2.1)
  · obtain ⟨test, body, ⟨⟩⟩ := values
    exact .ok (.whileLoop test h.1.1 h.1.2 h.2.1)
  · obtain ⟨name, params, body, ⟨⟩⟩ := values
    exact fun e he => .function h.2.2.1 he
  · obtain ⟨name, args, ⟨⟩⟩ := values
    exact .ok (.call name h.2.1)

theorem Expr.yields_ofBlock {body : List Expr} (h : ∀ x ∈ body, x.Built) :
    Yields Expr.Built (Expr.ofBlock body) :=
  fun _ he => .block h he

/-- Reads the content of a node of a known kind, given the readers of all that it may hold. -/
def NodeShape.read {ν : Type} (invalid : BuildError → ε) (number : ν → Except ε Float)
    (text : ν → Except ε String) (exprs : ν → Except ε (List Expr))
    (record : (title : String) → (fields : List Field) → ν → Except ε (Values fields)) (item : ν) :
    NodeShape → Except ε Expr
  | .number => (number item).map .literal
  | .name => (text item).map .var
  | .sequence => do
      let body ← exprs item
      (Expr.ofBlock body).mapError invalid
  | .record type => type.read invalid record item

theorem NodeShape.yields_read {ν : Type} {tag : String} {shape : NodeShape}
    (htag : ofTag? tag = some shape) {exprs : ν → Except ε (List Expr)}
    {record : (title : String) → (fields : List Field) → ν → Except ε (Values fields)} {item : ν}
    (hexprs : Yields (Content.Built .exprs) (exprs item))
    (hrecord : ∀ title fields, Yields (Values.Built fields) (record title fields item))
    (invalid : BuildError → ε) (number : ν → Except ε Float) (text : ν → Except ε String) :
    Yields Expr.Built (shape.read invalid number text exprs record item) := by
  cases shape with
  | number => exact Yields.map (P := fun _ => True) (fun _ _ => trivial) fun x _ => .literal x
  | name => exact Yields.map (P := fun _ => True) (fun _ _ => trivial) fun name _ => .var name
  | sequence => exact .bind hexprs fun body hbody => (Expr.yields_ofBlock hbody).mapError
  | record type => exact type.yields_read (fun _ => RecordType.yields_build htag) hrecord invalid

/-! Values -/

namespace Json

theorem built_readFields {read : (content : Content) → Json → Except DecodeError content.Carrier}
    (hread : ∀ content json, Yields content.Built (read content json))
    (members : List (String × Json)) (fields : List Field) :
    (readFields read members fields).1.Built := by
  induction fields with
  | nil => trivial
  | cons field rest ih =>
    unfold readFields
    simp only
    split
    · exact ⟨by simp, ih⟩
    next value hvalue =>
      obtain ⟨json, _, hjson⟩ := Option.map_eq_some_iff.mp hvalue
      exact ⟨by simpa using hread field.content json value hjson, ih⟩
    · exact ⟨by simp, ih⟩

theorem yields_decodeMembers
    {read : (content : Content) → Json → Except DecodeError content.Carrier}
    (hread : ∀ content json, Yields content.Built (read content json)) (fields : List Field)
    (members : List (String × Json)) :
    Yields (Values.Built fields) (decodeMembers read fields members) := by
  unfold decodeMembers
  simp only
  split
  · exact .error
  · exact (Slots.yields_close (built_readFields hread members fields)).mapError

def contentReader (levels : Nat) : (content : Content) → Json → Except DecodeError content.Carrier :=
  decodeContent (decodeNode levels) (RecordType.condition.read .invalid (decodeRecord levels))
    (decodeExprs levels)

def decodeShape (levels : Nat) : Json → NodeShape → Except DecodeError Expr :=
  NodeShape.read .invalid decodeNumber decodeText (decodeExprs levels) (decodeRecord levels)

theorem decodeNode_tagged (levels : Nat) (tag : String) (content : Json) :
    decodeNode (levels + 1) (.object [(tag, content)]) =
      match NodeShape.ofTag? tag with
      | none => .error (.unknownTag tag)
      | some shape => decodeShape levels content shape := by
  rw [decodeNode]
  cases NodeShape.ofTag? tag with
  | none => rfl
  | some shape => cases shape <;> rfl

theorem yields_decode_levels (levels : Nat) :
    (∀ json, Yields Expr.Built (decodeNode levels json)) ∧
    (∀ title fields json, Yields (Values.Built fields) (decodeRecord levels title fields json)) ∧
    ∀ json, Yields (fun es => ∀ e ∈ es, e.Built) (decodeExprs levels json) := by
  induction levels with
  | zero =>
    refine ⟨fun json => ?_, fun title fields json => .error, fun json => ?_⟩
    · unfold decodeNode
      split
      · contradiction
      · exact .error
      · split <;> exact .error
      · exact .error
    · cases json <;> exact .error
  | succ levels ih =>
    obtain ⟨hnode, hrecord, hexprs⟩ := ih
    refine ⟨fun json => ?_, fun title fields json => ?_, fun json => ?_⟩
    · match json with
      | .object [(tag, content)] =>
        rw [decodeNode_tagged]
        split
        · exact .error
        next shape htag =>
          exact NodeShape.yields_read htag (hexprs content) (hrecord · · content) _ _ _
      | .string tag =>
        unfold decodeNode
        split <;> exact .error
      | .object [] | .object (_ :: _ :: _) => exact .error
      | .null | .bool _ | .integer _ | .float _ | .array _ => exact .error
    · have hread (content : Content) (json : Json) :
          Yields content.Built (contentReader levels content json) := by
        refine Content.yields_read (contentReader levels · json) (hnode json) ?_ ?_ (hexprs json) content
        · cases json with
          | null => exact .inl rfl
          | _ => exact .inr rfl
        · exact RecordType.yields_read (fun _ => RecordType.yields_condition) (hrecord · · json) _
      cases json with
      | object members => exact yields_decodeMembers hread fields members
      | array items => exact Values.yields_ofItems_isEmpty hread _ _ fields items
      | _ => exact .error
    · cases json with
      | array items => exact .mapM fun item _ => hnode item
      | _ => exact .error

theorem yields_decode (json : Json) : Yields Expr.Built json.decode :=
  (yields_decode_levels json.depth).1 json

end Json

/-! Texts -/

namespace Json.ParseTree

theorem yields_readMember
    {read : (content : Content) → ParseTree → Except SourceError content.Carrier}
    (hread : ∀ content tree, Yields content.Built (read content tree)) {fields : List Field}
    {slots : Slots fields} (h : slots.Built) (member : Option String × ParseTree) :
    Yields (Slots.Built fields) (readMember read fields slots member) := by
  obtain ⟨none | key, value⟩ := member
  · exact .error
  · simp only [readMember]
    split
    next filled hfill => exact Slots.yields_fill (fun content => hread content value) h hfill
    next =>
      split
      · exact .ok h
      · exact .error

theorem yields_readMembers
    {read : (content : Content) → ParseTree → Except SourceError content.Carrier}
    (hread : ∀ content tree, Yields content.Built (read content tree)) (fields : List Field)
    (members : List (Option String × ParseTree)) :
    Yields (Values.Built fields) (readMembers read fields members) := by
  refine .bind (.foldlM (Slots.built_empty fields) fun slots member hslots =>
    yields_readMember hread hslots member) fun slots hslots => ?_
  exact (Slots.yields_close hslots).mapError

def contentReader (levels : Nat) :
    (content : Content) → ParseTree → Except SourceError content.Carrier :=
  readContent (readNode levels)
    (RecordType.condition.read .invalid fun _ fields => readRecord levels fields)
    (readNames levels) (readExprs levels)

def readShape (levels : Nat) : ParseTree → NodeShape → Except SourceError Expr :=
  NodeShape.read .invalid readNumber readText (readExprs levels)
    fun _ fields => readRecord levels fields

theorem readNode_tagged (levels : Nat) (tag : String) (content : ParseTree)
    (more : List (Option String × ParseTree)) :
    readNode (levels + 1) (.object ((some tag, content) :: more)) =
      (match NodeShape.ofTag? tag with
        | none => .error .rejected
        | some shape => readShape levels content shape) >>= fun e =>
      if more.isEmpty then pure e else .error .rejected := by
  rw [readNode]
  cases NodeShape.ofTag? tag with
  | none => rfl
  | some shape =>
    cases shape with
    | sequence | record => simp only [readShape, NodeShape.read, RecordType.read, bind_assoc]
    | _ => rfl

theorem yields_read_levels (levels : Nat) :
    (∀ tree, Yields Expr.Built (readNode levels tree)) ∧
    (∀ fields tree, Yields (Values.Built fields) (readRecord levels fields tree)) ∧
    ∀ tree, Yields (fun es => ∀ e ∈ es, e.Built) (readExprs levels tree) := by
  induction levels with
  | zero => exact ⟨fun _ => .error, fun _ _ => .error, fun _ => .error⟩
  | succ levels ih =>
    obtain ⟨hnode, hrecord, hexprs⟩ := ih
    refine ⟨fun tree => ?_, fun fields tree => ?_, fun tree => ?_⟩
    · match tree with
      | .object ((some tag, content) :: more) =>
        rw [readNode_tagged]
        refine .bind (P := Expr.Built) ?_ fun e he => ?_
        · split
          · exact .error
          next shape htag =>
            exact NodeShape.yields_read htag (hexprs content) (fun _ fields => hrecord fields content) _ _ _
        · cases more with
          | nil => exact .ok he
          | cons => exact .error
      | .object [] | .object ((none, _) :: _) => exact .error
      | .null | .bool _ | .numeral _ | .string _ | .array _ | .malformed => exact .error
    · have hread (content : Content) (tree : ParseTree) :
          Yields content.Built (contentReader levels content tree) := by
        refine Content.yields_read (contentReader levels · tree) (hnode tree) ?_ ?_ (hexprs tree) content
        · cases tree with
          | null => exact .inl rfl
          | _ => exact .inr rfl
        · exact RecordType.yields_read (fun _ => RecordType.yields_condition)
            (fun _ fields => hrecord fields tree) _
      cases tree with
      | object members => exact yields_readMembers hread fields members
      | array items => exact Values.yields_ofItems_isEmpty hread _ _ fields items
      | _ => exact .error
    · cases tree with
      | array items => exact .mapM fun item _ => hnode item
      | _ => exact .error

end Json.ParseTree

theorem yields_ofSource (text : String) : Yields Expr.Built (Expr.ofSource text) := by
  refine .bind ((Json.ParseTree.yields_read_levels nestingLimit).1 _) fun e he => ?_
  split
  · exact .ok he
  · exact .error

theorem Program.yields_parse (text : String) :
    Yields (fun program => ∀ e ∈ program, e.Built) (Program.parse text) := by
  unfold Program.parse
  simp only
  split
  · exact .error
  · exact (Yields.mapM fun json _ => json.yields_decode).mapError
  next json _ _ =>
    exact (json.yields_decode.map fun e he => by simpa using he).mapError

end Reckoner
