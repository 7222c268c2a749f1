import Reckoner.Expr.Encode
import Reckoner.Proofs.Guarded
import Reckoner.Proofs.Literals
import Reckoner.Proofs.Records

/-! Reading what was encoded. Values and texts have readers of their own, which go down through the
arrays and the objects in the same steps and get the fields of a record from its members. What such a
reader makes of an encoded expression is settled here for both. -/

namespace Reckoner

theorem Expr.toJsons_eq_map (es : List Expr) : toJsons es = es.map toJson := by
  induction es with
  | nil => rfl
  | cons e es ih => rw [toJsons, ih, List.map_cons]

namespace Json

mutual

/-- How many arrays and objects stand inside each other. -/
def nesting : Json → Nat
  | array items => nestingItems items + 1
  | object members => nestingMembers members + 1
  | _ => 0

def nestingItems : List Json → Nat
  | [] => 0
  | item :: rest => max (nesting item) (nestingItems rest)

def nestingMembers : List (String × Json) → Nat
  | [] => 0
  | (_, value) :: rest => max (nesting value) (nestingMembers rest)

end

theorem nestingItems_toJsons_le (es : List Expr) (levels : Nat) :
    nestingItems (Expr.toJsons es) ≤ levels ↔ ∀ e ∈ es, e.toJson.nesting ≤ levels := by
  induction es with
  | nil => simp [Expr.toJsons, nestingItems]
  | cons e es ih => rw [Expr.toJsons, nestingItems, Nat.max_le, ih, List.forall_mem_cons]

theorem nestingItems_strings (names : List String) : nestingItems (names.map .string) = 0 := by
  induction names with
  | nil => rfl
  | cons name names ih => simp [nestingItems, nesting, ih]

end Json

namespace Expr

/-- All literals are finite, and no more arrays and objects are inside each other than there are
levels. -/
def Legible (levels : Nat) (e : Expr) : Prop := e.FiniteLiterals ∧ e.toJson.nesting ≤ levels

/-- The same, told by the levels that a node takes before its parts. -/
def LegibleParts (levels : Nat) : Expr → Prop
  | literal x => 1 ≤ levels ∧ x.isFinite = true
  | var _ => 1 ≤ levels
  | unary _ x | assign _ x => 2 ≤ levels ∧ Legible (levels - 2) x
  | binary _ l r | compare _ l r => 2 ≤ levels ∧ Legible (levels - 2) l ∧ Legible (levels - 2) r
  | branch _ l r t e =>
      2 ≤ levels ∧ (1 ≤ levels - 2 ∧ Legible (levels - 2 - 1) l ∧ Legible (levels - 2 - 1) r) ∧
        Legible (levels - 2) t ∧ Legible (levels - 2) e
  | block body => 1 ≤ levels ∧ 1 ≤ levels - 1 ∧ ∀ x ∈ body, Legible (levels - 1 - 1) x
  | loop _ l r body =>
      2 ≤ levels ∧ (1 ≤ levels - 2 ∧ Legible (levels - 2 - 1) l ∧ Legible (levels - 2 - 1) r) ∧
        Legible (levels - 2) body
  | declare _ _ body => 2 ≤ levels ∧ 1 ≤ levels - 2 ∧ Legible (levels - 2) body
  | call _ args => 2 ≤ levels ∧ 1 ≤ levels - 2 ∧ ∀ x ∈ args, Legible (levels - 2 - 1) x

theorem forall_legible {es : List Expr} {levels : Nat} : (∀ e ∈ es, Legible levels e) ↔
    (∀ e ∈ es, e.FiniteLiterals) ∧ Json.nestingItems (toJsons es) ≤ levels := by
  rw [Json.nestingItems_toJsons_le, ← forall₂_and]
  rfl

theorem legible_iff {e : Expr} {levels : Nat} : Legible levels e ↔ LegibleParts levels e := by
  cases e with
  | literal x =>
    rw [Legible, finiteLiterals_literal]
    simp only [LegibleParts, toJson, tagged, Json.nesting, Json.nestingMembers]
    split <;> grind [Json.nesting]
  | block | call =>
    rw [Legible, finiteLiterals_iff (by simp)]
    simp only [LegibleParts, forall_legible, parts, toJson, tagged, Json.nesting, Json.nestingMembers]
    grind
  | _ =>
    rw [Legible, finiteLiterals_iff (by simp)]
    simp only [LegibleParts, Legible, parts, toJson, tagged, Json.nesting, Json.nestingMembers,
      Json.nestingItems_strings]
    grind

end Expr

variable {ε α : Type}

/-- The members of a record give its fields these values under the condition `P`. Without it some
field has the error `bad`, and none has another one. -/
inductive Fits (read : (content : Content) → Json → Except ε content.Carrier) (bad : ε) :
    (fields : List Field) → List (String × Json) → Values fields → Prop → Prop
  | nil : Fits read bad [] [] () True
  | given {field : Field} {rest : List Field} {members : List (String × Json)} {json : Json}
      {value : field.content.Carrier} {values : Values rest} {P Q : Prop} :
      read field.content json = guarded bad P value → Fits read bad rest members values Q →
      Fits read bad (field :: rest) ((field.key, json) :: members) (value, values) (P ∧ Q)
  | absent {field : Field} {rest : List Field} {members : List (String × Json)}
      {value : field.content.Carrier} {values : Values rest} {Q : Prop} :
      field.content.absent? = some value → Fits read bad rest members values Q →
      Fits read bad (field :: rest) members (value, values) Q

theorem Fits.key_mem {read : (content : Content) → Json → Except ε content.Carrier} {bad : ε}
    {fields : List Field} {members : List (String × Json)} {values : Values fields} {P : Prop}
    (h : Fits read bad fields members values P) {member : String × Json} (hmember : member ∈ members) :
    member.1 ∈ fields.map Field.key := by
  induction h with
  | nil => simp at hmember
  | given _ _ ih =>
    rcases List.mem_cons.mp hmember with rfl | hmember
    · simp
    · simp [ih hmember]
  | absent _ _ ih => simp [ih hmember]

/-- A reader of encoded expressions, told by its steps. It goes down so many levels, of which each
array and each object takes one. -/
structure ExprReader (ε : Type) where
  /-- The error in the place of a literal that is not finite. -/
  bad : ε
  invalid : BuildError → ε
  /-- What a finite literal is read as. -/
  literal : Float → Float
  /-- Whether `bad` is also the error where there are too few levels. -/
  strict : Prop
  number : Json → Except ε Float
  text : Json → Except ε String
  node : Nat → Json → Except ε Expr
  record : Nat → (title : String) → (fields : List Field) → Json → Except ε (Values fields)
  content : Nat → (content : Content) → Json → Except ε content.Carrier
  exprs : Nat → Json → Except ε (List Expr)
  node_zero (json : Json) : strict → node 0 json = .error bad
  record_zero (title : String) (fields : List Field) (json : Json) :
    strict → record 0 title fields json = .error bad
  exprs_zero (json : Json) : strict → exprs 0 json = .error bad
  node_tagged {tag : String} {shape : NodeShape} (htag : NodeShape.ofTag? tag = some shape)
    (levels : Nat) (json : Json) :
    node (levels + 1) (.object [(tag, json)]) =
      shape.read invalid number text (exprs levels) (record levels) json
  record_object {fields : List Field} {levels : Nat} {members : List (String × Json)}
    {values : Values fields} {P : Prop} (title : String)
    (hkeys : (fields.map Field.key).Nodup) (hfits : Fits (content levels) bad fields members values P) :
    record (levels + 1) title fields (.object members) = guarded bad P values
  exprs_array (levels : Nat) (items : List Json) :
    exprs (levels + 1) (.array items) = items.mapM (node levels)
  number_literal (x : Float) :
    number (if x.isFinite then .float x else .null) = guarded bad (x.isFinite = true) (literal x)
  text_string (content : String) : text (.string content) = .ok content
  content_text (levels : Nat) (json : Json) : content levels .text json = text json
  content_expr (levels : Nat) (json : Json) : content levels .expr json = node levels json
  /-- What an expression is encoded as is never null, so an operand that is there is read as one. -/
  content_operand (levels : Nat) (e : Expr) :
    content levels .optionalExpr e.toJson = (node levels e.toJson).map some
  content_condition (levels : Nat) (json : Json) :
    content levels .condition json = RecordType.condition.read invalid (record levels) json
  content_names {levels : Nat} (hroom : strict ∨ 1 ≤ levels) (names : List String) :
    content levels .names (.array (names.map .string)) = guarded bad (1 ≤ levels) names
  content_exprs (levels : Nat) (json : Json) : content levels .exprs json = exprs levels json

namespace ExprReader

variable (R : ExprReader ε) {levels : Nat} {P Q : Prop}

/-- A step that takes a level is as good as what it does with one, if there is one. -/
theorem guarded_level {f : Nat → Except ε α} {a : α} (hroom : R.strict ∨ 1 ≤ levels)
    (hzero : R.strict → f 0 = .error R.bad)
    (hsucc : f (levels - 1 + 1) = guarded R.bad P a) :
    f levels = guarded R.bad (1 ≤ levels ∧ P) a := by
  cases levels with
  | zero =>
    rw [guarded_of_not (by simp)]
    exact hzero (hroom.resolve_right (by simp))
  | succ levels =>
    rw [guarded_congr (and_iff_right (by omega))]
    exact hsucc

theorem read_eq {type : RecordType α} {json : Json} {values : Values type.fields} {a : α}
    (hfields : R.record levels type.title type.fields json = guarded R.bad P values)
    (hbuild : type.build values = .ok a) :
    type.read R.invalid (R.record levels) json = guarded R.bad P a := by
  unfold RecordType.read
  rw [hfields]
  apply bind_guarded_ok
  rw [hbuild]
  rfl

theorem record_eq {fields : List Field} {members : List (String × Json)} {values : Values fields}
    (hroom : R.strict ∨ 1 ≤ levels) (title : String) (hkeys : (fields.map Field.key).Nodup)
    (hfits : Fits (R.content (levels - 1)) R.bad fields members values P) :
    R.record levels title fields (.object members) = guarded R.bad (1 ≤ levels ∧ P) values :=
  R.guarded_level (f := fun levels => R.record levels title fields (.object members)) hroom
    (R.record_zero title fields _) (R.record_object title hkeys hfits)

theorem exprs_eq {es : List Expr} {P : Expr → Prop} {g : Expr → Expr} (hroom : R.strict ∨ 1 ≤ levels)
    (h : ∀ e ∈ es, R.node (levels - 1) e.toJson = guarded R.bad (P e) (g e)) :
    R.exprs levels (.array (Expr.toJsons es)) =
      guarded R.bad (1 ≤ levels ∧ ∀ e ∈ es, P e) (es.map g) := by
  apply R.guarded_level (f := fun levels => R.exprs levels _) hroom (R.exprs_zero _)
  rw [R.exprs_array, Expr.toJsons_eq_map]
  exact mapM_guarded h

theorem node_eq {tag : String} {shape : NodeShape} {json : Json} {e : Expr}
    (hroom : R.strict ∨ 1 ≤ levels) (htag : NodeShape.ofTag? tag = some shape)
    (h : shape.read R.invalid R.number R.text (R.exprs (levels - 1)) (R.record (levels - 1)) json =
      guarded R.bad P e) :
    R.node levels (.object [(tag, json)]) = guarded R.bad (1 ≤ levels ∧ P) e :=
  R.guarded_level (f := fun levels => R.node levels _) hroom (R.node_zero _)
    ((R.node_tagged htag _ _).trans h)

theorem node_record {tag : String} {type : RecordType Expr} {members : List (String × Json)}
    {values : Values type.fields} {e : Expr} (hroom : R.strict ∨ 2 ≤ levels)
    (htag : NodeShape.ofTag? tag = some (.record type))
    (hfits : Fits (R.content (levels - 2)) R.bad type.fields members values P)
    (hbuild : type.build values = .ok e) (hlevels : Q ↔ 2 ≤ levels ∧ P) :
    R.node levels (.object [(tag, .object members)]) = guarded R.bad Q e := by
  have hfields : R.record (levels - 1) type.title type.fields (.object members) =
      guarded R.bad (1 ≤ levels - 1 ∧ P) values :=
    R.record_eq (hroom.imp_right (by omega)) type.title (RecordType.nodup_fields htag) hfits
  rw [R.node_eq (hroom.imp_right (by omega)) htag (R.read_eq hfields hbuild)]
  apply guarded_congr
  rw [hlevels, ← and_assoc]
  exact and_congr_left fun _ => by omega

theorem text_eq (content : String) : R.text (.string content) = guarded R.bad True content :=
  (R.text_string content).trans (guarded_of trivial).symm

theorem content_text_eq (content : String) :
    R.content levels .text (.string content) = guarded R.bad True content :=
  (R.content_text levels _).trans (R.text_eq content)

theorem content_operand_eq {e e' : Expr} (h : R.node levels e.toJson = guarded R.bad P e') :
    R.content levels .optionalExpr e.toJson = guarded R.bad P (some e') := by
  rw [R.content_operand, h, map_guarded]

theorem content_expr_eq {e e' : Expr} (h : R.node levels e.toJson = guarded R.bad P e') :
    R.content levels .expr e.toJson = guarded R.bad P e' :=
  (R.content_expr levels e.toJson).trans h

theorem content_condition_eq {op : String} {l r l' r' : Expr} (hroom : R.strict ∨ 1 ≤ levels)
    (hl : R.node (levels - 1) l.toJson = guarded R.bad P l')
    (hr : R.node (levels - 1) r.toJson = guarded R.bad Q r') :
    R.content levels .condition
        (.object [("op", .string op), ("left", l.toJson), ("right", r.toJson)]) =
      guarded R.bad (1 ≤ levels ∧ P ∧ Q) ⟨op, l', r'⟩ := by
  have hfits : Fits (R.content (levels - 1)) R.bad RecordType.condition.fields
      [("op", .string op), ("left", l.toJson), ("right", r.toJson)] (op, l', r', ())
      (True ∧ P ∧ Q ∧ True) :=
    .given (R.content_text_eq op) (.given (R.content_expr_eq hl) (.given (R.content_expr_eq hr) .nil))
  have hall : 1 ≤ levels ∧ P ∧ Q ↔ 1 ≤ levels ∧ True ∧ P ∧ Q ∧ True := by simp
  rw [R.content_condition, guarded_congr hall]
  exact R.read_eq (R.record_eq hroom _ RecordType.nodup_condition hfits) rfl

/-- What is read is the expression with every literal as it is read, under the condition that it is
legible. Unless the reader is strict, there have to be enough levels. -/
theorem node_toJson {e : Expr} (he : e.WellBuilt) {levels : Nat}
    (hroom : R.strict ∨ e.toJson.nesting ≤ levels) :
    R.node levels e.toJson = guarded R.bad (e.Legible levels) (e.mapLiterals R.literal) := by
  induction e using Expr.induction_parts generalizing levels with
  | _ e ih =>
    -- every case finds in `hroom` how many levels are left for its parts
    have part (x : Expr) {k : Nat} (hx : x ∈ e.parts) (hk : R.strict ∨ x.toJson.nesting ≤ k) :
        R.node k x.toJson = guarded R.bad (x.Legible k) (x.mapLiterals R.literal) :=
      ih x hx (he.part hx) hk
    cases e with
    | literal x =>
      simp only [Expr.toJson, Expr.tagged, Json.nesting, Json.nestingMembers] at hroom ⊢
      rw [guarded_congr Expr.legible_iff]
      apply R.node_eq (hroom.imp_right (by omega)) rfl
      rw [NodeShape.read, R.number_literal, map_guarded]
      rfl
    | unary op x =>
      simp only [Expr.toJson, Expr.tagged, Json.nesting, Json.nestingMembers] at hroom ⊢
      have hx := part x (k := levels - 2) (by simp) (hroom.imp_right (by omega))
      exact R.node_record (hroom.imp_right (by omega)) rfl
        (.given (R.content_text_eq op) (.given (R.content_expr_eq hx) (.absent rfl .nil)))
        (by rfl) (Expr.legible_iff.trans (by simp [Expr.LegibleParts]))
    | binary op l r =>
      simp only [Expr.toJson, Expr.tagged, Json.nesting, Json.nestingMembers] at hroom ⊢
      have hl := part l (k := levels - 2) (by simp) (hroom.imp_right (by omega))
      have hr := part r (k := levels - 2) (by simp) (hroom.imp_right (by omega))
      exact R.node_record (hroom.imp_right (by omega)) rfl
        (.given (R.content_text_eq op) (.given (R.content_expr_eq hl)
          (.given (R.content_operand_eq hr) .nil)))
        (by rfl) (Expr.legible_iff.trans (by simp [Expr.LegibleParts]))
    | assign name x =>
      simp only [Expr.toJson, Expr.tagged, Json.nesting, Json.nestingMembers] at hroom ⊢
      have hx := part x (k := levels - 2) (by simp) (hroom.imp_right (by omega))
      exact R.node_record (hroom.imp_right (by omega)) rfl
        (.given (R.content_text_eq name) (.given (R.content_expr_eq hx) .nil))
        (by rfl) (Expr.legible_iff.trans (by simp [Expr.LegibleParts]))
    | var name =>
      simp only [Expr.toJson, Expr.tagged, Json.nesting, Json.nestingMembers] at hroom ⊢
      rw [guarded_congr (Expr.legible_iff.trans (and_iff_left trivial).symm)]
      apply R.node_eq (hroom.imp_right (by omega)) rfl
      rw [NodeShape.read, R.text_eq, map_guarded]
      rfl
    | compare op l r =>
      simp only [Expr.toJson, Expr.tagged, Json.nesting, Json.nestingMembers] at hroom ⊢
      have hl := part l (k := levels - 2) (by simp) (hroom.imp_right (by omega))
      have hr := part r (k := levels - 2) (by simp) (hroom.imp_right (by omega))
      exact R.node_record (hroom.imp_right (by omega)) rfl
        (.given (R.content_text_eq op) (.given (R.content_expr_eq hl)
          (.given (R.content_expr_eq hr) .nil)))
        (by rfl) (Expr.legible_iff.trans (by simp [Expr.LegibleParts]))
    | branch op l r t e =>
      simp only [Expr.toJson, Expr.tagged, Json.nesting, Json.nestingMembers] at hroom ⊢
      have hl := part l (k := levels - 2 - 1) (by simp) (hroom.imp_right (by omega))
      have hr := part r (k := levels - 2 - 1) (by simp) (hroom.imp_right (by omega))
      have ht := part t (k := levels - 2) (by simp) (hroom.imp_right (by omega))
      have he := part e (k := levels - 2) (by simp) (hroom.imp_right (by omega))
      exact R.node_record (hroom.imp_right (by omega)) rfl
        (.given (R.content_condition_eq (hroom.imp_right (by omega)) hl hr)
          (.given (R.content_expr_eq ht) (.given (R.content_expr_eq he) .nil)))
        (by rfl) (Expr.legible_iff.trans (by simp [Expr.LegibleParts]))
    | block body =>
      simp only [Expr.toJson, Expr.tagged, Json.nesting, Json.nestingMembers] at hroom ⊢
      have hbody (x : Expr) (hx : x ∈ body) : R.node (levels - 1 - 1) x.toJson =
          guarded R.bad (x.Legible (levels - 1 - 1)) (x.mapLiterals R.literal) := by
        have hle := (Json.nestingItems_toJsons_le body _).mp (Nat.le_refl _) x hx
        exact part x hx (hroom.imp_right (by omega))
      have hexprs : R.exprs (levels - 1) (.array (Expr.toJsons body)) = _ :=
        R.exprs_eq (hroom.imp_right (by omega)) hbody
      have hbuild : Expr.ofBlock (body.map (Expr.mapLiterals R.literal)) =
          .ok ((Expr.block body).mapLiterals R.literal) := by
        rw [Expr.mapLiterals, Expr.mapLiteralsAll_eq_map]
        refine Expr.ofBlock_eq_ok_iff.mpr ⟨?_, rfl⟩
        intro hnil
        rw [List.map_eq_nil_iff.mp hnil] at he
        exact he.blocks .refl
      rw [guarded_congr Expr.legible_iff]
      apply R.node_eq (hroom.imp_right (by omega)) rfl
      rw [NodeShape.read, hexprs]
      apply bind_guarded_ok
      rw [hbuild]
      rfl
    | loop op l r body =>
      simp only [Expr.toJson, Expr.tagged, Json.nesting, Json.nestingMembers] at hroom ⊢
      have hl := part l (k := levels - 2 - 1) (by simp) (hroom.imp_right (by omega))
      have hr := part r (k := levels - 2 - 1) (by simp) (hroom.imp_right (by omega))
      have hbody := part body (k := levels - 2) (by simp) (hroom.imp_right (by omega))
      exact R.node_record (hroom.imp_right (by omega)) rfl
        (.given (R.content_condition_eq (hroom.imp_right (by omega)) hl hr)
          (.given (R.content_expr_eq hbody) .nil))
        (by rfl) (Expr.legible_iff.trans (by simp [Expr.LegibleParts]))
    | declare name params body =>
      simp only [Expr.toJson, Expr.tagged, Json.nesting, Json.nestingMembers] at hroom ⊢
      have hnames : R.content (levels - 2) .names (.array (params.map .string)) = _ :=
        R.content_names (hroom.imp_right (by omega)) params
      have hbody := part body (k := levels - 2) (by simp) (hroom.imp_right (by omega))
      have hbuild : Expr.ofFunction name params (body.mapLiterals R.literal) =
          .ok ((Expr.declare name params body).mapLiterals R.literal) :=
        Expr.ofFunction_eq_ok_iff.mpr ⟨he.params name params body .refl, rfl⟩
      exact R.node_record (hroom.imp_right (by omega)) rfl
        (.given (R.content_text_eq name) (.given hnames (.given (R.content_expr_eq hbody) .nil)))
        hbuild (Expr.legible_iff.trans (by simp [Expr.LegibleParts]))
    | call name args =>
      simp only [Expr.toJson, Expr.tagged, Json.nesting, Json.nestingMembers] at hroom ⊢
      have hargs (x : Expr) (hx : x ∈ args) : R.node (levels - 2 - 1) x.toJson =
          guarded R.bad (x.Legible (levels - 2 - 1)) (x.mapLiterals R.literal) := by
        have hle := (Json.nestingItems_toJsons_le args _).mp (Nat.le_refl _) x hx
        exact part x hx (hroom.imp_right (by omega))
      have hexprs := (R.content_exprs (levels - 2) _).trans
        (R.exprs_eq (hroom.imp_right (by omega)) hargs)
      have hbuild : RecordType.functionInvocation.build
          (name, args.map (Expr.mapLiterals R.literal), ()) =
            .ok ((Expr.call name args).mapLiterals R.literal) := by
        rw [Expr.mapLiterals, Expr.mapLiteralsAll_eq_map]
        rfl
      exact R.node_record (hroom.imp_right (by omega)) rfl
        (.given (R.content_text_eq name) (.given hexprs .nil))
        hbuild (Expr.legible_iff.trans (by simp [Expr.LegibleParts]))

end ExprReader

end Reckoner
