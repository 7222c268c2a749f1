import Reckoner.Proofs.Records

/-! The grammar of encoded expressions, and that decoding accepts exactly what the grammar admits. The
grammar is written down kind by kind, without the layout tables that decoding follows. -/

namespace Reckoner

namespace Json

/-- The value that an object binds to a key; other values bind none. -/
def member? (key : String) : Json → Option Json
  | object members => members.lookup key
  | _ => none

/-- A record with these contents: an object that binds every key to its content, whatever else it
binds and in whatever order, or the array of the contents. -/
inductive Record (contents : List (String × Json)) : Json → Prop
  | object {members : List (String × Json)} :
      (∀ content ∈ contents, members.lookup content.1 = some content.2) →
      Record contents (.object members)
  | array : Record contents (.array (contents.map Prod.snd))

/-- A value encodes an expression. A node is an object with one member, whose key tells the kind. The
test of a branch or a loop is a record of its own and has no key. -/
inductive Encodes : Json → Expr → Prop
  | literal {number : Json} {x : Float} : number.toFloat? = some x →
      Encodes (.object [("literal", number)]) (.literal x)
  | var {name : String} : Encodes (.object [("variable", .string name)]) (.var name)
  | block {items : List Json} {body : List Expr} : items ≠ [] → List.Forall₂ Encodes items body →
      Encodes (.object [("block", .array items)]) (.block body)
  | unary {op : String} {left content : Json} {x : Expr} :
      Record [("op", .string op), ("left", left)] content → content.member? "right" = none →
      Encodes left x → Encodes (.object [("arithmetic", content)]) (.unary op x)
  | unaryNull {op : String} {left content : Json} {x : Expr} :
      Record [("op", .string op), ("left", left), ("right", .null)] content →
      Encodes left x → Encodes (.object [("arithmetic", content)]) (.unary op x)
  | binary {op : String} {left right content : Json} {l r : Expr} :
      Record [("op", .string op), ("left", left), ("right", right)] content →
      Encodes left l → Encodes right r → Encodes (.object [("arithmetic", content)]) (.binary op l r)
  | assignment {name : String} {value content : Json} {x : Expr} :
      Record [("name", .string name), ("value", value)] content →
      Encodes value x → Encodes (.object [("assignment", content)]) (.assign name x)
  | condition {op : String} {left right content : Json} {l r : Expr} :
      Record [("op", .string op), ("left", left), ("right", right)] content →
      Encodes left l → Encodes right r → Encodes (.object [("condition", content)]) (.compare op l r)
  | ifElse {op : String} {left right test onTrue onFalse content : Json} {l r t e : Expr} :
      Record [("test", test), ("then_branch", onTrue), ("else_branch", onFalse)] content →
      Record [("op", .string op), ("left", left), ("right", right)] test →
      Encodes left l → Encodes right r → Encodes onTrue t → Encodes onFalse e →
      Encodes (.object [("if_else", content)]) (.branch op l r t e)
  | whileLoop {op : String} {left right test body content : Json} {l r x : Expr} :
      Record [("test", test), ("body", body)] content →
      Record [("op", .string op), ("left", left), ("right", right)] test →
      Encodes left l → Encodes right r → Encodes body x →
      Encodes (.object [("while_loop", content)]) (.loop op l r x)
  | functionDeclaration {name : String} {params : List String} {body content : Json} {x : Expr} :
      Record [("name", .string name), ("params", .array (params.map .string)), ("body", body)]
        content →
      params.Nodup → Encodes body x →
      Encodes (.object [("function_declaration", content)]) (.declare name params x)
  | functionInvocation {name : String} {args : List Json} {content : Json} {es : List Expr} :
      Record [("name", .string name), ("args", .array args)] content →
      List.Forall₂ Encodes args es →
      Encodes (.object [("function_invocation", content)]) (.call name es)

/-! Fields of records -/

def Means : (content : Content) → Json → content.Carrier → Prop
  | .text, json, text => json = .string text
  | .expr, json, e => Encodes json e
  | .optionalExpr, json, none => json = .null
  | .optionalExpr, json, some e => Encodes json e
  | .condition, json, test => ∃ left right,
      Record [("op", .string test.op), ("left", left), ("right", right)] json ∧
        Encodes left test.left ∧ Encodes right test.right
  | .names, json, names => json = .array (names.map .string)
  | .exprs, json, es => ∃ items, json = .array items ∧ List.Forall₂ Encodes items es

/-- The fields have these contents, under their keys and in their order, and get these values. -/
def Contains (reads : (content : Content) → Json → content.Carrier → Prop) :
    List (String × Json) → (fields : List Field) → Values fields → Prop
  | contents, [], _ => contents = []
  | contents, field :: rest, (value, values) => ∃ json more, contents = (field.key, json) :: more ∧
      reads field.content json value ∧ Contains reads more rest values

def Holds (reads : (content : Content) → Json → content.Carrier → Prop) (fields : List Field)
    (values : Values fields) : Json → Prop
  | object members => values.Given reads (members.lookup ·)
  | array items => Values.Listed reads items fields values
  | _ => False

theorem decodeRecord_eq_ok_iff {levels : Nat} {title : String} {fields : List Field} {json : Json}
    {values : Values fields} :
    decodeRecord (levels + 1) title fields json = .ok values ↔
      Holds (Reads (contentReader levels)) fields values json := by
  cases json with
  | object members => exact decodeMembers_eq_ok_iff
  | array items => exact decodeItems_eq_ok_iff
  | _ => exact ⟨nofun, nofun⟩

theorem depth_le_of_lookup {members : List (String × Json)} {key : String} {json : Json}
    (h : members.lookup key = some json) : json.depth ≤ depthMembers members := by
  induction members with
  | nil => simp at h
  | cons member members ih =>
    obtain ⟨other, value⟩ := member
    rw [List.lookup_cons] at h
    rw [depthMembers]
    split at h
    · cases h
      exact Nat.le_max_left _ _
    · exact Nat.le_trans (ih h) (Nat.le_max_right _ _)

theorem depth_le_of_mem {items : List Json} {json : Json} (h : json ∈ items) :
    json.depth ≤ depthItems items := by
  induction items with
  | nil => simp at h
  | cons item items ih =>
    rw [depthItems]
    rcases List.mem_cons.mp h with rfl | hin
    · exact Nat.le_max_left _ _
    · exact Nat.le_trans (ih hin) (Nat.le_max_right _ _)

section Fields

variable {reads reads' : (content : Content) → Json → content.Carrier → Prop} {fields : List Field}
  {values : Values fields} {json : Json}

/-- Only the parts of a record matter, and these are less deep. -/
theorem holds_congr (h : ∀ part, part.depth < json.depth → Values.Alike reads reads' part part) :
    Holds reads fields values json ↔ Holds reads' fields values json := by
  cases json with
  | object members =>
    apply Values.given_congr
    intro key
    cases hlookup : members.lookup key with
    | none => exact .none
    | some part => exact .some (h part (Nat.lt_succ_of_le (depth_le_of_lookup hlookup)))
  | array items =>
    apply Values.listed_congr
    rw [List.forall₂_same]
    intro part hpart
    exact h part (Nat.lt_succ_of_le (depth_le_of_mem hpart))
  | _ => exact Iff.rfl

theorem given_iff_contains (hrequired : ∀ field ∈ fields, field.content.absent? = none)
    {members : List (String × Json)} :
    values.Given reads (members.lookup ·) ↔
      ∃ contents, (∀ content ∈ contents, members.lookup content.1 = some content.2) ∧
        Contains reads contents fields values := by
  induction fields with
  | nil => simp [Values.Given, Contains]
  | cons field rest ih =>
    obtain ⟨value, values⟩ := values
    have hfield := hrequired field (by simp)
    simp only [Values.Given, Contains, ih fun other hother => hrequired other (by simp [hother])]
    constructor
    · rintro ⟨⟨json, hlookup, hread⟩ | ⟨_, habsent⟩, contents, hcontents, hrest⟩
      · refine ⟨(field.key, json) :: contents, ?_, json, contents, rfl, hread, hrest⟩
        exact List.forall_mem_cons.mpr ⟨hlookup, hcontents⟩
      · simp [hfield] at habsent
    · rintro ⟨_, hcontents, json, contents, rfl, hread, hrest⟩
      simp only [List.forall_mem_cons] at hcontents
      exact ⟨.inl ⟨json, hcontents.1, hread⟩, contents, hcontents.2, hrest⟩

theorem listed_iff_contains (hrequired : ∀ field ∈ fields, field.content.absent? = none)
    {items : List Json} :
    Values.Listed reads items fields values ↔
      ∃ contents, items = contents.map Prod.snd ∧ Contains reads contents fields values := by
  induction fields generalizing items with
  | nil => cases items <;> simp [Values.Listed, Contains]
  | cons field rest ih =>
    obtain ⟨value, values⟩ := values
    have hfield := hrequired field (by simp)
    have hothers (other : Field) (hother : other ∈ rest) : other.content.absent? = none :=
      hrequired other (by simp [hother])
    cases items with
    | nil => simp [Values.Listed, Contains, hfield]
    | cons item items =>
      simp only [Values.Listed, Contains, ih hothers]
      constructor
      · rintro ⟨hread, contents, rfl, hrest⟩
        exact ⟨(field.key, item) :: contents, rfl, item, contents, rfl, hread, hrest⟩
      · rintro ⟨_, hitems, json, contents, rfl, hread, hrest⟩
        rw [List.map_cons, List.cons.injEq] at hitems
        obtain ⟨rfl, rfl⟩ := hitems
        exact ⟨hread, contents, rfl, hrest⟩

theorem holds_iff_record (hrequired : ∀ field ∈ fields, field.content.absent? = none) :
    Holds reads fields values json ↔
      ∃ contents, Record contents json ∧ Contains reads contents fields values := by
  cases json with
  | object members =>
    refine (given_iff_contains hrequired).trans (exists_congr fun contents => and_congr_left' ?_)
    exact ⟨.object, fun h => by cases h with | object hmembers => exact hmembers⟩
  | array items =>
    refine (listed_iff_contains hrequired).trans (exists_congr fun contents => and_congr_left' ?_)
    exact ⟨fun h => h ▸ .array, fun h => by cases h with | array => rfl⟩
  | _ => exact ⟨False.elim, nofun⟩

variable {first second third : Field} {x : first.content.Carrier} {y : second.content.Carrier}
  {z : third.content.Carrier}

theorem holds_pair_iff (hfirst : first.content.absent? = none) (hsecond : second.content.absent? = none) :
    Holds reads [first, second] (x, y, ()) json ↔
      ∃ a b, Record [(first.key, a), (second.key, b)] json ∧ reads first.content a x ∧
        reads second.content b y := by
  refine (holds_iff_record (by simp [hfirst, hsecond])).trans ⟨?_, ?_⟩
  · rintro ⟨_, hrecord, a, _, rfl, hx, b, _, rfl, hy, rfl⟩
    exact ⟨a, b, hrecord, hx, hy⟩
  · rintro ⟨a, b, hrecord, hx, hy⟩
    exact ⟨_, hrecord, a, _, rfl, hx, b, _, rfl, hy, rfl⟩

theorem holds_triple_iff (hfirst : first.content.absent? = none)
    (hsecond : second.content.absent? = none) (hthird : third.content.absent? = none) :
    Holds reads [first, second, third] (x, y, z, ()) json ↔
      ∃ a b c, Record [(first.key, a), (second.key, b), (third.key, c)] json ∧
        reads first.content a x ∧ reads second.content b y ∧ reads third.content c z := by
  refine (holds_iff_record (by simp [hfirst, hsecond, hthird])).trans ⟨?_, ?_⟩
  · rintro ⟨_, hrecord, a, _, rfl, hx, b, _, rfl, hy, c, _, rfl, hz, rfl⟩
    exact ⟨a, b, c, hrecord, hx, hy, hz⟩
  · rintro ⟨a, b, c, hrecord, hx, hy, hz⟩
    exact ⟨_, hrecord, a, _, rfl, hx, b, _, rfl, hy, c, _, rfl, hz, rfl⟩

/-- The last field may be left out, in an array together with its place. -/
theorem holds_optional_iff (hfirst : first.content.absent? = none)
    (hsecond : second.content.absent? = none) :
    Holds reads [first, second, third] (x, y, z, ()) json ↔
      (∃ a b c, Record [(first.key, a), (second.key, b), (third.key, c)] json ∧
        reads first.content a x ∧ reads second.content b y ∧ reads third.content c z) ∨
      (∃ a b, Record [(first.key, a), (second.key, b)] json ∧ json.member? third.key = none ∧
        reads first.content a x ∧ reads second.content b y) ∧ third.content.absent? = some z := by
  cases json with
  | object members =>
    constructor
    · rintro ⟨⟨a, ha, hx⟩ | ⟨_, hnone⟩, ⟨b, hb, hy⟩ | ⟨_, hnone'⟩, hlast, -⟩
      · rcases hlast with ⟨c, hc, hz⟩ | ⟨hmissing, habsent⟩
        · exact .inl ⟨a, b, c, .object (by simp [ha, hb, hc]), hx, hy, hz⟩
        · exact .inr ⟨⟨a, b, .object (by simp [ha, hb]), hmissing, hx, hy⟩, habsent⟩
      · simp [hsecond] at hnone'
      · simp [hfirst] at hnone
      · simp [hfirst] at hnone
    · rintro (⟨a, b, c, ⟨hmembers⟩, hx, hy, hz⟩ | ⟨⟨a, b, ⟨hmembers⟩, hmissing, hx, hy⟩, habsent⟩)
      · simp only [List.forall_mem_cons] at hmembers
        obtain ⟨ha, hb, hc, -⟩ := hmembers
        exact ⟨.inl ⟨a, ha, hx⟩, .inl ⟨b, hb, hy⟩, .inl ⟨c, hc, hz⟩, trivial⟩
      · simp only [List.forall_mem_cons] at hmembers
        obtain ⟨ha, hb, -⟩ := hmembers
        exact ⟨.inl ⟨a, ha, hx⟩, .inl ⟨b, hb, hy⟩, .inr ⟨hmissing, habsent⟩, trivial⟩
  | array items =>
    constructor
    · intro h
      match items with
      | [] => simp [Holds, Values.Listed, hfirst] at h
      | [a] => simp [Holds, Values.Listed, hsecond] at h
      | [a, b] => exact .inr ⟨⟨a, b, .array, rfl, h.1, h.2.1⟩, h.2.2.1⟩
      | [a, b, c] => exact .inl ⟨a, b, c, .array, h.1, h.2.1, h.2.2.1⟩
      | a :: b :: c :: d :: more => simp [Holds, Values.Listed] at h
    · rintro (⟨a, b, c, ⟨⟩, hx, hy, hz⟩ | ⟨⟨a, b, ⟨⟩, -, hx, hy⟩, habsent⟩)
      · exact ⟨hx, hy, hz, rfl⟩
      · exact ⟨hx, hy, habsent, rfl⟩
  | _ =>
    refine ⟨False.elim, ?_⟩
    rintro (⟨_, _, _, hrecord, _⟩ | ⟨⟨_, _, hrecord, _⟩, _⟩) <;> cases hrecord

end Fields

theorem depth_pos (json : Json) : 0 < json.depth := by
  cases json <;> exact Nat.succ_pos _

/-! Decoding level by level -/

/-- The reader of nodes does what the grammar says, as long as the levels last. -/
def DecodesNodes (levels : Nat) : Prop :=
  ∀ json, json.depth ≤ levels → ∀ e, decodeNode levels json = .ok e ↔ Encodes json e

theorem decodeText_eq_ok_iff {json : Json} {text : String} :
    decodeText json = .ok text ↔ json = .string text := by
  cases json <;> simp [decodeText]

theorem decodeNumber_eq_ok_iff {json : Json} {x : Float} :
    decodeNumber json = .ok x ↔ json.toFloat? = some x := by
  unfold decodeNumber
  cases json.toFloat? <;> simp

theorem decodeNames_eq_ok_iff {json : Json} {names : List String} :
    decodeNames json = .ok names ↔ json = .array (names.map .string) := by
  cases json with
  | array items =>
    rw [decodeNames, mapM_eq_ok_iff]
    simp only [decodeText_eq_ok_iff, array.injEq]
    rw [← List.forall₂_map_right_iff, List.forall₂_eq_eq_eq]
  | _ => simp [decodeNames]

theorem decodeExprs_eq_ok_iff {levels : Nat} (ih : ∀ k < levels, DecodesNodes k) {json : Json}
    (hjson : json.depth ≤ levels) {es : List Expr} :
    decodeExprs levels json = .ok es ↔ Means .exprs json es := by
  have hpos := json.depth_pos
  obtain ⟨levels, rfl⟩ : ∃ k, levels = k + 1 := ⟨levels - 1, by omega⟩
  cases json with
  | array items =>
    rw [decodeExprs, mapM_eq_ok_iff]
    simp only [Means, array.injEq, exists_eq_left']
    apply forall₂_congr_left
    rw [List.forall₂_same]
    intro item hitem e
    have hitem := depth_le_of_mem hitem
    have hitems : depthItems items ≤ levels := Nat.le_of_succ_le_succ hjson
    exact ih levels (Nat.lt_succ_self _) item (Nat.le_trans hitem hitems) e
  | _ => exact ⟨nofun, nofun⟩

theorem contentReader_condition_iff {levels : Nat} {json : Json} {test : Condition}
    (h : ∀ part, part.depth < json.depth →
      Values.Alike (Reads (contentReader levels)) Means part part) :
    contentReader (levels + 1) .condition json = .ok test ↔ Means .condition json test := by
  refine RecordType.read_eq_ok_iff.trans ?_
  simp only [decodeRecord_eq_ok_iff, holds_congr h]
  constructor
  · rintro ⟨⟨op, left, right, ⟨⟩⟩, hholds, hbuild⟩
    obtain ⟨_, l, r, hrecord, rfl, hl, hr⟩ := (holds_triple_iff rfl rfl rfl).mp hholds
    cases hbuild
    exact ⟨l, r, hrecord, hl, hr⟩
  · rintro ⟨l, r, hrecord, hl, hr⟩
    exact ⟨_, (holds_triple_iff rfl rfl rfl).mpr ⟨_, l, r, hrecord, rfl, hl, hr⟩, rfl⟩

theorem contentReader_optional_iff {levels : Nat} {json : Json}
    (hnode : ∀ e, decodeNode levels json = .ok e ↔ Encodes json e) (found : Option Expr) :
    contentReader levels .optionalExpr json = .ok found ↔ Means .optionalExpr json found := by
  by_cases hnull : json = .null
  · subst hnull
    cases found with
    | none => exact ⟨fun _ => rfl, fun _ => rfl⟩
    | some e => exact ⟨nofun, nofun⟩
  · have hread : contentReader levels .optionalExpr json = (decodeNode levels json).map some := by
      cases json with
      | null => exact absurd rfl hnull
      | _ => rfl
    rw [hread, map_eq_ok_iff]
    cases found with
    | none => simp [Means, hnull]
    | some e => simp [Means, hnode]

theorem alike_contentReader {levels : Nat} (ih : ∀ k ≤ levels, DecodesNodes k) {json : Json}
    (hjson : json.depth ≤ levels) : Values.Alike (Reads (contentReader levels)) Means json json := by
  induction levels generalizing json with
  | zero => exact absurd json.depth_pos (by omega)
  | succ levels hlevels =>
    intro content value
    cases content with
    | text => exact decodeText_eq_ok_iff
    | expr => exact ih _ (Nat.le_refl _) json hjson value
    | optionalExpr => exact contentReader_optional_iff (ih _ (Nat.le_refl _) json hjson) value
    | condition =>
      apply contentReader_condition_iff
      intro part hpart
      exact hlevels (fun k hk => ih k (Nat.le_succ_of_le hk)) (by omega)
    | names => exact decodeNames_eq_ok_iff
    | exprs => exact decodeExprs_eq_ok_iff (fun k hk => ih k (Nat.le_of_lt hk)) hjson

theorem decodeShape_record_iff {levels : Nat} (ih : ∀ k < levels, DecodesNodes k) {content : Json}
    (hcontent : content.depth ≤ levels) (type : RecordType Expr) {e : Expr} :
    decodeShape levels content (.record type) = .ok e ↔
      ∃ values, Holds Means type.fields values content ∧ type.build values = .ok e := by
  have hpos := content.depth_pos
  obtain ⟨levels, rfl⟩ : ∃ k, levels = k + 1 := ⟨levels - 1, by omega⟩
  have hparts (part : Json) (hpart : part.depth < content.depth) :
      Values.Alike (Reads (contentReader levels)) Means part part :=
    alike_contentReader (fun k hk => ih k (by omega)) (by omega)
  refine RecordType.read_eq_ok_iff.trans ?_
  simp only [decodeRecord_eq_ok_iff, holds_congr hparts]

theorem decodeShape_sequence_iff {levels : Nat} (ih : ∀ k < levels, DecodesNodes k) {content : Json}
    (hcontent : content.depth ≤ levels) {e : Expr} :
    decodeShape levels content .sequence = .ok e ↔
      ∃ body, Means .exprs content body ∧ body ≠ [] ∧ e = .block body := by
  refine bind_eq_ok_iff.trans ?_
  simp only [mapError_eq_ok_iff, Expr.ofBlock_eq_ok_iff, decodeExprs_eq_ok_iff ih hcontent]

theorem encodes_of_decodeShape {levels : Nat} (ih : ∀ k < levels, DecodesNodes k) {content : Json}
    (hcontent : content.depth ≤ levels) {tag : String} {shape : NodeShape}
    (htag : NodeShape.ofTag? tag = some shape) {e : Expr}
    (h : decodeShape levels content shape = .ok e) : Encodes (.object [(tag, content)]) e := by
  have hmem := NodeShape.mem_nodeShapes htag
  simp only [nodeShapes, List.mem_cons, Prod.mk.injEq, List.not_mem_nil, or_false] at hmem
  have record {type : RecordType Expr} (h : decodeShape levels content (.record type) = .ok e) :
      ∃ values, Holds Means type.fields values content ∧ type.build values = .ok e :=
    (decodeShape_record_iff ih hcontent type).mp h
  rcases hmem with ⟨rfl, rfl⟩ | ⟨rfl, rfl⟩ | ⟨rfl, rfl⟩ | ⟨rfl, rfl⟩ | ⟨rfl, rfl⟩ | ⟨rfl, rfl⟩ |
    ⟨rfl, rfl⟩ | ⟨rfl, rfl⟩ | ⟨rfl, rfl⟩ | ⟨rfl, rfl⟩
  · obtain ⟨x, hx, rfl⟩ := map_eq_ok_iff.mp h
    exact .literal (decodeNumber_eq_ok_iff.mp hx)
  · obtain ⟨⟨op, l, found, ⟨⟩⟩, hholds, hbuild⟩ := record h
    rcases (holds_optional_iff rfl rfl).mp hholds with
      ⟨_, left, right, hrecord, rfl, hl, hr⟩ | ⟨⟨_, left, hrecord, hmissing, rfl, hl⟩, habsent⟩
    · cases found with
      | none =>
        cases hbuild
        cases hr
        exact .unaryNull hrecord hl
      | some r =>
        cases hbuild
        exact .binary hrecord hl hr
    · cases habsent
      cases hbuild
      exact .unary hrecord hmissing hl
  · obtain ⟨⟨name, x, ⟨⟩⟩, hholds, hbuild⟩ := record h
    obtain ⟨_, value, hrecord, rfl, hx⟩ := (holds_pair_iff rfl rfl).mp hholds
    cases hbuild
    exact .assignment hrecord hx
  · obtain ⟨name, hname, rfl⟩ := map_eq_ok_iff.mp h
    rw [decodeText_eq_ok_iff.mp hname]
    exact .var
  · obtain ⟨⟨op, l, r, ⟨⟩⟩, hholds, hbuild⟩ := record h
    obtain ⟨_, left, right, hrecord, rfl, hl, hr⟩ := (holds_triple_iff rfl rfl rfl).mp hholds
    cases hbuild
    exact .condition hrecord hl hr
  · obtain ⟨⟨test, t, e, ⟨⟩⟩, hholds, hbuild⟩ := record h
    obtain ⟨_, onTrue, onFalse, hrecord, ⟨left, right, htest, hl, hr⟩, ht, he⟩ :=
      (holds_triple_iff rfl rfl rfl).mp hholds
    cases hbuild
    exact .ifElse hrecord htest hl hr ht he
  · obtain ⟨body, ⟨items, rfl, hitems⟩, hne, rfl⟩ := (decodeShape_sequence_iff ih hcontent).mp h
    refine .block ?_ hitems
    rintro rfl
    cases hitems
    exact hne rfl
  · obtain ⟨⟨test, x, ⟨⟩⟩, hholds, hbuild⟩ := record h
    obtain ⟨_, body, hrecord, ⟨left, right, htest, hl, hr⟩, hx⟩ := (holds_pair_iff rfl rfl).mp hholds
    cases hbuild
    exact .whileLoop hrecord htest hl hr hx
  · obtain ⟨⟨name, params, x, ⟨⟩⟩, hholds, hbuild⟩ := record h
    obtain ⟨_, _, body, hrecord, rfl, rfl, hx⟩ := (holds_triple_iff rfl rfl rfl).mp hholds
    obtain ⟨hdistinct, rfl⟩ := Expr.ofFunction_eq_ok_iff.mp hbuild
    exact .functionDeclaration hrecord hdistinct hx
  · obtain ⟨⟨name, es, ⟨⟩⟩, hholds, hbuild⟩ := record h
    obtain ⟨_, _, hrecord, rfl, args, rfl, hargs⟩ := (holds_pair_iff rfl rfl).mp hholds
    cases hbuild
    exact .functionInvocation hrecord hargs

theorem decodeNode_of_encodes {levels : Nat} (ih : ∀ k < levels, DecodesNodes k) {json : Json}
    {e : Expr} (h : Encodes json e) (hjson : json.depth ≤ levels + 1) :
    decodeNode (levels + 1) json = .ok e := by
  have hlevels {tag : String} {content : Json} (hdepth : (object [(tag, content)]).depth ≤ levels + 1) :
      content.depth ≤ levels := by
    simpa [depth, depthMembers] using hdepth
  have record (type : RecordType Expr) (values : Values type.fields) {tag : String} {content : Json}
      {e : Expr} (htag : NodeShape.ofTag? tag = some (.record type))
      (hdepth : (object [(tag, content)]).depth ≤ levels + 1) (hbuild : type.build values = .ok e)
      (hholds : Holds Means type.fields values content) :
      decodeNode (levels + 1) (.object [(tag, content)]) = .ok e := by
    rw [decodeNode_tagged, htag]
    exact (decodeShape_record_iff ih (hlevels hdepth) type).mpr ⟨values, hholds, hbuild⟩
  cases h with
  | literal hnumber =>
    rw [decodeNode_tagged]
    exact map_eq_ok_iff.mpr ⟨_, decodeNumber_eq_ok_iff.mpr hnumber, rfl⟩
  | var => rfl
  | block hne hitems =>
    rw [decodeNode_tagged]
    refine (decodeShape_sequence_iff ih (hlevels hjson)).mpr ⟨_, ⟨_, rfl, hitems⟩, ?_, rfl⟩
    rintro rfl
    cases hitems
    exact hne rfl
  | @unary op _ _ x hrecord hmissing hx =>
    apply record .arithmetic (op, x, none, ()) rfl hjson rfl
    exact (holds_optional_iff rfl rfl).mpr (.inr ⟨⟨_, _, hrecord, hmissing, rfl, hx⟩, rfl⟩)
  | @unaryNull op _ _ x hrecord hx =>
    apply record .arithmetic (op, x, none, ()) rfl hjson rfl
    exact (holds_optional_iff rfl rfl).mpr (.inl ⟨_, _, _, hrecord, rfl, hx, rfl⟩)
  | @binary op _ _ _ l r hrecord hl hr =>
    apply record .arithmetic (op, l, some r, ()) rfl hjson rfl
    exact (holds_optional_iff rfl rfl).mpr (.inl ⟨_, _, _, hrecord, rfl, hl, hr⟩)
  | @assignment name _ _ x hrecord hx =>
    apply record .assignment (name, x, ()) rfl hjson rfl
    exact (holds_pair_iff rfl rfl).mpr ⟨_, _, hrecord, rfl, hx⟩
  | @condition op _ _ _ l r hrecord hl hr =>
    apply record .comparison (op, l, r, ()) rfl hjson rfl
    exact (holds_triple_iff rfl rfl rfl).mpr ⟨_, _, _, hrecord, rfl, hl, hr⟩
  | @ifElse op _ _ _ _ _ _ l r t e hrecord htest hl hr ht he =>
    apply record .ifElse (⟨op, l, r⟩, t, e, ()) rfl hjson rfl
    exact (holds_triple_iff rfl rfl rfl).mpr ⟨_, _, _, hrecord, ⟨_, _, htest, hl, hr⟩, ht, he⟩
  | @whileLoop op _ _ _ _ _ l r x hrecord htest hl hr hx =>
    apply record .whileLoop (⟨op, l, r⟩, x, ()) rfl hjson rfl
    exact (holds_pair_iff rfl rfl).mpr ⟨_, _, hrecord, ⟨_, _, htest, hl, hr⟩, hx⟩
  | @functionDeclaration name params _ _ x hrecord hdistinct hx =>
    have hbuild : Expr.ofFunction name params x = .ok (.declare name params x) :=
      Expr.ofFunction_eq_ok_iff.mpr ⟨hdistinct, rfl⟩
    apply record .functionDeclaration (name, params, x, ()) rfl hjson hbuild
    exact (holds_triple_iff rfl rfl rfl).mpr ⟨_, _, _, hrecord, rfl, rfl, hx⟩
  | @functionInvocation name _ _ es hrecord hargs =>
    apply record .functionInvocation (name, es, ()) rfl hjson rfl
    exact (holds_pair_iff rfl rfl).mpr ⟨_, _, hrecord, rfl, _, rfl, hargs⟩

theorem decodesNodes (levels : Nat) : DecodesNodes levels := by
  induction levels using Nat.strongRecOn with
  | ind levels ih =>
    intro json hjson e
    have hpos := json.depth_pos
    obtain ⟨levels, rfl⟩ : ∃ k, levels = k + 1 := ⟨levels - 1, by omega⟩
    have ih (k : Nat) (hk : k < levels) : DecodesNodes k := ih k (Nat.lt_succ_of_lt hk)
    refine ⟨fun h => ?_, fun h => decodeNode_of_encodes ih h hjson⟩
    match json with
    | .object [(tag, content)] =>
      have hcontent : content.depth ≤ levels := by simpa [depth, depthMembers] using hjson
      rw [decodeNode_tagged] at h
      cases htag : NodeShape.ofTag? tag with
      | none =>
        rw [htag] at h
        cases h
      | some shape =>
        rw [htag] at h
        exact encodes_of_decodeShape ih hcontent htag h
    | .string tag =>
      unfold decodeNode at h
      split at h <;> cases h
    | .object [] | .object (_ :: _ :: _) => cases h
    | .null | .bool _ | .integer _ | .float _ | .array _ => cases h

end Json

/-- Decoding accepts exactly the grammar: a value decodes to an expression if it encodes this
expression, and every other value is refused. -/
theorem decode_iff_encodes (json : Json) (e : Expr) : json.decode = .ok e ↔ Json.Encodes json e :=
  Json.decodesNodes json.depth json (Nat.le_refl _) e

end Reckoner
