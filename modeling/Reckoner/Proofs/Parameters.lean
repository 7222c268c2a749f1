import Mathlib.Order.Bounds.Basic
import Reckoner.Proofs.Agreement
import Reckoner.Proofs.Faults

/-! Parameters of functions. A declaration is built exactly if its parameters are distinct, and else the
error names the parameter at the first place where a name of an earlier place comes again. Decoding
builds declarations in the same way and passes the error on. -/

namespace Reckoner

/-- The name at this place stands at an earlier place too. -/
def RepeatedAt (names : List String) (place : Nat) : Prop :=
  ∃ name, names[place]? = some name ∧ name ∈ names.take place

theorem nodup_take_iff (names : List String) (place : Nat) :
    (names.take place).Nodup ↔ ∀ i < place, ¬ RepeatedAt names i := by
  induction place with
  | zero => simp
  | succ place ih =>
    have hlast : (names.take (place + 1)).Nodup ↔
        (names.take place).Nodup ∧ ¬ RepeatedAt names place := by
      rw [RepeatedAt, List.take_add_one]
      cases names[place]? with
      | none => simp
      | some name =>
        rw [Option.toList_some, ← List.concat_eq_append, List.nodup_concat, and_comm]
        simp
    rw [hlast, ih]
    simp only [Nat.lt_succ_iff_lt_or_eq, or_imp, forall_and, forall_eq]

theorem exists_split_of_firstRepeat {seen names : List String} {name : String}
    (h : firstRepeat seen names = some name) :
    ∃ before after, names = before ++ name :: after ∧ before.Nodup ∧
      (∀ other ∈ before, other ∉ seen) ∧ (name ∈ before ∨ name ∈ seen) := by
  induction names generalizing seen with
  | nil => cases h
  | cons first rest ih =>
    unfold firstRepeat at h
    split at h
    next hseen =>
      cases h
      exact ⟨[], rest, rfl, .nil, by simp, .inr hseen⟩
    next hfresh =>
      -- the scan goes on with this name among those met, so it does not come again in the front
      obtain ⟨before, after, rfl, hdistinct, hunseen, hname⟩ := ih h
      have hfirst : first ∉ before := fun hmem => hunseen first hmem (by simp)
      refine ⟨first :: before, after, rfl, List.nodup_cons.mpr ⟨hfirst, hdistinct⟩, ?_, ?_⟩
      · refine List.forall_mem_cons.mpr ⟨hfresh, fun other hother hmem => ?_⟩
        exact hunseen other hother (List.mem_cons_of_mem first hmem)
      · simp only [List.mem_cons] at hname ⊢
        tauto

theorem firstRepeat_eq_some_iff {names : List String} {name : String} :
    firstRepeat [] names = some name ↔
      ∃ before after, names = before ++ name :: after ∧ before.Nodup ∧ name ∈ before := by
  constructor
  · intro h
    obtain ⟨before, after, hsplit, hdistinct, -, hname⟩ := exists_split_of_firstRepeat h
    exact ⟨before, after, hsplit, hdistinct, by simpa using hname⟩
  · rintro ⟨before, after, rfl, hdistinct, hname⟩
    exact firstRepeat_append hdistinct (by simp) (.inl hname) after

theorem firstRepeat_eq_some_iff_isLeast {names : List String} {name : String} :
    firstRepeat [] names = some name ↔
      ∃ place, IsLeast {i | RepeatedAt names i} place ∧ names[place]? = some name := by
  rw [firstRepeat_eq_some_iff]
  constructor
  · rintro ⟨before, after, rfl, hdistinct, hname⟩
    have htake : (before ++ name :: after).take before.length = before := List.take_left
    have hget : (before ++ name :: after)[before.length]? = some name := by simp
    refine ⟨before.length, ⟨⟨name, hget, htake.symm ▸ hname⟩, fun i hi => ?_⟩, hget⟩
    by_contra hlt
    rw [← htake, nodup_take_iff] at hdistinct
    exact hdistinct i (Nat.lt_of_not_le hlt) hi
  · rintro ⟨place, ⟨hrepeated, hleast⟩, hget⟩
    obtain ⟨hlt, hname⟩ := List.getElem?_eq_some_iff.mp hget
    refine ⟨names.take place, names.drop (place + 1), ?_, ?_, ?_⟩
    · rw [← hname, ← List.drop_eq_getElem_cons hlt, List.take_append_drop]
    · exact (nodup_take_iff names place).mpr fun i hi hmem => Nat.not_le.mpr hi (hleast hmem)
    · obtain ⟨other, hother, hmem⟩ := hrepeated
      rw [hget] at hother
      cases hother
      exact hmem

theorem Expr.ofFunction_eq_error_iff {name : String} {params : List String} {body : Expr}
    {error : BuildError} :
    Expr.ofFunction name params body = .error error ↔
      ∃ param, firstRepeat [] params = some param ∧ error = .duplicateParameter name param := by
  unfold Expr.ofFunction
  split
  next param hrepeat => simp [hrepeat, eq_comm]
  next hnone => simp [hnone]

/-! Decoding -/

namespace Json

variable {name : String} {params : List String} {body : Expr} {content : Json}

/-- The value is what a declaration of this function holds in one of its encodings, whether the
parameters are distinct or not. -/
def DescribesFunction (name : String) (params : List String) (body : Expr) (content : Json) : Prop :=
  ∃ json, Record [("name", .string name), ("params", .array (params.map .string)), ("body", json)]
    content ∧ json.decode = .ok body

theorem describesFunction_iff {levels : Nat} (hlevels : content.depth ≤ levels + 1) :
    DescribesFunction name params body content ↔
      decodeRecord (levels + 1) RecordType.functionDeclaration.title
        RecordType.functionDeclaration.fields content = .ok (name, params, body, ()) := by
  have hparts (part : Json) (hpart : part.depth < content.depth) :
      Values.Alike (Reads (contentReader levels)) Means part part :=
    alike_contentReader (fun k _ => decodesNodes k) (by omega)
  refine Iff.trans ?_ (decodeRecord_eq_ok_iff.trans (holds_congr hparts)).symm
  refine Iff.trans ?_ (holds_triple_iff rfl rfl rfl).symm
  constructor
  · rintro ⟨json, hrecord, hbody⟩
    exact ⟨_, _, json, hrecord, rfl, rfl, decode_eq_ok_iff.mp hbody⟩
  · rintro ⟨_, _, json, hrecord, rfl, rfl, hbody⟩
    exact ⟨json, hrecord, decode_eq_ok_iff.mpr hbody⟩

theorem DescribesFunction.decode_eq (h : DescribesFunction name params body content) :
    (object [("function_declaration", content)]).decode =
      (Expr.ofFunction name params body).mapError .invalid := by
  have htag : NodeShape.ofTag? "function_declaration" =
      some (.record RecordType.functionDeclaration) := rfl
  have hpos := content.depth_pos
  obtain ⟨levels, hlevels⟩ : ∃ k, content.depth = k + 1 := ⟨content.depth - 1, by omega⟩
  have hdepth : (object [("function_declaration", content)]).depth = levels + 2 := by
    simp [depth, depthMembers, hlevels]
  rw [decode, hdepth, decodeNode_tagged, htag]
  change decodeRecord (levels + 1) _ RecordType.functionDeclaration.fields content >>= _ = _
  rw [(describesFunction_iff hlevels.le).mp h]
  rfl

namespace ParseTree

variable {tree inner : ParseTree} {tag : String}

theorem Denotes.exists_content (h : tree.Denotes (.object [(tag, content)])) :
    ∃ inner, tree = .object [(some tag, inner)] ∧ inner.Denotes content := by
  cases h with
  | numeral hnumeral =>
    rcases number_of_toJson? hnumeral with ⟨_, hvalue⟩ | ⟨_, hvalue⟩ <;> cases hvalue
  | object hperm hnodup hkeys hvalues =>
    rcases (Denotes.object hperm hnodup hkeys hvalues).object_cases with ⟨-, hpairs⟩ |
      ⟨_, inner, _, rfl, hpairs, hinner⟩ | ⟨_, _, _, _, _, _, -, hpairs⟩
    · cases hpairs
    · cases hpairs
      exact ⟨inner, rfl, hinner⟩
    · cases hpairs

theorem Denotes.exists_value {value : Json} (h : Denotes (.object [(some tag, inner)]) value) :
    ∃ content, value = .object [(tag, content)] ∧ inner.Denotes content := by
  cases h with
  | object hperm hnodup hkeys hvalues =>
    rcases (Denotes.object hperm hnodup hkeys hvalues).object_cases with ⟨hmembers, -⟩ |
      ⟨_, _, content, hmembers, rfl, hcontent⟩ | ⟨_, _, _, _, _, _, hmembers, -⟩
    · cases hmembers
    · cases hmembers
      exact ⟨content, rfl, hcontent⟩
    · cases hmembers

theorem describesFunction_iff (h : inner.Denotes content) {levels : Nat}
    (hlevels : inner.nesting ≤ levels) :
    DescribesFunction name params body content ↔
      readRecord levels RecordType.functionDeclaration.fields inner =
        .ok (name, params, body, ()) := by
  have hdepth : content.depth ≤ levels + 1 := h.depth_le.trans (Nat.succ_le_succ hlevels)
  rw [Json.describesFunction_iff hdepth]
  exact ((agree levels).record inner content h hlevels _ _ (by decide) _).symm

end ParseTree

section Texts

variable {text : String} {tree : ParseTree}

theorem DescribesFunction.ofSource_eq (h : DescribesFunction name params body content)
    (hread : Document.read text = ⟨tree, true⟩) (hnesting : tree.nesting ≤ nestingLimit)
    (htree : tree.Denotes (.object [("function_declaration", content)])) :
    Expr.ofSource text = (Expr.ofFunction name params body).mapError .invalid := by
  have htag : NodeShape.ofTag? "function_declaration" =
      some (.record RecordType.functionDeclaration) := rfl
  obtain ⟨inner, rfl, hinner⟩ := htree.exists_content
  have hlevels : inner.nesting < nestingLimit := by
    simpa [ParseTree.nesting, ParseTree.nestingMembers] using hnesting
  unfold Expr.ofSource
  rw [hread]
  change (ParseTree.readNode 127 _ >>= pure) = _
  rw [bind_pure, ParseTree.readNode_tagged, htag]
  change (ParseTree.readRecord 126 RecordType.functionDeclaration.fields inner >>= _) >>= pure = _
  rw [bind_pure, (ParseTree.describesFunction_iff hinner (Nat.le_of_lt_succ hlevels)).mp h]
  rfl

/-- The value of a text may list its members in another order, and describes the same function. -/
theorem DescribesFunction.parse_eq (h : DescribesFunction name params body content)
    (hread : Document.read text = ⟨tree, true⟩) (hnesting : tree.nesting ≤ nestingLimit)
    (htree : tree.Denotes (.object [("function_declaration", content)])) :
    Program.parse text = ((Expr.ofFunction name params body).map fun e => [e]).mapError
      fun error => .undecodable (.invalid error) := by
  obtain ⟨value, htoJson, hvalue⟩ := htree.exists_toJson?
  obtain ⟨inner, rfl, hinner⟩ := htree.exists_content
  obtain ⟨content', rfl, hinner'⟩ := hvalue.exists_value
  have h' : DescribesFunction name params body content' := by
    rw [ParseTree.describesFunction_iff hinner' (Nat.le_refl _),
      ← ParseTree.describesFunction_iff hinner (Nat.le_refl _)]
    exact h
  unfold Program.parse Document.toJson?
  simp only [hread, if_pos hnesting, if_true, htoJson, h'.decode_eq]
  cases Expr.ofFunction name params body <;> rfl

end Texts

end Json

open Json in
/-- Repeated parameters are found exactly. A declaration with distinct parameters is built as it was
given, and any other one is refused with the parameter at the least place that repeats a name. A value
that describes the declaration decodes to the same outcome, as an object or as an array, and so does a
text of such a value that nests at most 127 arrays and objects, as an expression and as a program. The
error keeps its text. -/
theorem repeated_parameters_found (name : String) (params : List String) (body : Expr) :
    (∀ e, Expr.ofFunction name params body = .ok e ↔ params.Nodup ∧ e = .declare name params body) ∧
    (∀ error, Expr.ofFunction name params body = .error error ↔
      ∃ place param, IsLeast {i | RepeatedAt params i} place ∧ params[place]? = some param ∧
        error = .duplicateParameter name param) ∧
    (∀ content, DescribesFunction name params body content →
      (object [("function_declaration", content)]).decode =
        (Expr.ofFunction name params body).mapError .invalid ∧
      ∀ text tree, Document.read text = ⟨tree, true⟩ → tree.nesting ≤ 127 →
        tree.Denotes (.object [("function_declaration", content)]) →
        Expr.ofSource text = (Expr.ofFunction name params body).mapError .invalid ∧
        Program.parse text = ((Expr.ofFunction name params body).map fun e => [e]).mapError
          fun error => .undecodable (.invalid error)) ∧
    ∀ param, (DecodeError.invalid (.duplicateParameter name param)).message =
      "duplicate parameter '" ++ param ++ "' in function '" ++ name ++ "'" := by
  refine ⟨fun e => Expr.ofFunction_eq_ok_iff, fun error => ?_, fun content hcontent => ?_, fun _ => rfl⟩
  · rw [Expr.ofFunction_eq_error_iff]
    simp only [firstRepeat_eq_some_iff_isLeast]
    constructor
    · rintro ⟨param, ⟨place, hleast, hparam⟩, herror⟩
      exact ⟨place, param, hleast, hparam, herror⟩
    · rintro ⟨place, param, hleast, hparam, herror⟩
      exact ⟨param, ⟨place, hleast, hparam⟩, herror⟩
  · refine ⟨hcontent.decode_eq, fun text tree hread hnesting htree => ?_⟩
    exact ⟨hcontent.ofSource_eq hread hnesting htree, hcontent.parse_eq hread hnesting htree⟩

open Json in
/-- Both names come again, and the error names the one that does so first, though the other one is the
first of the parameters. -/
theorem repeated_parameters_found_crossed :
    let params := ["a", "b", "b", "a"]
    let x := Json.object [("variable", .string "x")]
    let content := Json.object [("body", x), ("note", .null), ("params", .array (params.map .string)),
      ("name", .string "f")]
    let json := Json.object [("function_declaration", content)]
    IsLeast {i | RepeatedAt params i} 2 ∧
      Expr.ofFunction "f" params (.var "x") = .error (.duplicateParameter "f" "b") ∧
      DescribesFunction "f" params (.var "x") content ∧
      json.decode = .error (.invalid (.duplicateParameter "f" "b")) ∧
      Document.read json.compact = ⟨json.tree, true⟩ ∧ json.tree.nesting ≤ 127 ∧
      json.tree.Denotes json ∧
      Expr.ofSource json.compact = .error (.invalid (.duplicateParameter "f" "b")) ∧
      Program.parse json.compact = .error (.undecodable (.invalid (.duplicateParameter "f" "b"))) := by
  intro params x content json
  have hleast : IsLeast {i | RepeatedAt params i} 2 := by
    have hdistinct : (params.take 2).Nodup := by decide
    refine ⟨⟨"b", rfl, by decide⟩, fun i hi => ?_⟩
    by_contra hlt
    exact (nodup_take_iff params 2).mp hdistinct i (Nat.lt_of_not_le hlt) hi
  have hcontent : DescribesFunction "f" params (.var "x") content :=
    ⟨x, .object (by simp [List.lookup_cons]), rfl⟩
  have hread : Document.read json.compact = ⟨json.tree, true⟩ := read_compact json
  have hnesting : json.tree.nesting ≤ 127 := by decide
  have hx : x.tree.Denotes x := .object (.refl _) (by decide) rfl (.cons (.string "x") .nil)
  have hnames : (Json.array (params.map .string)).tree.Denotes (.array (params.map .string)) :=
    .array (.cons (.string "a") (.cons (.string "b") (.cons (.string "b") (.cons (.string "a") .nil))))
  have hinner : content.tree.Denotes content :=
    .object (.refl _) (by decide) rfl (.cons hx (.cons .null (.cons hnames (.cons (.string "f") .nil))))
  have hdenotes : json.tree.Denotes json := .object (.refl _) (by decide) rfl (.cons hinner .nil)
  obtain ⟨-, herror, hdecode, -⟩ := repeated_parameters_found "f" params (.var "x")
  have hbuild := (herror (.duplicateParameter "f" "b")).mpr ⟨2, "b", hleast, rfl, rfl⟩
  obtain ⟨hvalue, htexts⟩ := hdecode content hcontent
  obtain ⟨hsource, hparse⟩ := htexts json.compact json.tree hread hnesting hdenotes
  rw [hbuild] at hvalue hsource hparse
  exact ⟨hleast, hbuild, hcontent, hvalue, hread, hnesting, hdenotes, hsource, hparse⟩

end Reckoner
