import Reckoner.Proofs.JsonText
import Reckoner.Proofs.RoundTrip

/-! Encoding and decoding as text. The text of an expression is read back unless a literal is not
finite or the text is nested too deep. What is read back is the expression itself, names and operators
included, save that a number is read in steps that round, so a literal may come out as a neighbour. -/

namespace Reckoner

/-- The expression with the literals that its text is read as. -/
def Expr.readBack (e : Expr) : Expr := e.mapLiterals fun x => (Json.readBack? x).getD x

namespace Json

theorem treeItems_eq_map (items : List Json) : treeItems items = items.map tree := by
  induction items with
  | nil => rfl
  | cons item items ih => rw [treeItems, ih, List.map_cons]

theorem exists_of_mem_treeMembers {members : List (String × Json)}
    {member : Option String × ParseTree} (h : member ∈ treeMembers members) :
    ∃ pair ∈ members, member.1 = some pair.1 := by
  induction members with
  | nil => simp [treeMembers] at h
  | cons pair members ih =>
    rcases List.mem_cons.mp h with rfl | h
    · exact ⟨pair, by simp, rfl⟩
    · obtain ⟨other, hother, hkey⟩ := ih h
      exact ⟨other, by simp [hother], hkey⟩

end Json

namespace Fits

open Json (ParseTree treeMembers exists_of_mem_treeMembers)
open Json.ParseTree

variable {read : (content : Content) → ParseTree → Except SourceError content.Carrier}
  {fields : List Field} {members : List (String × Json)} {values : Values fields} {P : Prop}

theorem key_ne {ε : Type} {read : (content : Content) → Json → Except ε content.Carrier} {bad : ε}
    (h : Fits read bad fields members values P) {key : String} (hkey : key ∉ fields.map Field.key) :
    ∀ member ∈ treeMembers members, member.1 ≠ some key := by
  intro member hmember heq
  obtain ⟨pair, hpair, hsame⟩ := exists_of_mem_treeMembers hmember
  cases hsame.symm.trans heq
  exact hkey (h.key_mem hpair)

theorem foldlM_eq (h : Fits (fun content json => read content json.tree) .rejected fields members
      values P) (hkeys : (fields.map Field.key).Nodup) :
    ∃ slots : Slots fields, (treeMembers members).foldlM (readMember read fields) (Slots.empty fields) =
      guarded .rejected P slots ∧ slots.close = .ok values := by
  induction h with
  | nil => exact ⟨(), (guarded_of trivial).symm, rfl⟩
  | @given field rest members json value values P Q hread hfits ih =>
    rw [List.map_cons, List.nodup_cons] at hkeys
    obtain ⟨slots, hfold, hclose⟩ := ih hkeys.2
    refine ⟨slots.push (some value), ?_, ?_⟩
    · have hfirst : readMember read (field :: rest) (Slots.empty (field :: rest))
          (some field.key, json.tree) = guarded .rejected P ((Slots.empty rest).push (some value)) := by
        rw [← map_guarded fun value => (Slots.empty rest).push (some value), ← hread]
        change readMember read (field :: rest) ((Slots.empty rest).push none) _ = _
        simp only [readMember, Slots.fill_push, if_true]
      rw [treeMembers, List.foldlM_cons, hfirst]
      apply bind_guarded
      rw [foldlM_readMember_push _ _ (hfits.key_ne hkeys.1), hfold, map_guarded]
    · rw [Slots.close_push, hclose]
      rfl
  | @absent field rest members value values Q habsent hfits ih =>
    rw [List.map_cons, List.nodup_cons] at hkeys
    obtain ⟨slots, hfold, hclose⟩ := ih hkeys.2
    refine ⟨slots.push none, ?_, ?_⟩
    · change (treeMembers members).foldlM (readMember read (field :: rest))
        ((Slots.empty rest).push none) = _
      rw [foldlM_readMember_push _ _ (hfits.key_ne hkeys.1), hfold, map_guarded]
    · rw [Slots.close_push, hclose, Option.none_or, habsent]
      rfl

theorem readMembers_eq (h : Fits (fun content json => read content json.tree) .rejected fields members
      values P) (hkeys : (fields.map Field.key).Nodup) :
    readMembers read fields (treeMembers members) = guarded .rejected P values := by
  obtain ⟨slots, hfold, hclose⟩ := h.foldlM_eq hkeys
  unfold readMembers
  rw [hfold]
  apply bind_guarded_ok
  rw [hclose]
  rfl

end Fits

namespace Json.ParseTree

theorem readNumber_eq (x : Float) :
    readNumber (tree (if x.isFinite then .float x else .null)) =
      guarded .rejected (x.isFinite = true) ((readBack? x).getD x) := by
  by_cases h : x.isFinite = true
  · obtain ⟨n, y, -, hread, -, hfloat, hback, -⟩ := floatText_read h
    rw [if_pos h, guarded_of h, tree, hread, hback]
    simp only [readNumber, hfloat]
    rfl
  · rw [if_neg h, guarded_of_not h]
    rfl

theorem readNames_eq (levels : Nat) (names : List String) :
    readNames levels (tree (.array (names.map .string))) = guarded .rejected (1 ≤ levels) names := by
  cases levels with
  | zero =>
    rw [guarded_of_not (by simp)]
    rfl
  | succ levels =>
    rw [guarded_of (by omega), tree, treeItems_eq_map, List.map_map]
    exact mapM_eq_ok_iff.mpr (List.forall₂_map_left_iff.mpr (List.forall₂_same.mpr fun _ _ => rfl))

/-- Texts are read as the trees that they spell. Whatever is wrong with them is one error. -/
def reader : ExprReader SourceError where
  bad := .rejected
  invalid := .invalid
  literal x := (readBack? x).getD x
  strict := True
  number json := readNumber json.tree
  text json := readText json.tree
  node levels json := readNode levels json.tree
  record levels _ fields json := readRecord levels fields json.tree
  content levels content json := contentReader levels content json.tree
  exprs levels json := readExprs levels json.tree
  node_zero _ _ := rfl
  record_zero _ _ _ _ := rfl
  exprs_zero _ _ := rfl
  node_tagged {_ shape} htag levels json := by
    rw [tree, treeMembers, readNode_tagged, htag]
    exact (bind_pure _).trans (by cases shape <;> rfl)
  record_object _ hkeys hfits := hfits.readMembers_eq hkeys
  exprs_array levels items := by
    rw [tree, treeItems_eq_map, readExprs, List.mapM_map]
    rfl
  number_literal x := readNumber_eq x
  text_string _ := rfl
  content_text _ _ := rfl
  content_expr _ _ := rfl
  content_operand _ e := by cases e <;> rfl
  content_condition _ _ := rfl
  content_names _ names := readNames_eq _ names
  content_exprs _ _ := rfl

end Json.ParseTree

theorem Expr.ofSource_encode {e : Expr} (he : e.WellBuilt) :
    ofSource e.encode = guarded .rejected (e.Legible nestingLimit) e.readBack := by
  unfold ofSource encode
  have hroom : Json.ParseTree.reader.strict ∨ e.toJson.nesting ≤ nestingLimit := .inl trivial
  have hread : e.toJson.tree.readNode nestingLimit =
      guarded .rejected (e.Legible nestingLimit) e.readBack :=
    Json.ParseTree.reader.node_toJson he hroom
  simp only [Json.read_compact, hread]
  exact bind_pure _

/-- The text of a built expression is read if all its literals are finite and it nests at most 127
arrays and objects, and otherwise not. What is read is the expression with each literal as its text is
read, so it is the expression itself just if every literal is read as itself. The text of a literal
spells a number that rounds to it. What it is read as is finite and has the same sign, and it is the
literal if the digits and the power of ten are themselves doubles, as they are for zeros. -/
theorem text_round_trip (e : Expr) (he : e.Built) :
    ((∃ e', Expr.ofSource e.encode = .ok e') ↔ e.FiniteLiterals ∧ e.toJson.nesting ≤ 127) ∧
    (∀ e', Expr.ofSource e.encode = .ok e' → e' = e.readBack ∧
      (e' = e ↔ ∀ x, Expr.Within (.literal x) e → Json.readBack? x = some x)) ∧
    (∀ x : Float, x.isFinite = true → ∃ n y,
      Json.readNumeral (Json.floatText x).toList = some (n, []) ∧
      n.decimal.toDouble = Number.magnitude x ∧ Json.readBack? x = some y ∧ y.isFinite = true ∧
      Number.isNegative y = Number.isNegative x ∧
      (n.decimal.digits < 2 ^ 53 → n.decimal.power.natAbs ≤ 22 → y = x)) ∧
    ∀ negative, Json.readBack? (Number.ofMagnitude negative 0) =
      some (Number.ofMagnitude negative 0) := by
  have hsource := Expr.ofSource_encode he.wellBuilt
  refine ⟨?_, ?_, ?_, ?_⟩
  · simp only [hsource, guarded_eq_ok_iff, exists_and_left, exists_eq', and_true]
    rfl
  · intro e' he'
    obtain ⟨⟨hfinite, -⟩, rfl⟩ := guarded_eq_ok_iff.mp (hsource.symm.trans he')
    refine ⟨rfl, (Expr.mapLiterals_eq_self_iff _ e).trans (forall₂_congr fun x hx => ?_)⟩
    obtain ⟨n, y, -, -, -, -, hback, -⟩ := Json.floatText_read (hfinite x hx)
    simp [hback]
  · intro x hx
    obtain ⟨n, y, -, hread, hround, -, hback, hy⟩ := Json.floatText_read hx
    exact ⟨n, y, hread, hround, hback, hy⟩
  · intro negative
    cases negative <;> rfl

/-- A negative zero below as many nodes as fit, and below one more, in a function whose names are to
be escaped or are not in the first plane. -/
theorem text_round_trip_deepest :
    let e (n : Nat) : Expr := .declare "\"\\\n" ["\u2028", "😀"]
      ((Expr.unary "neg")^[n] (.literal (Number.ofMagnitude true 0)))
    Expr.ofSource (e 62).encode = .ok (e 62) ∧ ¬ ∃ e', Expr.ofSource (e 63).encode = .ok e' := by
  intro e
  have hbuilt (n : Nat) : (e n).Built := by
    refine .function ?_ (Expr.ofFunction_eq_ok_iff.mpr ⟨by decide, rfl⟩)
    induction n with
    | zero => exact .literal _
    | succ n ih =>
      rw [Function.iterate_succ_apply']
      exact .unary _ ih
  have hliterals {P : Float → Prop} (hzero : P (Number.ofMagnitude true 0)) (n : Nat) :
      ∀ x, Expr.Within (.literal x) (e n) → P x := by
    rw [Expr.forall_literal_iff (by simp [e])]
    refine List.forall_mem_singleton.mpr ?_
    induction n with
    | zero => exact Expr.forall_literal_literal.mpr hzero
    | succ n ih =>
      rw [Function.iterate_succ_apply', Expr.forall_literal_iff (by simp)]
      exact List.forall_mem_singleton.mpr ih
  have hnesting (n : Nat) : (e n).toJson.nesting = 2 * n + 3 := by
    have hbody : ((Expr.unary "neg")^[n] (.literal (Number.ofMagnitude true 0))).toJson.nesting =
        2 * n + 1 := by
      induction n with
      | zero => decide
      | succ n ih =>
        rw [Function.iterate_succ_apply']
        simp only [Expr.toJson, Expr.tagged, Json.nesting, Json.nestingMembers, ih]
        omega
    simp [e, Expr.toJson, Expr.tagged, Json.nesting, Json.nestingMembers, Json.nestingItems, hbody]
  obtain ⟨hread, hsame, -, hzero⟩ := text_round_trip (e 62) (hbuilt 62)
  constructor
  · obtain ⟨e', he'⟩ := hread.mpr ⟨hliterals (by decide) 62, by rw [hnesting]⟩
    rw [he', (hsame e' he').2.mpr (hliterals (hzero true) 62)]
  · rw [(text_round_trip (e 63) (hbuilt 63)).1, hnesting]
    omega

/-- The text of this double is 0.44757364281374323, and is read as the double before it: the digits
and the power of ten are rounded to doubles before one is divided by the other. -/
theorem text_round_trip_neighbour :
    let x := Number.ofMagnitude false 0x3fdca50beb9bf176
    let y := Number.ofMagnitude false 0x3fdca50beb9bf175
    (Expr.literal x).Built ∧ (Expr.literal x).FiniteLiterals ∧ (Expr.literal x).toJson.nesting ≤ 127 ∧
      Expr.ofSource (Expr.literal x).encode = .ok (.literal y) ∧ y ≠ x := by
  intro x y
  have hbuilt : (Expr.literal x).Built := .literal x
  have hfinite : x.isFinite = true := by decide
  have hback : Json.readBack? x = some y := by decide +kernel
  have hlegible : (Expr.literal x).Legible nestingLimit :=
    Expr.legible_iff.mpr ⟨by decide, hfinite⟩
  refine ⟨hbuilt, hlegible.1, hlegible.2, ?_, by decide +kernel⟩
  rw [Expr.ofSource_encode hbuilt.wellBuilt, guarded_of hlegible]
  simp [Expr.readBack, Expr.mapLiterals, hback]

end Reckoner
