import Reckoner.Proofs.RoundTrip

/-! Encoding and decoding as values. The value of an expression decodes to that expression if all its
literals are finite, and to nothing else; an infinity or a NaN is written as null, where decoding finds
no number. So encoding loses nothing but such literals. -/

namespace Reckoner

namespace Json

theorem readFields_cons_other {read : (content : Content) → Json → Except DecodeError content.Carrier}
    {fields : List Field} {key : String} (hkey : key ∉ fields.map Field.key) (json : Json)
    (members : List (String × Json)) :
    readFields read ((key, json) :: members) fields = readFields read members fields := by
  induction fields with
  | nil => rfl
  | cons field rest ih =>
    simp only [List.map_cons, List.mem_cons, not_or] at hkey
    have hother : (field.key == key) = false := beq_eq_false_iff_ne.mpr (Ne.symm hkey.1)
    rw [readFields_cons, readFields_cons, List.lookup_cons, hother, ih hkey.2]

end Json

namespace Fits

open Json

variable {read : (content : Content) → Json → Except DecodeError content.Carrier} {bad : DecodeError}
  {fields : List Field} {members : List (String × Json)} {values : Values fields} {P : Prop}

theorem readFields_eq (h : Fits read bad fields members values P)
    (hkeys : (fields.map Field.key).Nodup) :
    (P → (readFields read members fields).2 = [] ∧
      (readFields read members fields).1.close = .ok values) ∧
    (¬ P → (readFields read members fields).2 ≠ []) ∧
    ∀ error ∈ (readFields read members fields).2, error.2 = bad := by
  induction h with
  | nil => exact ⟨fun _ => ⟨rfl, rfl⟩, fun hnot => absurd trivial hnot, by simp [readFields]⟩
  | @given field rest members json value values P Q hread _ ih =>
    rw [List.map_cons, List.nodup_cons] at hkeys
    obtain ⟨hgood, hbad, hall⟩ := ih hkeys.2
    rw [readFields_cons, List.lookup_cons_self, readFields_cons_other hkeys.1, Option.map_some, hread]
    by_cases hP : P
    · rw [guarded_of hP]
      refine ⟨fun hboth => ⟨(hgood hboth.2).1, ?_⟩, fun hnot => hbad fun hQ => hnot ⟨hP, hQ⟩, hall⟩
      rw [Slots.close_push, (hgood hboth.2).2]
      rfl
    · rw [guarded_of_not hP]
      exact ⟨fun hboth => absurd hboth.1 hP, fun _ => by simp, by simpa using hall⟩
  | @absent field rest members value values Q habsent hfits ih =>
    rw [List.map_cons, List.nodup_cons] at hkeys
    obtain ⟨hgood, hbad, hall⟩ := ih hkeys.2
    have hmissing : members.lookup field.key = none := by
      refine List.lookup_eq_none_iff.mpr fun member hmember => ?_
      have hkey := hfits.key_mem hmember
      grind
    rw [readFields_cons, hmissing, Option.map_none]
    refine ⟨fun hQ => ⟨(hgood hQ).1, ?_⟩, hbad, hall⟩
    rw [Slots.close_push, Option.none_or, habsent, (hgood hQ).2]
    rfl

theorem decodeMembers_eq (h : Fits read bad fields members values P)
    (hkeys : (fields.map Field.key).Nodup) :
    decodeMembers read fields members = guarded bad P values := by
  obtain ⟨hgood, hbad, hall⟩ := h.readFields_eq hkeys
  unfold decodeMembers
  by_cases hP : P
  · obtain ⟨hnone, hclose⟩ := hgood hP
    simp only [hnone, leastError, hclose, guarded_of hP]
    rfl
  · obtain ⟨key, hleast⟩ := leastError_eq (hbad hP) hall
    simp only [hleast, guarded_of_not hP]

end Fits

namespace Json

/-- What decoding finds where a literal is not finite. -/
def noNumber : DecodeError := .wrongType .null .number

theorem decodeNumber_eq (x : Float) :
    decodeNumber (if x.isFinite then .float x else .null) =
      guarded noNumber (x.isFinite = true) x := by
  by_cases h : x.isFinite = true
  · rw [if_pos h, guarded_of h]
    rfl
  · rw [if_neg h, guarded_of_not h]
    rfl

theorem decodeNames_eq (names : List String) :
    decodeNames (.array (names.map .string)) = .ok names :=
  mapM_eq_ok_iff.mpr (List.forall₂_map_left_iff.mpr (List.forall₂_same.mpr fun _ _ => rfl))

/-- Values are read as they are. With too few levels there are errors of other kinds. -/
def reader : ExprReader DecodeError where
  bad := noNumber
  invalid := .invalid
  literal := id
  strict := False
  number := decodeNumber
  text := decodeText
  node := decodeNode
  record := decodeRecord
  content := contentReader
  exprs := decodeExprs
  node_zero _ := False.elim
  record_zero _ _ _ := False.elim
  exprs_zero _ := False.elim
  node_tagged htag _ _ := by rw [decodeNode_tagged, htag, decodeShape]
  record_object _ hkeys hfits := hfits.decodeMembers_eq hkeys
  exprs_array _ _ := rfl
  number_literal x := decodeNumber_eq x
  text_string _ := rfl
  content_text _ _ := rfl
  content_expr _ _ := rfl
  content_operand _ e := by cases e <;> rfl
  content_condition _ _ := rfl
  content_names hroom names := (decodeNames_eq names).trans (guarded_of (hroom.resolve_left id)).symm
  content_exprs _ _ := rfl

mutual

theorem nesting_le_depth (json : Json) : json.nesting ≤ json.depth := by
  cases json with
  | array items => exact Nat.succ_le_succ (nestingItems_le_depthItems items)
  | object members => exact Nat.succ_le_succ (nestingMembers_le_depthMembers members)
  | _ => exact Nat.zero_le _

theorem nestingItems_le_depthItems (items : List Json) : nestingItems items ≤ depthItems items := by
  cases items with
  | nil => exact Nat.le_refl _
  | cons item rest =>
    have hitem := nesting_le_depth item
    have hrest := nestingItems_le_depthItems rest
    simp only [nestingItems, depthItems]
    omega

theorem nestingMembers_le_depthMembers (members : List (String × Json)) :
    nestingMembers members ≤ depthMembers members := by
  cases members with
  | nil => exact Nat.le_refl _
  | cons member rest =>
    have hvalue := nesting_le_depth member.2
    have hrest := nestingMembers_le_depthMembers rest
    simp only [nestingMembers, depthMembers]
    omega

end

theorem decode_toJson {e : Expr} (he : e.WellBuilt) :
    e.toJson.decode = guarded noNumber e.FiniteLiterals e := by
  have hdepth := e.toJson.nesting_le_depth
  have hread : e.toJson.decode = guarded noNumber (e.Legible e.toJson.depth) (e.mapLiterals id) :=
    reader.node_toJson he (.inr hdepth)
  have hsame : e.mapLiterals id = e := (e.mapLiterals_eq_self_iff id).mpr fun _ _ => rfl
  rw [hread, hsame]
  exact guarded_congr (and_iff_left hdepth)

end Json

/-- The value of a built expression decodes to the expression itself if all its literals are finite,
and otherwise to nothing, since null is found in the place of a number. Hence two expressions with
finite literals that have the same value are the same. -/
theorem value_round_trip (e : Expr) (he : e.Built) :
    (e.toJson.decode = .ok e ↔ e.FiniteLiterals) ∧
    (¬ e.FiniteLiterals → e.toJson.decode = .error Json.noNumber) ∧
    ∀ e' : Expr, e'.Built → e.FiniteLiterals → e'.FiniteLiterals → e.toJson = e'.toJson → e = e' := by
  have hdecode := Json.decode_toJson he.wellBuilt
  refine ⟨?_, ?_, ?_⟩
  · rw [hdecode, guarded_eq_ok_iff, and_iff_left rfl]
  · intro hinfinite
    rw [hdecode, guarded_of_not hinfinite]
  · intro e' he' hfinite hfinite' hsame
    rw [hsame, Json.decode_toJson he'.wellBuilt, guarded_of hfinite', guarded_of hfinite] at hdecode
    injection hdecode with heq
    exact heq.symm

/-- A negative zero and a unary node deep inside, with the empty name and one that is not printable;
and the same with an infinity. -/
theorem value_round_trip_signed_zero :
    let e (x : Float) : Expr := .declare "" ["\x00", "\u2028"]
      (.block [.unary "neg" (.literal x), .branch "" (.var "") (.literal x) (.call "f" []) (.var "\"")])
    let zero := Number.ofMagnitude true 0
    let infinity := Number.ofMagnitude true Number.infinity
    (e zero).toJson.decode = .ok (e zero) ∧
      (e infinity).toJson.decode = .error Json.noNumber := by
  intro e zero infinity
  have hbuilt (x : Float) : (e x).Built := by
    refine .function ?_ (Expr.ofFunction_eq_ok_iff.mpr ⟨by decide, rfl⟩)
    refine .block ?_ (Expr.ofBlock_eq_ok_iff.mpr ⟨by simp, rfl⟩)
    simp only [List.forall_mem_cons, List.not_mem_nil, false_implies, implies_true, and_true]
    exact ⟨.unary _ (.literal x), .ifElse ⟨_, _, _⟩ (.var _) (.literal x) (.call _ (by simp)) (.var _)⟩
  have hfinite (x : Float) : (e x).FiniteLiterals ↔ x.isFinite = true := by
    simp [e, Expr.finiteLiterals_iff, Expr.finiteLiterals_literal]
  constructor
  · exact (value_round_trip _ (hbuilt zero)).1.mpr ((hfinite zero).mpr (by decide))
  · refine (value_round_trip _ (hbuilt infinity)).2.1 fun h => ?_
    have hnot : infinity.isFinite = false := by decide
    rw [hfinite, hnot] at h
    simp at h

end Reckoner
