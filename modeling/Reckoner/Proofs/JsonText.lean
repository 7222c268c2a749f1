import Reckoner.Json.Document
import Reckoner.Proofs.Numeral

/-! Reading undoes writing. The text of a JSON value is read as the tree of that value, whatever its
strings contain and however deep it is nested, and nothing of the text is left. -/

namespace Reckoner.Json

/-! Strings -/

theorem hexQuad_hexPair : ∀ n < 0x20,
    hexQuad '0' '0' (Nat.digitChar (n / 16)) (Nat.digitChar (n % 16)) = some n := by
  decide

theorem readUnits_escape (units : List Nat) (c : Char) (rest : List Char) :
    readUnits units (escape c ++ rest) = readUnits (c.toNat :: units) rest := by
  by_cases hshort : c ∈ ['"', '\\', '\x08', '\t', '\n', '\x0c', '\r']
  · simp only [List.mem_cons, List.not_mem_nil, or_false] at hshort
    rcases hshort with rfl | rfl | rfl | rfl | rfl | rfl | rfl <;> rfl
  · simp only [List.mem_cons, List.not_mem_nil, or_false, not_or] at hshort
    by_cases hcontrol : c.toNat < 0x20
    · have hescape : escape c = '\\' :: 'u' :: '0' :: '0' :: hexPair c.toNat := by
        simp [escape, hshort, hcontrol]
      simp only [hescape, hexPair, List.cons_append, List.nil_append, readUnits,
        hexQuad_hexPair c.toNat hcontrol]
    · have hescape : escape c = [c] := by simp [escape, hshort, hcontrol]
      rw [hescape, List.singleton_append, readUnits.eq_def]
      split
      · simp_all
      · simp_all
      · simp_all
      · simp_all
      next heq =>
        cases heq
        rw [if_neg hcontrol]

theorem readUnits_escapes (units : List Nat) (chars rest : List Char) :
    readUnits units (chars.foldr (fun c rest => escape c ++ rest) ('"' :: rest)) =
      some (units.reverse ++ chars.map Char.toNat, rest) := by
  induction chars generalizing units with
  | nil => simp [readUnits]
  | cons c chars ih =>
    rw [List.foldr_cons, readUnits_escape, ih]
    simp

/-- No code point of a text is half of a surrogate pair. -/
theorem not_surrogate (c : Char) : ¬ (0xd800 ≤ c.toNat ∧ c.toNat < 0xe000) := by
  have hvalid : c.toNat < 0xd800 ∨ 0xdfff < c.toNat ∧ c.toNat < 0x110000 := c.valid
  omega

theorem joinUnits_map (text chars : List Char) :
    joinUnits text (chars.map Char.toNat) = some (text.reverse ++ chars) := by
  induction chars generalizing text with
  | nil => simp [joinUnits]
  | cons c chars ih =>
    have hc := not_surrogate c
    cases chars with
    | nil =>
      simp only [List.map_cons, List.map_nil, joinUnits, if_neg hc, Char.ofNat_toNat]
      simp
    | cons d chars =>
      have hpair : ¬ (0xd800 ≤ c.toNat ∧ c.toNat < 0xdc00 ∧ 0xdc00 ≤ d.toNat ∧ d.toNat < 0xe000) := by
        omega
      rw [List.map_cons, List.map_cons, joinUnits, if_neg hpair, if_neg hc, Char.ofNat_toNat,
        ← List.map_cons, ih]
      simp

theorem readString_escapes (text : String) (rest : List Char) :
    readString (text.toList.foldr (fun c rest => escape c ++ rest) ('"' :: rest)) =
      some (some text, rest) := by
  unfold readString
  rw [readUnits_escapes]
  simp [joinUnits_map]

theorem readKey_writeString (key : String) (rest : List Char) :
    readKey (writeString key (':' :: rest)) = some (some key, rest) := by
  have hskip (text : List Char) : skipBlanks ('"' :: text) = '"' :: text := rfl
  unfold readKey writeString
  rw [hskip]
  simp only [readString_escapes]
  rfl

/-! Values -/

def Opens (text : List Char) : Prop :=
  ∃ c more, text = c :: more ∧ isBlank c = false ∧ c ≠ ']' ∧ c ≠ '}'

theorem Opens.skipBlanks_eq {text : List Char} (h : Opens text) : skipBlanks text = text := by
  obtain ⟨c, more, rfl, hc, -⟩ := h
  simp [skipBlanks, hc]

def opensNumber (c : Char) : Bool := c = '-' || c.isDigit

theorem ne_of_opensNumber {c d : Char} (hc : opensNumber c = true) (hd : opensNumber d = false) :
    c ≠ d := by
  rintro rfl
  rw [hc] at hd
  cases hd

theorem exists_signed_eq_cons {negative : Bool} {text : List Char} {n : Numeral}
    (h : Spells negative text n) :
    ∃ c more, Spells.signed negative text = c :: more ∧ opensNumber c = true := by
  cases negative with
  | true => exact ⟨'-', text, rfl, rfl⟩
  | false =>
    obtain ⟨c, more, rfl, hc⟩ := h.exists_cons
    exact ⟨c, more, rfl, by simp [opensNumber, hc]⟩

theorem opens_of_opensNumber {c : Char} (h : opensNumber c = true) (more : List Char) :
    Opens (c :: more) := by
  refine ⟨c, more, rfl, ?_, ne_of_opensNumber h rfl, ne_of_opensNumber h rfl⟩
  have hblank (d : Char) (hd : opensNumber d = false) : c ≠ d := ne_of_opensNumber h hd
  simp [isBlank, hblank ' ' rfl, hblank '\n' rfl, hblank '\t' rfl, hblank '\r' rfl]

theorem opens_signed {negative : Bool} {text : List Char} {n : Numeral}
    (h : Spells negative text n) (rest : List Char) : Opens (Spells.signed negative text ++ rest) := by
  obtain ⟨c, more, hcons, hc⟩ := exists_signed_eq_cons h
  rw [hcons]
  exact opens_of_opensNumber hc _

theorem readValue_of_opensNumber {c : Char} {more rest : List Char} {n : Numeral}
    (hc : opensNumber c = true) (h : readNumeral (c :: more) = some (n, rest)) (fuel : Nat) :
    readValue (fuel + 1) (c :: more) = (.numeral n, some rest) := by
  rw [readValue, (opens_of_opensNumber hc more).skipBlanks_eq]
  split
  next heq => exact absurd (List.cons.inj heq).1 (ne_of_opensNumber hc rfl)
  next heq => exact absurd (List.cons.inj heq).1 (ne_of_opensNumber hc rfl)
  next heq => exact absurd (List.cons.inj heq).1 (ne_of_opensNumber hc rfl)
  next heq => exact absurd (List.cons.inj heq).1 (ne_of_opensNumber hc rfl)
  next heq => exact absurd (List.cons.inj heq).1 (ne_of_opensNumber hc rfl)
  next heq => exact absurd (List.cons.inj heq).1 (ne_of_opensNumber hc rfl)
  next => rw [h]

theorem readValue_numeral {negative : Bool} {text rest : List Char} {n : Numeral}
    (h : Spells negative text n) (hrest : Closes rest) (fuel : Nat) :
    readValue (fuel + 1) (Spells.signed negative text ++ rest) = (.numeral n, some rest) := by
  have hread := h.readNumeral_append hrest
  obtain ⟨c, more, hcons, hc⟩ := exists_signed_eq_cons h
  rw [hcons, List.cons_append] at hread ⊢
  exact readValue_of_opensNumber hc hread fuel

mutual

/-- What the text of a value is read as. -/
def tree : Json → ParseTree
  | null => .null
  | bool value => .bool value
  | integer value => .numeral ⟨value < 0, Nat.toDigits 10 value.natAbs, [], none⟩
  | float value =>
      match readNumeral (floatText value).toList with
      | some (n, _) => .numeral n
      | none => .null
  | string value => .string (some value)
  | array items => .array (treeItems items)
  | object members => .object (treeMembers members)

def treeItems : List Json → List ParseTree
  | [] => []
  | item :: rest => tree item :: treeItems rest

def treeMembers : List (String × Json) → List (Option String × ParseTree)
  | [] => []
  | (key, value) :: rest => (some key, tree value) :: treeMembers rest

end

theorem readValue_float (x : Float) {rest : List Char} (hrest : Closes rest) (fuel : Nat) :
    readValue (fuel + 1) ((floatText x).toList ++ rest) = (tree (.float x), some rest) := by
  by_cases hfinite : x.isFinite = true
  · obtain ⟨n, -, hspells, -⟩ := floatText_read hfinite
    have hnil : Closes [] := nofun
    have hread := hspells.readNumeral_append hnil
    rw [List.append_nil, ← floatText_toList hfinite] at hread
    rw [floatText_toList hfinite, readValue_numeral hspells hrest, tree, hread]
  · have htext : (floatText x).toList = ['n', 'u', 'l', 'l'] := by simp [floatText, hfinite]
    rw [tree, htext]
    rfl

theorem whole_toDigits (n : Nat) : Whole (Nat.toDigits 10 n) := by
  rcases Nat.eq_zero_or_pos n with rfl | hpos
  · rw [Nat.toDigits_zero]
    exact ⟨by simp, by simp, fun _ => rfl⟩
  · have hwhole := whole_of_toDigits hpos (List.append_nil _).symm Nat.toDigits_ne_nil [] (by simp)
    rwa [List.append_nil] at hwhole

theorem toString_toList (value : Int) :
    (toString value).toList =
      Spells.signed (decide (value < 0)) (Nat.toDigits 10 value.natAbs) := by
  rw [Int.toString_eq_repr]
  cases value with
  | ofNat n => simp [Int.repr, Nat.repr_eq_ofList_toDigits, Spells.signed]
  | negSucc n => simp [Int.repr, Nat.repr_eq_ofList_toDigits, Spells.signed, Int.negSucc_lt_zero]

theorem readValue_integer (value : Int) {rest : List Char} (hrest : Closes rest) (fuel : Nat) :
    readValue (fuel + 1) ((toString value).toList ++ rest) = (tree (.integer value), some rest) := by
  rw [toString_toList, readValue_numeral (.integral (whole_toDigits _)) hrest, tree]

theorem opens_write (json : Json) (rest : List Char) : Opens (write json rest) := by
  cases json with
  | null => exact ⟨'n', _, rfl, rfl, by decide, by decide⟩
  | bool value =>
    cases value with
    | true => exact ⟨'t', _, rfl, rfl, by decide, by decide⟩
    | false => exact ⟨'f', _, rfl, rfl, by decide, by decide⟩
  | integer value =>
    rw [write, toString_toList]
    exact opens_signed (.integral (whole_toDigits _)) rest
  | float x =>
    rw [write]
    by_cases hfinite : x.isFinite = true
    · obtain ⟨n, -, hspells, -⟩ := floatText_read hfinite
      rw [floatText_toList hfinite]
      exact opens_signed hspells rest
    · have htext : (floatText x).toList = ['n', 'u', 'l', 'l'] := by simp [floatText, hfinite]
      rw [htext]
      exact ⟨'n', _, rfl, rfl, by decide, by decide⟩
  | string value => exact ⟨'"', _, by rw [write]; rfl, rfl, by decide, by decide⟩
  | array items =>
    refine ⟨'[', (write (.array items) rest).tail, ?_, rfl, by decide, by decide⟩
    cases items <;> rfl
  | object members =>
    refine ⟨'{', (write (.object members) rest).tail, ?_, rfl, by decide, by decide⟩
    cases members <;> rfl

theorem length_lt_writeString (text : String) (rest : List Char) :
    rest.length < (writeString text rest).length := by
  unfold writeString
  induction text.toList with
  | nil => simp
  | cons c chars ih =>
    simp only [List.foldr_cons, List.length_cons, List.length_append] at ih ⊢
    omega

mutual

theorem length_lt_write (json : Json) (rest : List Char) : rest.length < (write json rest).length := by
  cases json with
  | array items =>
    cases items with
    | nil => simp [write]
    | cons item items =>
      have hitem := length_lt_write item (writeItems items rest)
      have hitems := length_lt_writeItems items rest
      simp only [write, List.length_cons]
      omega
  | object members =>
    cases members with
    | nil => simp [write]
    | cons member members =>
      obtain ⟨key, value⟩ := member
      have hkey := length_lt_writeString key (':' :: write value (writeMembers members rest))
      have hvalue := length_lt_write value (writeMembers members rest)
      have hmembers := length_lt_writeMembers members rest
      simp only [write, List.length_cons] at hkey ⊢
      omega
  | string value =>
    rw [write]
    exact length_lt_writeString value rest
  | null =>
    simp only [write, List.length_append]
    exact Nat.lt_add_of_pos_left (by decide)
  | bool value =>
    cases value <;> simp [write] <;> omega
  | integer value =>
    obtain ⟨c, more, hcons, -⟩ := opens_write (.integer value) []
    rw [write, List.append_nil] at hcons
    rw [write, hcons, List.length_append, List.length_cons]
    omega
  | float value =>
    obtain ⟨c, more, hcons, -⟩ := opens_write (.float value) []
    rw [write, List.append_nil] at hcons
    rw [write, hcons, List.length_append, List.length_cons]
    omega

theorem length_lt_writeItems (items : List Json) (rest : List Char) :
    rest.length < (writeItems items rest).length := by
  cases items with
  | nil => simp [writeItems]
  | cons item items =>
    have hitem := length_lt_write item (writeItems items rest)
    have hitems := length_lt_writeItems items rest
    simp only [writeItems, List.length_cons]
    omega

theorem length_lt_writeMembers (members : List (String × Json)) (rest : List Char) :
    rest.length < (writeMembers members rest).length := by
  cases members with
  | nil => simp [writeMembers]
  | cons member members =>
    obtain ⟨key, value⟩ := member
    have hkey := length_lt_writeString key (':' :: write value (writeMembers members rest))
    have hvalue := length_lt_write value (writeMembers members rest)
    have hmembers := length_lt_writeMembers members rest
    simp only [writeMembers, List.length_cons] at hkey ⊢
    omega

end

theorem closes_writeItems (items : List Json) (rest : List Char) : Closes (writeItems items rest) := by
  cases items with
  | nil =>
    rintro c ⟨⟩
    simp
  | cons item items =>
    rintro c ⟨⟩
    simp

theorem closes_writeMembers (members : List (String × Json)) (rest : List Char) :
    Closes (writeMembers members rest) := by
  cases members with
  | nil =>
    rintro c ⟨⟩
    simp
  | cons member members =>
    rintro c ⟨⟩
    simp

theorem readValue_array {text : List Char} (h : Opens text) (fuel : Nat) :
    readValue (fuel + 1) ('[' :: text) =
      (.array (readItems fuel text).1, (readItems fuel text).2) := by
  have hskip : skipBlanks ('[' :: text) = '[' :: text := rfl
  rw [readValue, hskip]
  simp only [h.skipBlanks_eq]
  obtain ⟨c, more, rfl, -, hc, -⟩ := h
  split
  next heq => exact absurd (List.cons.inj heq).1 hc
  next => rfl

theorem readValue_object {text : List Char} (h : Opens text) (fuel : Nat) :
    readValue (fuel + 1) ('{' :: text) =
      (.object (readMembers fuel text).1, (readMembers fuel text).2) := by
  have hskip : skipBlanks ('{' :: text) = '{' :: text := rfl
  rw [readValue, hskip]
  simp only [h.skipBlanks_eq]
  obtain ⟨c, more, rfl, -, -, hc⟩ := h
  split
  next heq => exact absurd (List.cons.inj heq).1 hc
  next => rfl

/-! Values, items and members are read back with fuel for twice the length of their text. -/

def ReadsValues (fuel : Nat) : Prop :=
  ∀ json rest, Closes rest → 2 * (write json rest).length ≤ fuel + 2 * rest.length →
    readValue fuel (write json rest) = (json.tree, some rest)

def ReadsItems (fuel : Nat) : Prop :=
  ∀ item items rest, 2 * (write item (writeItems items rest)).length < fuel + 2 * rest.length →
    readItems fuel (write item (writeItems items rest)) = (treeItems (item :: items), some rest)

def ReadsMembers (fuel : Nat) : Prop :=
  ∀ key value members rest,
    2 * (writeString key (':' :: write value (writeMembers members rest))).length <
      fuel + 2 * rest.length →
    readMembers fuel (writeString key (':' :: write value (writeMembers members rest))) =
      (treeMembers ((key, value) :: members), some rest)

section Steps

variable {fuel : Nat}

theorem readsValues_succ (hitems : ReadsItems fuel) (hmembers : ReadsMembers fuel) :
    ReadsValues (fuel + 1) := by
  intro json rest hrest hfuel
  cases json with
  | null => rfl
  | bool value => cases value <;> rfl
  | integer value => rw [write, readValue_integer value hrest]
  | float value => rw [write, readValue_float value hrest]
  | string value =>
    have hskip (text : List Char) : skipBlanks ('"' :: text) = '"' :: text := rfl
    rw [write, writeString, readValue, hskip]
    simp only [readString_escapes, tree]
  | array items =>
    cases items with
    | nil => rfl
    | cons item items =>
      rw [write] at hfuel ⊢
      rw [List.length_cons] at hfuel
      rw [readValue_array (opens_write _ _), hitems item items rest (by omega), tree]
  | object members =>
    cases members with
    | nil => rfl
    | cons member members =>
      obtain ⟨key, value⟩ := member
      rw [write] at hfuel ⊢
      rw [List.length_cons] at hfuel
      have hopens : Opens (writeString key (':' :: write value (writeMembers members rest))) :=
        ⟨'"', _, rfl, rfl, by decide, by decide⟩
      rw [readValue_object hopens, hmembers key value members rest (by omega), tree]

theorem readsItems_succ (hvalue : ReadsValues fuel) (hitems : ReadsItems fuel) :
    ReadsItems (fuel + 1) := by
  intro item items rest hfuel
  have hlt := length_lt_write item (writeItems items rest)
  have hrest := length_lt_writeItems items rest
  rw [readItems, hvalue item _ (closes_writeItems items rest) (by omega)]
  cases items with
  | nil => rfl
  | cons next items =>
    have hskip (text : List Char) : skipBlanks (',' :: text) = ',' :: text := rfl
    rw [writeItems] at hlt hfuel ⊢
    rw [List.length_cons] at hlt
    simp only [hskip, hitems next items rest (by omega), treeItems]

theorem readsMembers_succ (hvalue : ReadsValues fuel) (hmembers : ReadsMembers fuel) :
    ReadsMembers (fuel + 1) := by
  intro key value members rest hfuel
  have hkey := length_lt_writeString key (':' :: write value (writeMembers members rest))
  have hlt := length_lt_write value (writeMembers members rest)
  have hrest := length_lt_writeMembers members rest
  rw [List.length_cons] at hkey
  rw [readMembers, readKey_writeString]
  simp only
  rw [hvalue value _ (closes_writeMembers members rest) (by omega)]
  cases members with
  | nil => rfl
  | cons next members =>
    obtain ⟨nextKey, next⟩ := next
    have hskip (text : List Char) : skipBlanks (',' :: text) = ',' :: text := rfl
    rw [writeMembers] at hkey hlt hfuel ⊢
    rw [List.length_cons] at hlt
    simp only [hskip, hmembers nextKey next members rest (by omega), treeMembers]

end Steps

theorem read_write (fuel : Nat) : ReadsValues fuel ∧ ReadsItems fuel ∧ ReadsMembers fuel := by
  induction fuel with
  | zero =>
    -- no text is short enough
    refine ⟨fun json rest _ hfuel => ?_, fun item items rest hfuel => ?_,
      fun key value members rest hfuel => ?_⟩
    · have hlt := length_lt_write json rest
      omega
    · have hitem := length_lt_write item (writeItems items rest)
      have hitems := length_lt_writeItems items rest
      omega
    · have hkey := length_lt_writeString key (':' :: write value (writeMembers members rest))
      have hvalue := length_lt_write value (writeMembers members rest)
      have hmembers := length_lt_writeMembers members rest
      simp only [List.length_cons] at hkey
      omega
  | succ fuel ih =>
    obtain ⟨hvalue, hitems, hmembers⟩ := ih
    exact ⟨readsValues_succ hitems hmembers, readsItems_succ hvalue hitems,
      readsMembers_succ hvalue hmembers⟩

/-- The text of a value is read to its end, as the tree of the value. -/
theorem read_compact (json : Json) : Document.read json.compact = ⟨json.tree, true⟩ := by
  have hcloses : Closes [] := nofun
  have hread := (read_write (2 * (write json []).length + 2)).1 json [] hcloses (by omega)
  unfold Document.read compact
  rw [String.toList_ofList]
  simp only [hread]
  rfl

end Reckoner.Json
