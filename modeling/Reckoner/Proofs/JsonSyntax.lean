import Reckoner.Proofs.JsonText

/-! The grammar of JSON text, and that every text of the grammar is read. A derivation gives a text its
tree, and reading finds this tree and leaves nothing of the text, wherever the blanks stand, whichever
escapes the strings use and however the numbers are written. -/

namespace Reckoner.Json

/-! Numbers -/

/-- What may stand after a number: anything that could not go on with it. -/
def EndsNumber (rest : List Char) : Prop :=
  ∀ c ∈ rest.head?, c.isDigit = false ∧ c ≠ '.' ∧ c ≠ 'e' ∧ c ≠ 'E'

def DigitText (text : List Char) : Prop := text ≠ [] ∧ ∀ c ∈ text, c.isDigit = true

inductive FractionText : List Char → List Char → Prop
  | none : FractionText [] []
  | point {digits : List Char} : DigitText digits → FractionText ('.' :: digits) digits

inductive ExponentText : List Char → Option Int → Prop
  | none : ExponentText [] none
  | unsigned {mark : Char} {digits : List Char} : mark = 'e' ∨ mark = 'E' → DigitText digits →
      ExponentText (mark :: digits) (some (Number.ofDigits digits))
  | plus {mark : Char} {digits : List Char} : mark = 'e' ∨ mark = 'E' → DigitText digits →
      ExponentText (mark :: '+' :: digits) (some (Number.ofDigits digits))
  | minus {mark : Char} {digits : List Char} : mark = 'e' ∨ mark = 'E' → DigitText digits →
      ExponentText (mark :: '-' :: digits) (some (-Number.ofDigits digits))

inductive NumeralText : List Char → Numeral → Prop
  | mk (negative : Bool) {whole point fraction mark : List Char} {exponent : Option Int} :
      Whole whole → FractionText point fraction → ExponentText mark exponent →
      NumeralText ((if negative then ['-'] else []) ++ (whole ++ (point ++ mark)))
        ⟨negative, whole, fraction, exponent⟩

section Numbers

variable {text rest : List Char}

theorem EndsNumber.noDigit (h : EndsNumber rest) : NoDigit rest := fun c hc => (h c hc).1

theorem readExponent_of_ends (h : EndsNumber rest) : readExponent rest = some (none, rest) := by
  match rest with
  | [] => rfl
  | c :: more =>
    obtain ⟨-, -, hlower, hupper⟩ := h c rfl
    unfold readExponent
    split
    next heq =>
      cases heq
      exact absurd rfl hlower
    next heq =>
      cases heq
      exact absurd rfl hupper
    next => rfl

theorem readFraction_of_no_point (h : ∀ c ∈ rest.head?, c ≠ '.') :
    readFraction rest = some ([], rest) := by
  match rest with
  | [] => rfl
  | c :: more =>
    unfold readFraction
    split
    next heq =>
      cases heq
      exact absurd rfl (h _ rfl)
    next => rfl

theorem ExponentText.read_append {exponent : Option Int} (h : ExponentText text exponent)
    (hrest : EndsNumber rest) : readExponent (text ++ rest) = some (exponent, rest) := by
  have hmark {mark : Char} (h : mark = 'e' ∨ mark = 'E') (text : List Char) :
      readExponent (mark :: text) = readExponent ('e' :: text) := by
    rcases h with rfl | rfl <;> rfl
  cases h with
  | none => exact readExponent_of_ends hrest
  | unsigned hm hdigits =>
    rw [List.cons_append, hmark hm]
    exact readExponent_digits hdigits.2 hdigits.1 hrest.noDigit
  | plus hm hdigits =>
    rw [List.cons_append, hmark hm, List.cons_append]
    simp only [readExponent, readDigits_append hdigits.2 hdigits.1 hrest.noDigit, Option.map_some]
  | minus hm hdigits =>
    rw [List.cons_append, hmark hm, List.cons_append]
    simp only [readExponent, readDigits_append hdigits.2 hdigits.1 hrest.noDigit, Option.map_some]

theorem ExponentText.head {exponent : Option Int} (h : ExponentText text exponent)
    (hrest : EndsNumber rest) : ∀ c ∈ (text ++ rest).head?, c.isDigit = false ∧ c ≠ '.' := by
  intro c hc
  cases h with
  | none => exact ⟨(hrest c hc).1, (hrest c hc).2.1⟩
  | unsigned hm | plus hm | minus hm =>
    cases hc
    rcases hm with rfl | rfl <;> decide

theorem FractionText.read_append {fraction mark : List Char} {exponent : Option Int}
    (h : FractionText text fraction) (hmark : ExponentText mark exponent) (hrest : EndsNumber rest) :
    readFraction (text ++ (mark ++ rest)) = some (fraction, mark ++ rest) := by
  have hhead := hmark.head hrest
  cases h with
  | none => exact readFraction_of_no_point fun c hc => (hhead c hc).2
  | point hdigits => exact readFraction_append hdigits.2 hdigits.1 fun c hc => (hhead c hc).1

theorem FractionText.noDigit {fraction mark : List Char} {exponent : Option Int}
    (h : FractionText text fraction) (hmark : ExponentText mark exponent) (hrest : EndsNumber rest) :
    NoDigit (text ++ (mark ++ rest)) := by
  cases h with
  | none => exact fun c hc => (hmark.head hrest c hc).1
  | point => exact noDigit_cons rfl _

theorem NumeralText.read_append {n : Numeral} (h : NumeralText text n) (hrest : EndsNumber rest) :
    readNumeral (text ++ rest) = some (n, rest) := by
  obtain ⟨negative, hwhole, hpoint, hmark⟩ := h
  rename_i whole point fraction mark exponent
  have hunsigned : readUnsigned negative (whole ++ (point ++ (mark ++ rest))) =
      some (⟨negative, whole, fraction, exponent⟩, rest) := by
    unfold readUnsigned
    rw [readWhole_append hwhole (hpoint.noDigit hmark hrest)]
    simp only [Option.bind_eq_bind, Option.bind_some, hpoint.read_append hmark hrest,
      hmark.read_append hrest]
    rfl
  cases negative with
  | true => simpa [readNumeral] using hunsigned
  | false =>
    obtain ⟨hdigits, hne, -⟩ := hwhole
    obtain ⟨c, more, rfl⟩ := List.exists_cons_of_ne_nil hne
    have hc : c ≠ '-' := by
      rintro rfl
      exact absurd (hdigits '-' (by simp)) (by decide)
    have hnumeral (text : List Char) : readNumeral (c :: text) = readUnsigned false (c :: text) := by
      unfold readNumeral
      split
      next heq =>
        cases heq
        exact absurd rfl hc
      next => rfl
    simpa [hnumeral] using hunsigned

theorem NumeralText.exists_cons {n : Numeral} (h : NumeralText text n) :
    ∃ c more, text = c :: more ∧ opensNumber c = true := by
  obtain ⟨negative, ⟨hdigits, hne, -⟩, -, -⟩ := h
  cases negative with
  | true => exact ⟨'-', _, rfl, rfl⟩
  | false =>
    obtain ⟨c, more, rfl⟩ := List.exists_cons_of_ne_nil hne
    refine ⟨c, _, rfl, ?_⟩
    simp [opensNumber, hdigits c (by simp)]

end Numbers

/-! Strings -/

/-- The letters of the short escapes and what they stand for. -/
def shortEscapes : List (Char × Char) :=
  [('"', '"'), ('\\', '\\'), ('/', '/'), ('b', '\x08'), ('f', '\x0c'), ('n', '\n'), ('r', '\r'),
    ('t', '\t')]

/-- The text of a string between its quotes. Code units from `0xd800` on come in pairs. -/
inductive StringText : List Char → List Char → Prop
  | nil : StringText [] []
  | plain {c : Char} {text chars : List Char} : 0x20 ≤ c.toNat → c ≠ '"' → c ≠ '\\' →
      StringText text chars → StringText (c :: text) (c :: chars)
  | short {letter c : Char} {text chars : List Char} : (letter, c) ∈ shortEscapes →
      StringText text chars → StringText ('\\' :: letter :: text) (c :: chars)
  | unit {p q r s : Char} {code : Nat} {text chars : List Char} : hexQuad p q r s = some code →
      ¬ (0xd800 ≤ code ∧ code < 0xe000) → StringText text chars →
      StringText ('\\' :: 'u' :: p :: q :: r :: s :: text) (Char.ofNat code :: chars)
  | pair {p q r s p' q' r' s' : Char} {high low : Nat} {text chars : List Char} :
      hexQuad p q r s = some high → hexQuad p' q' r' s' = some low →
      0xd800 ≤ high ∧ high < 0xdc00 → 0xdc00 ≤ low ∧ low < 0xe000 → StringText text chars →
      StringText ('\\' :: 'u' :: p :: q :: r :: s :: '\\' :: 'u' :: p' :: q' :: r' :: s' :: text)
        (Char.ofNat (0x10000 + (high - 0xd800) * 0x400 + (low - 0xdc00)) :: chars)

/-- A code point that is no half of a pair stands for itself, whatever follows. -/
theorem joinUnits_cons {code : Nat} (h : ¬ (0xd800 ≤ code ∧ code < 0xe000)) (before : List Char)
    (codes : List Nat) : joinUnits before (code :: codes) = joinUnits (Char.ofNat code :: before) codes := by
  cases codes with
  | nil => simp only [joinUnits, if_neg h]
  | cons next codes =>
    have hpair : ¬ (0xd800 ≤ code ∧ code < 0xdc00 ∧ 0xdc00 ≤ next ∧ next < 0xe000) := by omega
    rw [joinUnits, if_neg hpair, if_neg h]

theorem readUnits_plain {c : Char} (hcontrol : 0x20 ≤ c.toNat) (hquote : c ≠ '"') (hslash : c ≠ '\\')
    (units : List Nat) (text : List Char) :
    readUnits units (c :: text) = readUnits (c.toNat :: units) text := by
  rw [readUnits.eq_def]
  split
  · simp_all
  · simp_all
  · simp_all
  · simp_all
  next heq =>
    cases heq
    rw [if_neg (by omega)]

theorem readUnits_short {letter c : Char} (h : (letter, c) ∈ shortEscapes) (units : List Nat)
    (text : List Char) :
    readUnits units ('\\' :: letter :: text) = readUnits (c.toNat :: units) text := by
  simp only [shortEscapes, List.mem_cons, Prod.mk.injEq, List.not_mem_nil, or_false] at h
  rcases h with ⟨rfl, rfl⟩ | ⟨rfl, rfl⟩ | ⟨rfl, rfl⟩ | ⟨rfl, rfl⟩ | ⟨rfl, rfl⟩ | ⟨rfl, rfl⟩ |
    ⟨rfl, rfl⟩ | ⟨rfl, rfl⟩ <;> rfl

theorem readUnits_hex {p q r s : Char} {code : Nat} (h : hexQuad p q r s = some code)
    (units : List Nat) (text : List Char) :
    readUnits units ('\\' :: 'u' :: p :: q :: r :: s :: text) = readUnits (code :: units) text := by
  simp only [readUnits, h]

/-- The units of a string are found up to its closing quote, and join to its characters. -/
theorem StringText.read_append {text chars : List Char} (h : StringText text chars) (rest : List Char) :
    ∃ codes, (∀ units, readUnits units (text ++ '"' :: rest) = some (units.reverse ++ codes, rest)) ∧
      ∀ before, joinUnits before codes = some (before.reverse ++ chars) := by
  induction h with
  | nil => exact ⟨[], fun units => by simp [readUnits], fun before => by simp [joinUnits]⟩
  | @plain c text chars hcontrol hquote hslash _ ih =>
    obtain ⟨codes, hread, hjoin⟩ := ih
    refine ⟨c.toNat :: codes, fun units => ?_, fun before => ?_⟩
    · rw [List.cons_append, readUnits_plain hcontrol hquote hslash, hread]
      simp
    · rw [joinUnits_cons (not_surrogate c), hjoin, Char.ofNat_toNat]
      simp
  | @short letter c text chars hletter _ ih =>
    obtain ⟨codes, hread, hjoin⟩ := ih
    refine ⟨c.toNat :: codes, fun units => ?_, fun before => ?_⟩
    · rw [List.cons_append, List.cons_append, readUnits_short hletter, hread]
      simp
    · rw [joinUnits_cons (not_surrogate c), hjoin, Char.ofNat_toNat]
      simp
  | @unit p q r s code text chars hhex hcode _ ih =>
    obtain ⟨codes, hread, hjoin⟩ := ih
    refine ⟨code :: codes, fun units => ?_, fun before => ?_⟩
    · simp only [List.cons_append]
      rw [readUnits_hex hhex, hread]
      simp
    · rw [joinUnits_cons hcode, hjoin]
      simp
  | @pair p q r s p' q' r' s' high low text chars hhigh hlow hhigher hlower _ ih =>
    obtain ⟨codes, hread, hjoin⟩ := ih
    refine ⟨high :: low :: codes, fun units => ?_, fun before => ?_⟩
    · simp only [List.cons_append]
      rw [readUnits_hex hhigh, readUnits_hex hlow, hread]
      simp
    · have hpair : 0xd800 ≤ high ∧ high < 0xdc00 ∧ 0xdc00 ≤ low ∧ low < 0xe000 := by omega
      rw [joinUnits, if_pos hpair, hjoin]
      simp

theorem StringText.readString_append {text chars : List Char} (h : StringText text chars)
    (rest : List Char) :
    readString (text ++ '"' :: rest) = some (some (String.ofList chars), rest) := by
  obtain ⟨codes, hread, hjoin⟩ := h.read_append rest
  unfold readString
  rw [hread]
  simp [hjoin]

/-! Values -/

def Blanks (text : List Char) : Prop := ∀ c ∈ text, c = ' ' ∨ c = '\n' ∨ c = '\t' ∨ c = '\r'

mutual

/-- The text of a value, without blanks around it. -/
inductive ValueText : List Char → ParseTree → Prop
  | null : ValueText "null".toList .null
  | true : ValueText "true".toList (.bool true)
  | false : ValueText "false".toList (.bool false)
  | numeral {text : List Char} {n : Numeral} : NumeralText text n → ValueText text (.numeral n)
  | string {text chars : List Char} : StringText text chars →
      ValueText ('"' :: (text ++ ['"'])) (.string (some (String.ofList chars)))
  | emptyArray {blanks : List Char} : Blanks blanks → ValueText ('[' :: (blanks ++ [']'])) (.array [])
  | array {text : List Char} {items : List ParseTree} : ElementsText text items →
      ValueText ('[' :: (text ++ [']'])) (.array items)
  | emptyObject {blanks : List Char} : Blanks blanks →
      ValueText ('{' :: (blanks ++ ['}'])) (.object [])
  | object {text : List Char} {members : List (Option String × ParseTree)} :
      MembersText text members → ValueText ('{' :: (text ++ ['}'])) (.object members)

inductive ElementText : List Char → ParseTree → Prop
  | mk {before text after : List Char} {tree : ParseTree} : Blanks before → ValueText text tree →
      Blanks after → ElementText (before ++ (text ++ after)) tree

inductive ElementsText : List Char → List ParseTree → Prop
  | last {text : List Char} {item : ParseTree} : ElementText text item → ElementsText text [item]
  | cons {text more : List Char} {item : ParseTree} {items : List ParseTree} :
      ElementText text item → ElementsText more items →
      ElementsText (text ++ ',' :: more) (item :: items)

inductive MemberText : List Char → String → ParseTree → Prop
  | mk {before key after text chars : List Char} {tree : ParseTree} : Blanks before →
      StringText key chars → Blanks after → ElementText text tree →
      MemberText (before ++ '"' :: (key ++ '"' :: (after ++ ':' :: text))) (String.ofList chars) tree

inductive MembersText : List Char → List (Option String × ParseTree) → Prop
  | last {text : List Char} {key : String} {value : ParseTree} : MemberText text key value →
      MembersText text [(some key, value)]
  | cons {text more : List Char} {key : String} {value : ParseTree}
      {members : List (Option String × ParseTree)} : MemberText text key value →
      MembersText more members → MembersText (text ++ ',' :: more) ((some key, value) :: members)

end

/-- The text is JSON, and this is its tree. -/
def IsText (text : String) (tree : ParseTree) : Prop := ElementText text.toList tree

section Blanks

variable {blanks : List Char}

theorem Blanks.isBlank (h : Blanks blanks) : ∀ c ∈ blanks, isBlank c = true := by
  intro c hc
  simpa [Json.isBlank] using h c hc

theorem Blanks.skipBlanks_append (h : Blanks blanks) (rest : List Char) :
    skipBlanks (blanks ++ rest) = skipBlanks rest :=
  List.dropWhile_append_of_pos h.isBlank

theorem Blanks.endsNumber_append (h : Blanks blanks) {rest : List Char} (hrest : EndsNumber rest) :
    EndsNumber (blanks ++ rest) := by
  cases blanks with
  | nil => exact hrest
  | cons c blanks =>
    intro d hd
    cases hd
    rcases h c (by simp) with rfl | rfl | rfl | rfl <;> decide

theorem skipBlanks_skipBlanks (text : List Char) : skipBlanks (skipBlanks text) = skipBlanks text :=
  List.dropWhile_idempotent _ _

theorem readValue_skipBlanks (fuel : Nat) (text : List Char) :
    readValue fuel (skipBlanks text) = readValue fuel text := by
  cases fuel with
  | zero => simp only [readValue]
  | succ fuel => simp only [readValue, skipBlanks_skipBlanks]

theorem readItems_skipBlanks (fuel : Nat) (text : List Char) :
    readItems fuel (skipBlanks text) = readItems fuel text := by
  cases fuel with
  | zero => simp only [readItems]
  | succ fuel => simp only [readItems, readValue_skipBlanks]

theorem readMembers_skipBlanks (fuel : Nat) (text : List Char) :
    readMembers fuel (skipBlanks text) = readMembers fuel text := by
  cases fuel with
  | zero => simp only [readMembers]
  | succ fuel => simp only [readMembers, readKey, skipBlanks_skipBlanks]

theorem readValue_blanks (h : Blanks blanks) (fuel : Nat) (text : List Char) :
    readValue fuel (blanks ++ text) = readValue fuel text := by
  rw [← readValue_skipBlanks, h.skipBlanks_append, readValue_skipBlanks]

end Blanks

theorem ValueText.opens {text : List Char} {tree : ParseTree} (h : ValueText text tree)
    (rest : List Char) : Opens (text ++ rest) := by
  cases h with
  | null => exact ⟨'n', _, rfl, rfl, by decide, by decide⟩
  | true => exact ⟨'t', _, rfl, rfl, by decide, by decide⟩
  | false => exact ⟨'f', _, rfl, rfl, by decide, by decide⟩
  | numeral hnumeral =>
    obtain ⟨c, more, rfl, hc⟩ := hnumeral.exists_cons
    exact opens_of_opensNumber hc _
  | string => exact ⟨'"', _, rfl, rfl, by decide, by decide⟩
  | emptyArray => exact ⟨'[', _, rfl, rfl, by decide, by decide⟩
  | array => exact ⟨'[', _, rfl, rfl, by decide, by decide⟩
  | emptyObject => exact ⟨'{', _, rfl, rfl, by decide, by decide⟩
  | object => exact ⟨'{', _, rfl, rfl, by decide, by decide⟩

theorem ValueText.length_pos {text : List Char} {tree : ParseTree} (h : ValueText text tree) :
    0 < text.length := by
  obtain ⟨c, more, hcons, -⟩ := h.opens []
  rw [List.append_nil] at hcons
  simp [hcons]

/-! One step of reading a value, an item and a member, when its parts are read. -/

section Steps

variable {fuel : Nat} {text rest after : List Char}

theorem readValue_elements (h : Opens (skipBlanks text)) (fuel : Nat) :
    readValue (fuel + 1) ('[' :: text) =
      (.array (readItems fuel text).1, (readItems fuel text).2) := by
  rw [← readItems_skipBlanks, ← readValue_array h]
  have hskip (text : List Char) : skipBlanks ('[' :: text) = '[' :: text := rfl
  simp only [readValue, hskip, skipBlanks_skipBlanks]

theorem readValue_members (h : Opens (skipBlanks text)) (fuel : Nat) :
    readValue (fuel + 1) ('{' :: text) =
      (.object (readMembers fuel text).1, (readMembers fuel text).2) := by
  rw [← readMembers_skipBlanks, ← readValue_object h]
  have hskip (text : List Char) : skipBlanks ('{' :: text) = '{' :: text := rfl
  simp only [readValue, hskip, skipBlanks_skipBlanks]

theorem readItems_last {item : ParseTree} (hafter : Blanks after)
    (h : readValue fuel text = (item, some (after ++ ']' :: rest))) :
    readItems (fuel + 1) text = ([item], some rest) := by
  rw [readItems, h]
  simp only [hafter.skipBlanks_append]
  rfl

theorem readItems_cons {item : ParseTree} (hafter : Blanks after)
    (h : readValue fuel text = (item, some (after ++ ',' :: rest))) :
    readItems (fuel + 1) text = (item :: (readItems fuel rest).1, (readItems fuel rest).2) := by
  rw [readItems, h]
  simp only [hafter.skipBlanks_append]
  rfl

variable {key : Option String} {value : ParseTree} {middle : List Char}

theorem readMembers_last (hkey : readKey text = some (key, middle)) (hafter : Blanks after)
    (h : readValue fuel middle = (value, some (after ++ '}' :: rest))) :
    readMembers (fuel + 1) text = ([(key, value)], some rest) := by
  rw [readMembers, hkey]
  simp only [h, hafter.skipBlanks_append]
  rfl

theorem readMembers_cons (hkey : readKey text = some (key, middle)) (hafter : Blanks after)
    (h : readValue fuel middle = (value, some (after ++ ',' :: rest))) :
    readMembers (fuel + 1) text =
      ((key, value) :: (readMembers fuel rest).1, (readMembers fuel rest).2) := by
  rw [readMembers, hkey]
  simp only [h, hafter.skipBlanks_append]
  rfl

end Steps

theorem endsNumber_cons (c : Char) (h : c.isDigit = false ∧ c ≠ '.' ∧ c ≠ 'e' ∧ c ≠ 'E')
    (rest : List Char) : EndsNumber (c :: rest) := by
  intro d hd
  cases hd
  exact h

theorem ElementText.opens_skipBlanks {text : List Char} {tree : ParseTree} (h : ElementText text tree)
    (rest : List Char) : Opens (skipBlanks (text ++ rest)) := by
  obtain ⟨hbefore, hvalue, -⟩ := h
  have hopens := hvalue.opens
  rw [List.append_assoc, hbefore.skipBlanks_append, List.append_assoc, (hopens _).skipBlanks_eq]
  exact hopens _

theorem ElementsText.opens_skipBlanks {text : List Char} {items : List ParseTree}
    (h : ElementsText text items) (rest : List Char) : Opens (skipBlanks (text ++ rest)) := by
  cases h with
  | last hitem => exact hitem.opens_skipBlanks rest
  | cons hitem =>
    rw [List.append_assoc]
    exact hitem.opens_skipBlanks _

theorem MemberText.opens_skipBlanks {text : List Char} {key : String} {value : ParseTree}
    (h : MemberText text key value) (rest : List Char) : Opens (skipBlanks (text ++ rest)) := by
  obtain ⟨hbefore, -, -, -⟩ := h
  rw [List.append_assoc, hbefore.skipBlanks_append]
  exact ⟨'"', _, rfl, rfl, by decide, by decide⟩

theorem MembersText.opens_skipBlanks {text : List Char} {members : List (Option String × ParseTree)}
    (h : MembersText text members) (rest : List Char) : Opens (skipBlanks (text ++ rest)) := by
  cases h with
  | last hmember => exact hmember.opens_skipBlanks rest
  | cons hmember =>
    rw [List.append_assoc]
    exact hmember.opens_skipBlanks _

theorem readKey_append {before key after chars : List Char} (hbefore : Blanks before)
    (hkey : StringText key chars) (hafter : Blanks after) (rest : List Char) :
    readKey (before ++ '"' :: (key ++ '"' :: (after ++ ':' :: rest))) =
      some (some (String.ofList chars), rest) := by
  have hquote (text : List Char) : skipBlanks ('"' :: text) = '"' :: text := rfl
  have hcolon : skipBlanks (':' :: rest) = ':' :: rest := rfl
  unfold readKey
  rw [hbefore.skipBlanks_append, hquote]
  simp only [hkey.readString_append, Option.bind_eq_bind, Option.bind_some,
    hafter.skipBlanks_append, hcolon]
  rfl

/-! Values, items and members are read with fuel for twice the length of their text. -/

def ReadsValueTexts (fuel : Nat) : Prop :=
  ∀ text rest tree, ValueText text tree → 2 * text.length ≤ fuel → EndsNumber rest →
    readValue fuel (text ++ rest) = (tree, some rest)

def ReadsElementsTexts (fuel : Nat) : Prop :=
  ∀ text rest items, ElementsText text items → 2 * text.length < fuel →
    readItems fuel (text ++ ']' :: rest) = (items, some rest)

def ReadsMembersTexts (fuel : Nat) : Prop :=
  ∀ text rest members, MembersText text members → 2 * text.length < fuel →
    readMembers fuel (text ++ '}' :: rest) = (members, some rest)

section Induction

variable {fuel : Nat}

theorem readValue_element (hvalues : ReadsValueTexts fuel) {text rest : List Char} {tree : ParseTree}
    (h : ElementText text tree) (hfuel : 2 * text.length ≤ fuel) (hrest : EndsNumber rest) :
    ∃ after, Blanks after ∧ readValue fuel (text ++ rest) = (tree, some (after ++ rest)) := by
  obtain ⟨hbefore, hvalue, hafter⟩ := h
  rename_i before text after
  simp only [List.length_append] at hfuel
  refine ⟨after, hafter, ?_⟩
  rw [List.append_assoc, readValue_blanks hbefore, List.append_assoc]
  exact hvalues text _ tree hvalue (by omega) (hafter.endsNumber_append hrest)

theorem read_member (hvalues : ReadsValueTexts fuel) {text rest : List Char} {key : String}
    {value : ParseTree} (h : MemberText text key value) (hfuel : 2 * text.length ≤ fuel)
    (hrest : EndsNumber rest) :
    ∃ middle after, readKey (text ++ rest) = some (some key, middle) ∧ Blanks after ∧
      readValue fuel middle = (value, some (after ++ rest)) := by
  obtain ⟨hbefore, hkey, hgap, hvalue⟩ := h
  rename_i before key gap text chars
  simp only [List.length_append, List.length_cons] at hfuel
  obtain ⟨after, hafter, hread⟩ := readValue_element hvalues hvalue (by omega) hrest
  refine ⟨text ++ rest, after, ?_, hafter, hread⟩
  rw [← readKey_append hbefore hkey hgap (text ++ rest)]
  simp only [List.append_assoc, List.cons_append]

theorem readsValueTexts_succ (hitems : ReadsElementsTexts fuel) (hmembers : ReadsMembersTexts fuel) :
    ReadsValueTexts (fuel + 1) := by
  intro text rest tree h hfuel hrest
  cases h with
  | null => rfl
  | true => rfl
  | false => rfl
  | numeral hnumeral =>
    have hread := hnumeral.read_append hrest
    obtain ⟨c, more, rfl, hc⟩ := hnumeral.exists_cons
    exact readValue_of_opensNumber hc hread fuel
  | string hstring =>
    have hskip (text : List Char) : skipBlanks ('"' :: text) = '"' :: text := rfl
    rw [List.cons_append, List.append_assoc, List.singleton_append, readValue, hskip]
    simp only [hstring.readString_append]
  | emptyArray hblanks =>
    have hskip (text : List Char) : skipBlanks ('[' :: text) = '[' :: text := rfl
    rw [List.cons_append, List.append_assoc, List.singleton_append, readValue, hskip]
    simp only [hblanks.skipBlanks_append]
    rfl
  | array helements =>
    simp only [List.length_cons, List.length_append, List.length_nil] at hfuel
    rw [List.cons_append, List.append_assoc, List.singleton_append,
      readValue_elements (helements.opens_skipBlanks _), hitems _ rest _ helements (by omega)]
  | emptyObject hblanks =>
    have hskip (text : List Char) : skipBlanks ('{' :: text) = '{' :: text := rfl
    rw [List.cons_append, List.append_assoc, List.singleton_append, readValue, hskip]
    simp only [hblanks.skipBlanks_append]
    rfl
  | object htexts =>
    simp only [List.length_cons, List.length_append, List.length_nil] at hfuel
    rw [List.cons_append, List.append_assoc, List.singleton_append,
      readValue_members (htexts.opens_skipBlanks _), hmembers _ rest _ htexts (by omega)]

theorem readsElementsTexts_succ (hvalues : ReadsValueTexts fuel) (hitems : ReadsElementsTexts fuel) :
    ReadsElementsTexts (fuel + 1) := by
  intro text rest items h hfuel
  cases h with
  | last hitem =>
    obtain ⟨after, hafter, hread⟩ := readValue_element hvalues hitem (Nat.le_of_lt_succ hfuel)
      (endsNumber_cons ']' (by decide) rest)
    exact readItems_last hafter hread
  | @cons text more item items hitem hmore =>
    simp only [List.length_append, List.length_cons] at hfuel
    obtain ⟨after, hafter, hread⟩ := readValue_element hvalues hitem (by omega)
      (endsNumber_cons ',' (by decide) (more ++ ']' :: rest))
    rw [List.append_assoc, List.cons_append, readItems_cons hafter hread,
      hitems more rest items hmore (by omega)]

theorem readsMembersTexts_succ (hvalues : ReadsValueTexts fuel) (hmembers : ReadsMembersTexts fuel) :
    ReadsMembersTexts (fuel + 1) := by
  intro text rest members h hfuel
  cases h with
  | last hmember =>
    obtain ⟨middle, after, hkey, hafter, hread⟩ := read_member hvalues hmember
      (Nat.le_of_lt_succ hfuel) (endsNumber_cons '}' (by decide) rest)
    exact readMembers_last hkey hafter hread
  | @cons text more key value members hmember hmore =>
    simp only [List.length_append, List.length_cons] at hfuel
    obtain ⟨middle, after, hkey, hafter, hread⟩ := read_member hvalues hmember (by omega)
      (endsNumber_cons ',' (by decide) (more ++ '}' :: rest))
    rw [List.append_assoc, List.cons_append, readMembers_cons hkey hafter hread,
      hmembers more rest members hmore (by omega)]

end Induction

theorem reads_texts (fuel : Nat) :
    ReadsValueTexts fuel ∧ ReadsElementsTexts fuel ∧ ReadsMembersTexts fuel := by
  induction fuel with
  | zero =>
    refine ⟨?_, nofun, nofun⟩
    intro text rest tree h hfuel
    have hpos := h.length_pos
    omega
  | succ fuel ih =>
    obtain ⟨hvalues, hitems, hmembers⟩ := ih
    exact ⟨readsValueTexts_succ hitems hmembers, readsElementsTexts_succ hvalues hitems,
      readsMembersTexts_succ hvalues hmembers⟩

/-- A text of the grammar is read to its end, as its tree. -/
theorem IsText.read_eq {text : String} {tree : ParseTree} (h : IsText text tree) :
    Document.read text = ⟨tree, true⟩ := by
  have hend : EndsNumber [] := nofun
  obtain ⟨after, hafter, hread⟩ := readValue_element (reads_texts (2 * text.toList.length + 2)).1 h
    (Nat.le_add_right _ 2) hend
  rw [List.append_nil, List.append_nil] at hread
  have hskip : skipBlanks after = [] := by
    rw [← List.append_nil after, hafter.skipBlanks_append]
    rfl
  unfold Document.read
  simp only [hread, hskip]
  rfl

end Reckoner.Json
