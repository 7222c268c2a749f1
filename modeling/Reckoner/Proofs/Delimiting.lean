import Reckoner.Expr.Text
import Reckoner.Proofs.JsonText

/-! Texts that tell where they end. A word ends at a delimiter, a name and a finite literal are words,
and a list of texts that tell where they end does so at the bracket that closes it. -/

namespace Reckoner

open Number

/-! Words -/

def delimiters : List Char := [' ', '(', ')', '{', '}', ',', ';', '=']

def inWord (c : Char) : Bool := !delimiters.contains c

def IsWord (text : List Char) : Prop := text ≠ [] ∧ ∀ c ∈ text, inWord c = true

def Delimited (rest : List Char) : Prop := ∀ c ∈ rest.head?, inWord c = false

theorem inWord_of {p : Char → Bool} (hp : delimiters.any p = false) {c : Char} (h : p c = true) :
    inWord c = true := by
  by_contra hno
  have hmem : c ∈ delimiters := by simpa [inWord] using hno
  have hany : delimiters.any p = true := List.any_of_mem hmem h
  rw [hp] at hany
  contradiction

section Words

variable {word word' rest rest' : List Char}

theorem delimited_cons {c : Char} (h : inWord c = false) (rest : List Char) :
    Delimited (c :: rest) := by
  intro d hd
  cases hd
  exact h

theorem takeWhile_word (h : IsWord word) (hrest : Delimited rest) :
    (word ++ rest).takeWhile inWord = word := by
  rw [List.takeWhile_append_of_pos h.2]
  cases rest with
  | nil => simp
  | cons c rest => simp [hrest c rfl]

theorem dropWhile_word (h : IsWord word) (hrest : Delimited rest) :
    (word ++ rest).dropWhile inWord = rest := by
  rw [List.dropWhile_append_of_pos h.2]
  cases rest with
  | nil => simp
  | cons c rest => simp [hrest c rfl]

/-- A word ends where the first delimiter stands. -/
theorem word_append_inj (h : IsWord word) (h' : IsWord word') (hrest : Delimited rest)
    (hrest' : Delimited rest') (heq : word ++ rest = word' ++ rest') :
    word = word' ∧ rest = rest' := by
  constructor
  · rw [← takeWhile_word h hrest, heq, takeWhile_word h' hrest']
  · rw [← dropWhile_word h hrest, heq, dropWhile_word h' hrest']

end Words

/-! Identifiers and literals -/

/-- All characters beyond ASCII pass as letters. -/
def isLetter (c : Char) : Bool := c.isAlpha || 128 ≤ c.toNat

/-- A letter or an underscore, and then letters, digits and underscores. -/
def isIdentifier (name : String) : Bool :=
  match name.toList with
  | [] => false
  | c :: rest => (isLetter c || c == '_') && rest.all fun d => isLetter d || d.isDigit || d == '_'

theorem exists_of_isIdentifier {name : String} (h : isIdentifier name = true) :
    ∃ c rest, name.toList = c :: rest ∧ (isLetter c || c == '_') = true ∧
      ∀ d ∈ rest, (isLetter d || d.isDigit || d == '_') = true := by
  unfold isIdentifier at h
  split at h
  next => contradiction
  next c rest hname =>
    rw [Bool.and_eq_true, List.all_eq_true] at h
    exact ⟨c, rest, hname, h⟩

theorem isWord_of_isIdentifier {name : String} (h : isIdentifier name = true) :
    IsWord name.toList := by
  obtain ⟨c, rest, hname, hc, hrest⟩ := exists_of_isIdentifier h
  rw [hname]
  constructor
  · exact List.cons_ne_nil c rest
  · rw [List.forall_mem_cons]
    constructor
    · exact inWord_of (p := fun c => isLetter c || c == '_') rfl hc
    · intro d hd
      exact inWord_of (p := fun c => isLetter c || c.isDigit || c == '_') rfl (hrest d hd)

theorem opensNumber_of_isLetter {c : Char} (h : (isLetter c || c == '_') = true) :
    Json.opensNumber c = false := by
  by_contra hno
  simp only [Json.opensNumber, Bool.not_eq_false, Bool.or_eq_true, decide_eq_true_eq] at hno
  rcases hno with rfl | hdigit
  · contradiction
  · have hrange : 48 ≤ c.val.toNat ∧ c.val.toNat ≤ 57 := by
      simpa [Char.isDigit, UInt32.le_iff_toNat_le] using hdigit
    have hval : c.toNat = c.val.toNat := rfl
    simp only [isLetter, Char.isAlpha, Char.isUpper, Char.isLower, Bool.or_eq_true, Bool.and_eq_true,
      decide_eq_true_eq, UInt32.le_iff_toNat_le, ge_iff_le, beq_iff_eq, Char.reduceVal,
      UInt32.reduceToNat] at h
    rcases h with hletter | rfl
    · omega
    · contradiction

theorem isWord_signed {negative : Bool} {text : List Char} {n : Json.Numeral}
    (h : Json.Spells negative text n) : IsWord (Json.Spells.signed negative text) := by
  have hdigits {l : List Char} (hl : ∀ c ∈ l, c.isDigit = true) : ∀ c ∈ l, inWord c = true :=
    fun c hc => inWord_of rfl (hl c hc)
  have htext : ∀ c ∈ text, inWord c = true := by
    cases h with
    | integral hwhole => exact hdigits hwhole.1
    | positional hwhole hfraction =>
      rw [List.forall_mem_append, List.forall_mem_cons]
      exact ⟨hdigits hwhole.1, rfl, hdigits hfraction⟩
    | @scientific _ fraction plus power hwhole hfraction hplus =>
      have hpoint : ∀ c ∈ (if fraction = [] then [] else '.' :: fraction), inWord c = true := by
        split
        next => simp
        next =>
          rw [List.forall_mem_cons]
          exact ⟨rfl, hdigits hfraction⟩
      have hsign : ∀ c ∈ Json.exponentSign plus power, inWord c = true := by
        unfold Json.exponentSign
        split
        next => simp [inWord, delimiters]
        next => rcases hplus with rfl | rfl <;> simp [inWord, delimiters]
      simp only [List.forall_mem_append, List.forall_mem_cons]
      exact ⟨hdigits hwhole.1, hpoint, rfl, hsign, hdigits (Json.isDigit_toDigits _)⟩
  constructor
  · obtain ⟨c, more, hcons, -⟩ := Json.exists_signed_eq_cons h
    rw [hcons]
    exact List.cons_ne_nil c more
  · unfold Json.Spells.signed
    rw [List.forall_mem_append]
    refine ⟨?_, htext⟩
    cases negative <;> simp [inWord, delimiters]

/-- The text of a finite literal spells a number of its sign that rounds to its magnitude. -/
theorem literal_spells {x : Float} (h : x.isFinite = true) :
    ∃ text n, (literalStyle.format x).toList = Json.Spells.signed (isNegative x) text ∧
      Json.Spells (isNegative x) text n ∧ n.decimal.toDouble = magnitude x := by
  have hfinite := (isFinite_iff x).mp h
  have hstyle (power : Int) (h : literalStyle.positional power = true) : power < 16 := by
    simp only [literalStyle, Bool.decide_and, Bool.and_eq_true, decide_eq_true_eq] at h
    exact h.2
  obtain ⟨n, hspells, hround, -⟩ :=
    Json.magnitude_spells (.inl rfl) hstyle (isNegative x) hfinite
  refine ⟨_, n, ?_, hspells, hround⟩
  simp [FloatStyle.format, hfinite, Json.Spells.signed]

theorem isWord_literal {x : Float} (h : x.isFinite = true) :
    IsWord (literalStyle.format x).toList := by
  obtain ⟨text, n, htext, hspells, -⟩ := literal_spells h
  rw [htext]
  exact isWord_signed hspells

theorem exists_literal_eq_cons {x : Float} (h : x.isFinite = true) :
    ∃ c rest, (literalStyle.format x).toList = c :: rest ∧ Json.opensNumber c = true := by
  obtain ⟨text, n, htext, hspells, -⟩ := literal_spells h
  rw [htext]
  exact Json.exists_signed_eq_cons hspells

/-- The number that a text spells is read from it, so two doubles of one text have the same sign and
the same magnitude. -/
theorem literal_injective {x y : Float} (hx : x.isFinite = true) (hy : y.isFinite = true)
    (h : literalStyle.format x = literalStyle.format y) : x = y := by
  have hcloses : Json.Closes [] := nofun
  obtain ⟨text, n, htext, hspells, hround⟩ := literal_spells hx
  obtain ⟨text', n', htext', hspells', hround'⟩ := literal_spells hy
  have hread := hspells.readNumeral_append hcloses
  rw [← htext, h, htext', hspells'.readNumeral_append hcloses] at hread
  cases hread
  rw [← ofMagnitude_magnitude x, ← ofMagnitude_magnitude y, ← hround, ← hround',
    ← hspells.negative_eq, ← hspells'.negative_eq]

/-! What may follow, and lists -/

/-- What may stand after an expression: nothing, a separator or a bracket that closes, or a blank that
no equals sign follows. -/
inductive CanFollow : List Char → Prop
  | nil : CanFollow []
  | closed {c : Char} (rest : List Char) : c ∈ [')', '}', ',', ';'] → CanFollow (c :: rest)
  | spaced {c : Char} (rest : List Char) : c ≠ '=' → CanFollow (' ' :: c :: rest)

theorem CanFollow.delimited {rest : List Char} (h : CanFollow rest) : Delimited rest := by
  cases h with
  | nil => exact nofun
  | closed rest hc =>
    apply delimited_cons
    fin_cases hc <;> rfl
  | spaced => exact delimited_cons rfl _

def Begins (text : List Char) : Prop :=
  ∃ c rest, text = c :: rest ∧ (c = '(' ∨ c = '{' ∨ inWord c = true)

theorem IsWord.begins {word : List Char} (h : IsWord word) : Begins word := by
  obtain ⟨hne, hall⟩ := h
  obtain ⟨c, rest, rfl⟩ := List.exists_cons_of_ne_nil hne
  exact ⟨c, rest, rfl, .inr (.inr (hall c (by simp)))⟩

theorem Begins.append {text : List Char} (h : Begins text) (rest : List Char) :
    Begins (text ++ rest) := by
  obtain ⟨c, more, rfl, hc⟩ := h
  exact ⟨c, more ++ rest, rfl, hc⟩

theorem Begins.ne_cons {text : List Char} (h : Begins text) {c : Char}
    (hc : c ∈ [')', '}', '=']) (rest : List Char) : text ≠ c :: rest := by
  obtain ⟨d, more, rfl, hd⟩ := h
  intro heq
  cases heq
  fin_cases hc <;> simp [inWord, delimiters] at hd

theorem Begins.canFollow_space {text : List Char} (h : Begins text) : CanFollow (' ' :: text) := by
  have hne := h.ne_cons (c := '=') (by simp)
  obtain ⟨c, rest, rfl, -⟩ := h
  apply CanFollow.spaced
  rintro rfl
  exact hne rest rfl

/-- Where two items stand in front of what may follow an expression and the texts are equal, the items
are equal and so is what follows. -/
def Delimits {α : Type} (spell : α → List Char) (x y : α) : Prop :=
  ∀ ⦃rest rest' : List Char⦄, CanFollow rest → CanFollow rest' → spell x ++ rest = spell y ++ rest' →
    x = y ∧ rest = rest'

theorem delimits_of_isWord {α : Type} {spell : α → List Char} {x y : α} (hx : IsWord (spell x))
    (hy : IsWord (spell y)) (h : spell x = spell y → x = y) : Delimits spell x y := by
  intro rest rest' hrest hrest' heq
  obtain ⟨hword, htail⟩ := word_append_inj hx hy hrest.delimited hrest'.delimited heq
  exact ⟨h hword, htail⟩

def listMarks : List (List Char × Char) :=
  [([';', ' '], '}'), ([',', ' '], ')'), ([' '], ')')]

section Lists

variable {α : Type} {spell : α → List Char} {separator : List Char} {close : Char}

/-- The items after the first, each behind a separator, and the bracket that closes the list. -/
def spellMore (spell : α → List Char) (separator : List Char) (close : Char) (rest : List Char) :
    List α → List Char
  | [] => close :: rest
  | x :: more => separator ++ (spell x ++ spellMore spell separator close rest more)

theorem intercalate_cons (x : α) (more : List α) (rest : List Char) :
    separator.intercalate ((x :: more).map spell) ++ close :: rest =
      spell x ++ spellMore spell separator close rest more := by
  induction more generalizing x with
  | nil => simp [spellMore]
  | cons y more ih =>
    have hcons := ih y
    simp only [List.map_cons] at hcons ⊢
    rw [List.intercalate_cons_cons, spellMore, ← hcons]
    simp

theorem canFollow_spellMore (hmarks : (separator, close) ∈ listMarks) (rest : List Char) {more : List α}
    (hbegins : ∀ x ∈ more, Begins (spell x)) :
    CanFollow (spellMore spell separator close rest more) := by
  cases more with
  | nil =>
    apply CanFollow.closed
    fin_cases hmarks <;> simp
  | cons x more =>
    have hx := (hbegins x (by simp)).append (spellMore spell separator close rest more)
    rw [spellMore]
    fin_cases hmarks
    · exact .closed _ (by simp)
    · exact .closed _ (by simp)
    · exact hx.canFollow_space

/-- A list ends at the bracket that closes it, which is no separator. -/
theorem spellMore_inj (hmarks : (separator, close) ∈ listMarks) {xs ys : List α}
    (hitems : ∀ x ∈ xs, ∀ y ∈ ys, Delimits spell x y) (hxs : ∀ x ∈ xs, Begins (spell x))
    (hys : ∀ y ∈ ys, Begins (spell y)) {rest rest' : List Char}
    (h : spellMore spell separator close rest xs = spellMore spell separator close rest' ys) :
    xs = ys ∧ rest = rest' := by
  have hne (text rest : List Char) : separator ++ text ≠ close :: rest := by
    fin_cases hmarks <;> simp
  induction xs generalizing ys with
  | nil =>
    cases ys with
    | nil => exact ⟨rfl, (List.cons.inj h).2⟩
    | cons y ys => exact absurd h.symm (hne _ _)
  | cons x xs ih =>
    cases ys with
    | nil => exact absurd h (hne _ _)
    | cons y ys =>
      rw [List.forall_mem_cons] at hxs hys
      obtain ⟨rfl, hmore⟩ := hitems x (by simp) y (by simp)
        (canFollow_spellMore hmarks rest hxs.2) (canFollow_spellMore hmarks rest' hys.2)
        (List.append_cancel_left h)
      have hlater : ∀ x ∈ xs, ∀ y ∈ ys, Delimits spell x y :=
        fun x hx y hy => hitems x (by simp [hx]) y (by simp [hy])
      obtain ⟨rfl, hrest⟩ := ih hlater hxs.2 hys.2 hmore
      exact ⟨rfl, hrest⟩

theorem intercalate_inj (hmarks : (separator, close) ∈ listMarks) {xs ys : List α}
    (hitems : ∀ x ∈ xs, ∀ y ∈ ys, Delimits spell x y) (hxs : ∀ x ∈ xs, Begins (spell x))
    (hys : ∀ y ∈ ys, Begins (spell y)) {rest rest' : List Char}
    (h : separator.intercalate (xs.map spell) ++ close :: rest =
      separator.intercalate (ys.map spell) ++ close :: rest') :
    xs = ys ∧ rest = rest' := by
  have hclose : close ∈ [')', '}', '='] := by fin_cases hmarks <;> simp
  match xs, ys with
  | [], [] => exact ⟨rfl, (List.cons.inj h).2⟩
  | [], y :: ys =>
    rw [intercalate_cons] at h
    exact absurd h.symm (((hys y (by simp)).append _).ne_cons hclose rest)
  | x :: xs, [] =>
    rw [intercalate_cons] at h
    exact absurd h (((hxs x (by simp)).append _).ne_cons hclose rest')
  | x :: xs, y :: ys =>
    apply spellMore_inj hmarks hitems hxs hys
    rw [spellMore, spellMore, ← intercalate_cons, ← intercalate_cons, h]

end Lists

end Reckoner
