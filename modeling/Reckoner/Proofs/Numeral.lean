import Reckoner.Json.Numeral
import Reckoner.Json.Writer
import Reckoner.Proofs.Double
import Reckoner.Proofs.Shortest

/-! Numbers written and read. The text of a finite double is a number of JSON in front of whatever may
follow it in a text, all its digits count when it is read, and what is read is a double again. -/

namespace Reckoner.Json

open Number

/-- What may stand after a value: nothing, or what separates or closes values. -/
def Closes (rest : List Char) : Prop := ∀ c ∈ rest.head?, c = ',' ∨ c = ']' ∨ c = '}'

/-- The digits before a point: a zero that stands alone, or digits that do not start with a zero. -/
def Whole (digits : List Char) : Prop :=
  (∀ c ∈ digits, c.isDigit = true) ∧ digits ≠ [] ∧ (digits.head? = some '0' → digits = ['0'])

def NoDigit (rest : List Char) : Prop := ∀ c ∈ rest.head?, c.isDigit = false

theorem noDigit_cons {c : Char} (h : c.isDigit = false) (rest : List Char) : NoDigit (c :: rest) := by
  intro d hd
  cases hd
  exact h

theorem Closes.noDigit {rest : List Char} (h : Closes rest) : NoDigit rest := by
  intro c hc
  rcases h c hc with rfl | rfl | rfl <;> rfl

theorem readDigits_append {digits rest : List Char} (hdigits : ∀ c ∈ digits, c.isDigit = true)
    (hne : digits ≠ []) (hrest : NoDigit rest) : readDigits (digits ++ rest) = some (digits, rest) := by
  have htake : rest.takeWhile Char.isDigit = [] ∧ rest.dropWhile Char.isDigit = rest := by
    cases rest with
    | nil => exact ⟨rfl, rfl⟩
    | cons c rest => simp [hrest c rfl]
  unfold readDigits
  rw [List.takeWhile_append_of_pos hdigits, List.dropWhile_append_of_pos hdigits, htake.1, htake.2,
    List.append_nil]
  cases digits with
  | nil => exact absurd rfl hne
  | cons => rfl

theorem readWhole_append {digits rest : List Char} (h : Whole digits) (hrest : NoDigit rest) :
    readWhole (digits ++ rest) = some (digits, rest) := by
  obtain ⟨hdigits, hne, hzero⟩ := h
  match digits with
  | [] => exact absurd rfl hne
  | c :: more =>
    by_cases hc : c = '0'
    · rw [hzero (by rw [hc]; rfl)]
      rfl
    · rw [← readDigits_append hdigits hne hrest]
      unfold readWhole
      split
      next heq =>
        cases heq
        exact absurd rfl hc
      next => rfl

theorem readFraction_append {digits rest : List Char} (hdigits : ∀ c ∈ digits, c.isDigit = true)
    (hne : digits ≠ []) (hrest : NoDigit rest) :
    readFraction ('.' :: (digits ++ rest)) = some (digits, rest) :=
  readDigits_append hdigits hne hrest

theorem readExponent_of_closes {rest : List Char} (h : Closes rest) :
    readExponent rest = some (none, rest) := by
  match rest with
  | [] => rfl
  | c :: more => rcases h c rfl with rfl | rfl | rfl <;> rfl

/-- A sign is no digit, so digits after the mark of an exponent are read as they are. -/
theorem readExponent_digits {digits rest : List Char} (hdigits : ∀ c ∈ digits, c.isDigit = true)
    (hne : digits ≠ []) (hrest : NoDigit rest) :
    readExponent ('e' :: (digits ++ rest)) = some (some (ofDigits digits : Int), rest) := by
  have hread := readDigits_append hdigits hne hrest
  obtain ⟨c, more, rfl⟩ := List.exists_cons_of_ne_nil hne
  have hc := hdigits c (by simp)
  simp only [readExponent]
  split
  next heq =>
    cases heq
    exact absurd hc (by decide)
  next heq =>
    cases heq
    exact absurd hc (by decide)
  next => rw [hread, Option.map_some]

/-- The mark of a power that is not negative: there is none, or it is a plus. -/
def PlusMark (plus : String) : Prop := plus = "" ∨ plus = "+"

def exponentSign (plus : String) (power : Int) : List Char := if power < 0 then ['-'] else plus.toList

theorem ofDigits_eq (digits : List Char) : ofDigits digits = Nat.ofDigitChars 10 digits 0 := by
  rw [Nat.ofDigitChars_eq_foldl]
  unfold ofDigits
  congr 1
  funext value c
  rw [mul_comm]

theorem isDigit_toDigits (n : Nat) : ∀ c ∈ Nat.toDigits 10 n, c.isDigit = true :=
  fun _ hc => Nat.isDigit_of_mem_toDigits (by decide) (by decide) hc

theorem ofDigitChars_toDigits (n : Nat) : Nat.ofDigitChars 10 (Nat.toDigits 10 n) 0 = n :=
  Nat.ofDigitChars_toDigits (by decide) (by decide)

theorem readExponent_append {plus : String} (hplus : PlusMark plus) (power : Int) {rest : List Char}
    (hrest : NoDigit rest) :
    readExponent ('e' :: (exponentSign plus power ++ (Nat.toDigits 10 power.natAbs ++ rest))) =
      some (some power, rest) := by
  have hall := isDigit_toDigits power.natAbs
  have hdigits := readDigits_append hall Nat.toDigits_ne_nil hrest
  have hvalue : ofDigits (Nat.toDigits 10 power.natAbs) = power.natAbs := by
    rw [ofDigits_eq, ofDigitChars_toDigits]
  unfold exponentSign
  split
  next hneg =>
    simp only [readExponent, List.singleton_append, hdigits, Option.map_some, hvalue]
    congr 3
    omega
  next hpos =>
    have hpower : (power.natAbs : Int) = power := by omega
    rcases hplus with rfl | rfl
    · rw [String.toList_empty, List.nil_append, readExponent_digits hall Nat.toDigits_ne_nil hrest,
        hvalue, hpower]
    · simp only [readExponent, String.reduceToList, List.singleton_append, hdigits, Option.map_some,
        hvalue, hpower]

/-- How a number is written without its sign: the digits, a point where there are digits after it,
and an exponent if there is one. -/
inductive Spells (negative : Bool) : List Char → Numeral → Prop
  | integral {whole : List Char} : Whole whole → Spells negative whole ⟨negative, whole, [], none⟩
  | positional {whole fraction : List Char} : Whole whole → (∀ c ∈ fraction, c.isDigit = true) →
      fraction ≠ [] →
      Spells negative (whole ++ '.' :: fraction) ⟨negative, whole, fraction, none⟩
  | scientific {whole fraction : List Char} {plus : String} (power : Int) : Whole whole →
      (∀ c ∈ fraction, c.isDigit = true) → PlusMark plus →
      Spells negative (whole ++ ((if fraction = [] then [] else '.' :: fraction) ++
        'e' :: (exponentSign plus power ++ Nat.toDigits 10 power.natAbs)))
        ⟨negative, whole, fraction, some power⟩

namespace Spells

variable {negative : Bool} {text rest : List Char} {n : Numeral}

theorem readUnsigned_append (h : Spells negative text n) (hrest : Closes rest) :
    readUnsigned negative (text ++ rest) = some (n, rest) := by
  unfold readUnsigned
  cases h with
  | integral hwhole =>
    have hpoint : readFraction rest = some ([], rest) := by
      match rest with
      | [] => rfl
      | c :: more => rcases hrest c rfl with rfl | rfl | rfl <;> rfl
    rw [readWhole_append hwhole hrest.noDigit]
    simp only [Option.bind_eq_bind, Option.bind_some, hpoint, readExponent_of_closes hrest]
    rfl
  | positional hwhole hfraction hne =>
    rw [List.append_assoc, List.cons_append, readWhole_append hwhole (noDigit_cons rfl _)]
    simp only [Option.bind_eq_bind, Option.bind_some]
    rw [readFraction_append hfraction hne hrest.noDigit]
    simp only [Option.bind_some, readExponent_of_closes hrest]
    rfl
  | @scientific whole fraction plus power hwhole hfraction hplus =>
    have hexponent := readExponent_append hplus power hrest.noDigit
    rw [List.append_assoc, List.append_assoc, List.cons_append, List.append_assoc]
    by_cases hnil : fraction = []
    · have hpoint (text : List Char) : readFraction ('e' :: text) = some ([], 'e' :: text) := rfl
      rw [if_pos hnil, List.nil_append, readWhole_append hwhole (noDigit_cons rfl _), hnil]
      simp only [Option.bind_eq_bind, Option.bind_some, hpoint, hexponent]
      rfl
    · rw [if_neg hnil, List.cons_append, readWhole_append hwhole (noDigit_cons rfl _)]
      simp only [Option.bind_eq_bind, Option.bind_some]
      rw [readFraction_append hfraction hnil (noDigit_cons rfl _)]
      simp only [Option.bind_some, hexponent]
      rfl

theorem exists_cons (h : Spells negative text n) : ∃ c more, text = c :: more ∧ c.isDigit = true := by
  obtain ⟨more, hmore, hwhole⟩ : ∃ more, text = n.whole ++ more ∧ Whole n.whole := by
    cases h with
    | integral hwhole => exact ⟨[], (List.append_nil _).symm, hwhole⟩
    | positional hwhole => exact ⟨_, rfl, hwhole⟩
    | scientific power hwhole => exact ⟨_, rfl, hwhole⟩
  obtain ⟨hdigits, hne, -⟩ := hwhole
  obtain ⟨c, digits, hcons⟩ := List.exists_cons_of_ne_nil hne
  rw [hcons] at hmore hdigits
  exact ⟨c, digits ++ more, hmore, hdigits c (by simp)⟩

theorem negative_eq (h : Spells negative text n) : n.negative = negative := by
  cases h <;> rfl

def signed (negative : Bool) (text : List Char) : List Char := (if negative then ['-'] else []) ++ text

theorem readNumeral_append (h : Spells negative text n) (hrest : Closes rest) :
    readNumeral (signed negative text ++ rest) = some (n, rest) := by
  rw [← h.readUnsigned_append hrest]
  cases negative with
  | true => rfl
  | false =>
    obtain ⟨c, more, rfl, hc⟩ := h.exists_cons
    change readNumeral (c :: (more ++ rest)) = _
    unfold readNumeral
    split
    next heq =>
      cases heq
      exact absurd hc (by decide)
    next => rfl

end Spells

/-! The digits that count -/

namespace Numeral

theorem le_ofDigitChars (significand : Nat) (digits : List Char) :
    significand ≤ Nat.ofDigitChars 10 digits significand := by
  rw [Nat.ofDigitChars_eq_ofDigitChars_zero]
  have hpow := Nat.one_le_pow digits.length 10 (by decide)
  nlinarith

theorem appendDigits_eq {significand : Nat} {digits : List Char}
    (h : Nat.ofDigitChars 10 digits significand < UInt64.size) :
    appendDigits significand digits = (Nat.ofDigitChars 10 digits significand, 0) := by
  induction digits generalizing significand with
  | nil => rfl
  | cons c rest ih =>
    rw [Nat.ofDigitChars_cons, mul_comm] at h ⊢
    have hlonger := lt_of_le_of_lt (le_ofDigitChars _ rest) h
    rw [appendDigits, if_pos hlonger]
    exact ih h

theorem decimal_eq (n : Numeral)
    (h : Nat.ofDigitChars 10 (n.whole ++ n.fraction) 0 < UInt64.size) :
    n.decimal = ⟨Nat.ofDigitChars 10 (n.whole ++ n.fraction) 0,
      n.exponent.getD 0 - n.fraction.length⟩ := by
  rw [Nat.ofDigitChars_append] at h ⊢
  have hwhole : Nat.ofDigitChars 10 n.whole 0 < UInt64.size :=
    lt_of_le_of_lt (le_ofDigitChars _ n.fraction) h
  unfold decimal
  rw [appendDigits_eq hwhole]
  simp only
  rw [appendDigits_eq h]
  simp

end Numeral

/-! The text of a double -/

theorem isDigit_zeros (count : Nat) : ∀ c ∈ Decimal.zeros count, c.isDigit = true := by
  intro c hc
  rw [List.eq_of_mem_replicate hc]
  rfl

theorem head_toDigits_ne {n : Nat} (h : 0 < n) : (Nat.toDigits 10 n).head? ≠ some '0' := by
  induction n using Nat.strong_induction_on with
  | _ n ih =>
    rw [Nat.toDigits_eq_if (by decide)]
    split
    next hlt =>
      interval_cases n <;> decide
    next hge =>
      have hne : Nat.toDigits 10 (n / 10) ≠ [] := Nat.toDigits_ne_nil
      rw [List.head?_append_of_ne_nil _ hne]
      exact ih (n / 10) (by omega) (by omega)

theorem whole_of_toDigits {n : Nat} (h : 0 < n) {digits more : List Char}
    (hdigits : Nat.toDigits 10 n = digits ++ more) (hne : digits ≠ []) (tail : List Char)
    (htail : ∀ c ∈ tail, c.isDigit = true) : Whole (digits ++ tail) := by
  refine ⟨?_, by simp [hne], ?_⟩
  · intro c hc
    rcases List.mem_append.mp hc with hin | hin
    · exact isDigit_toDigits n c (by rw [hdigits]; exact List.mem_append_left _ hin)
    · exact htail c hin
  · intro hhead
    have hfirst := head_toDigits_ne h
    rw [hdigits, List.head?_append_of_ne_nil _ hne] at hfirst
    rw [List.head?_append_of_ne_nil _ hne] at hhead
    exact absurd hhead hfirst

theorem isDigit_append {l m : List Char} (hl : ∀ c ∈ l, c.isDigit = true)
    (hm : ∀ c ∈ m, c.isDigit = true) : ∀ c ∈ l ++ m, c.isDigit = true := by
  intro c hc
  rcases List.mem_append.mp hc with hin | hin
  · exact hl c hin
  · exact hm c hin

theorem positional_spells (negative : Bool) {d : Decimal} (h : 0 < d.digits) :
    ∃ n, Spells negative d.positional n ∧ n.exponent = none ∧
      ((Nat.ofDigitChars 10 (n.whole ++ n.fraction) 0 = d.digits ∧
          (n.fraction.length : ℤ) = -d.power) ∨
        0 ≤ d.power ∧
          Nat.ofDigitChars 10 (n.whole ++ n.fraction) 0 = 10 * (10 ^ d.power.toNat * d.digits) ∧
          n.fraction.length = 1) := by
  have hvalue := ofDigitChars_toDigits d.digits
  have hdigits := isDigit_toDigits d.digits
  have hcount : 0 < (Nat.toDigits 10 d.digits).length := Nat.length_toDigits_pos
  unfold Decimal.positional
  simp only
  generalize hlist : Nat.toDigits 10 d.digits = digits at *
  have hne : digits ≠ [] := List.ne_nil_of_length_pos hcount
  split
  next hpoint =>
    generalize hzeros : (-((digits.length : ℤ) + d.power)).toNat = count
    have hspells : Spells negative (['0'] ++ '.' :: (Decimal.zeros count ++ digits))
        ⟨negative, ['0'], Decimal.zeros count ++ digits, none⟩ :=
      .positional ⟨by simp, by simp, by simp⟩ (isDigit_append (isDigit_zeros count) hdigits)
        (by simp [hne])
    refine ⟨_, hspells, rfl, .inl ⟨?_, ?_⟩⟩
    · simp only [Nat.ofDigitChars_append, Decimal.zeros, Nat.ofDigitChars_replicate_zero]
      simp [Nat.ofDigitChars, ← hvalue]
    · simp only [List.length_append, Decimal.zeros, List.length_replicate]
      omega
  next hpoint =>
  split
  next hpower =>
    have hwhole : Whole (digits ++ Decimal.zeros d.power.toNat) :=
      whole_of_toDigits h (hlist.trans (List.append_nil _).symm) hne _ (isDigit_zeros _)
    refine ⟨_, .positional hwhole ?_ (List.cons_ne_nil '0' []), rfl, .inr ⟨hpower, ?_, rfl⟩⟩
    · simp
    · simp only [Nat.ofDigitChars_append, Decimal.zeros, Nat.ofDigitChars_replicate_zero, hvalue]
      rfl
  next hpower =>
    have hsplit := List.take_append_drop ((digits.length : ℤ) + d.power).toNat digits
    have hlength : (digits.drop ((digits.length : ℤ) + d.power).toNat).length =
        (-d.power).toNat := by
      rw [List.length_drop]
      omega
    have hfront : digits.take ((digits.length : ℤ) + d.power).toNat ≠ [] := by
      rw [ne_eq, List.take_eq_nil_iff, not_or]
      exact ⟨by omega, hne⟩
    have hwhole := whole_of_toDigits h (hlist.trans hsplit.symm) hfront [] (by simp)
    rw [List.append_nil] at hwhole
    refine ⟨_, .positional hwhole ?_ ?_, rfl, .inl ⟨?_, ?_⟩⟩
    · intro c hc
      exact hdigits c (List.mem_of_mem_drop hc)
    · apply List.ne_nil_of_length_pos
      omega
    · simp only [hsplit, hvalue]
    · simp only [hlength]
      omega

theorem scientific_spells (negative : Bool) {plus : String} (hplus : PlusMark plus) {d : Decimal}
    (h : 0 < d.digits) :
    ∃ n, Spells negative (d.scientific plus) n ∧
      Nat.ofDigitChars 10 (n.whole ++ n.fraction) 0 = d.digits ∧
        n.exponent.getD 0 - n.fraction.length = d.power := by
  have hvalue := ofDigitChars_toDigits d.digits
  have hdigits := isDigit_toDigits d.digits
  have hcount : 0 < (Nat.toDigits 10 d.digits).length := Nat.length_toDigits_pos
  unfold Decimal.scientific
  simp only
  generalize hlist : Nat.toDigits 10 d.digits = digits at *
  have hsplit := List.take_append_drop 1 digits
  have hfront : digits.take 1 ≠ [] := by
    rw [ne_eq, List.take_eq_nil_iff, not_or]
    exact ⟨by decide, List.ne_nil_of_length_pos hcount⟩
  have hwhole := whole_of_toDigits h (hlist.trans hsplit.symm) hfront [] (by simp)
  rw [List.append_nil] at hwhole
  have hfraction : digits.length = 1 ↔ digits.drop 1 = [] := by
    rw [List.drop_eq_nil_iff]
    omega
  have hsign : (if (digits.length : ℤ) - 1 + d.power < 0 then ['-'] else plus.toList) =
      exponentSign plus ((digits.length : ℤ) - 1 + d.power) := rfl
  have hrest (c : Char) (hc : c ∈ digits.drop 1) : c.isDigit = true :=
    hdigits c (List.mem_of_mem_drop hc)
  refine ⟨⟨negative, digits.take 1, digits.drop 1, some ((digits.length : ℤ) - 1 + d.power)⟩,
    ?_, ?_, ?_⟩
  · simp only [hfraction, hsign, List.append_assoc, List.cons_append]
    exact .scientific _ hwhole hrest hplus
  · simp only [hsplit, hvalue]
  · simp only [Option.getD_some, List.length_drop]
    omega

/-- An integer below `10 ^ 16` and the zero after its point. -/
theorem integral_digits_lt {d : Decimal} (hpower : 0 ≤ d.power)
    (hplace : (digitCount d.digits : ℤ) - 1 + d.power < 16) :
    10 * (10 ^ d.power.toNat * d.digits) < UInt64.size := by
  have hlt := lt_ten_pow_digitCount d.digits
  calc 10 * (10 ^ d.power.toNat * d.digits)
      ≤ 10 * (10 ^ d.power.toNat * 10 ^ digitCount d.digits) := by gcongr
    _ = 10 ^ (1 + d.power.toNat + digitCount d.digits) := by ring
    _ ≤ 10 ^ 17 := Nat.pow_le_pow_right (by decide) (by omega)
    _ < UInt64.size := by decide

/-- The text of a finite magnitude spells a number that rounds to this magnitude, and that is read as
a finite one, in every style that writes no powers of `10 ^ 16` and more around a point. -/
theorem magnitude_spells {style : FloatStyle} (hplus : PlusMark style.plus)
    (hstyle : ∀ power, style.positional power = true → power < 16) (negative : Bool) {bits : Nat}
    (h : bits < infinity) :
    ∃ n, Spells negative (style.magnitude bits) n ∧ n.decimal.toDouble = bits ∧
      n.decimal.scaled < infinity := by
  unfold FloatStyle.magnitude
  split
  next hzero =>
    have hspells : Spells negative (['0'] ++ '.' :: ['0']) ⟨negative, ['0'], ['0'], none⟩ :=
      .positional ⟨by simp, by simp, by simp⟩ (by simp) (by simp)
    have hdecimal : (Numeral.mk negative ['0'] ['0'] none).decimal = ⟨0, -1⟩ := rfl
    refine ⟨_, hspells, ?_, ?_⟩
    · rw [hdecimal, hzero]
      rfl
    · rw [hdecimal]
      exact Decimal.scaled_lt_of_neg (by decide) (by decide)
  next hne =>
  have hpos : 0 < bits := Nat.pos_of_ne_zero hne
  obtain ⟨hround, hdigits⟩ := Decimal.shortest_spec style.tie hpos h
  have hdigitsPos := Decimal.shortest_digits_pos style.tie hpos h
  have hscaled := Decimal.scaled_shortest_lt style.tie hpos h
  simp only
  generalize Decimal.shortest style.tie bits = d at *
  have hsize : d.digits < UInt64.size := lt_of_le_of_lt hdigits (by decide)
  split
  next hpositional =>
    obtain ⟨n, hspells, hexponent, ⟨hvalue, hlength⟩ | ⟨hpower, hvalue, hlength⟩⟩ :=
      positional_spells negative hdigitsPos
    · have hdecimal : n.decimal = d := by
        rw [n.decimal_eq (by omega), hvalue, hexponent, hlength]
        simp
      rw [← hdecimal] at hround hscaled
      exact ⟨n, hspells, hround, hscaled⟩
    · have hsmall := integral_digits_lt hpower (hstyle _ hpositional)
      have hdecimal : n.decimal = ⟨10 * (10 ^ d.power.toNat * d.digits), -1⟩ := by
        rw [n.decimal_eq (by omega), hvalue, hexponent, hlength]
        rfl
      refine ⟨n, hspells, ?_, ?_⟩
      · rw [← hround, hdecimal]
        apply Decimal.toDouble_congr
        obtain ⟨power, hpower⟩ := Int.eq_ofNat_of_zero_le hpower
        simp only [Decimal.value, hpower, Int.toNat_natCast, zpow_natCast, zpow_neg, zpow_one]
        push_cast
        ring
      · rw [hdecimal]
        exact Decimal.scaled_lt_of_neg hsmall neg_one_lt_zero
  next =>
    obtain ⟨n, hspells, hvalue, hlength⟩ := scientific_spells negative hplus hdigitsPos
    have hdecimal : n.decimal = d := by rw [n.decimal_eq (by omega), hvalue, hlength]
    rw [← hdecimal] at hround hscaled
    exact ⟨n, hspells, hround, hscaled⟩

theorem floatText_toList {x : Float} (h : x.isFinite = true) :
    (floatText x).toList =
      Spells.signed (isNegative x) (floatStyle.magnitude (Number.magnitude x)) := by
  have hfinite := (isFinite_iff x).mp h
  simp [floatText, h, FloatStyle.format, hfinite, Spells.signed]

/-- The double that the text of a double is read as. -/
def readBack? (x : Float) : Option Float := do
  let (n, _) ← readNumeral (floatText x).toList
  n.toFloat?

/-- The text of a finite double spells a number that rounds to this double. It is read, also in front
of more text, as a finite double of the same sign, which is the same one if the digits and the power
of ten are doubles. -/
theorem floatText_read {x : Float} (h : x.isFinite = true) :
    ∃ n y, Spells (isNegative x) (floatStyle.magnitude (Number.magnitude x)) n ∧
      readNumeral (floatText x).toList = some (n, []) ∧ n.decimal.toDouble = Number.magnitude x ∧
      n.toFloat? = some y ∧ readBack? x = some y ∧ y.isFinite = true ∧ isNegative y = isNegative x ∧
      (n.decimal.digits < 2 ^ 53 → n.decimal.power.natAbs ≤ 22 → y = x) := by
  have hstyle (power : Int) (h : floatStyle.positional power = true) : power < 16 := by
    simp only [floatStyle, Bool.decide_and, Bool.and_eq_true, decide_eq_true_eq] at h
    exact h.2
  obtain ⟨n, hspells, hround, hscaled⟩ :=
    magnitude_spells (.inr rfl) hstyle (isNegative x) ((isFinite_iff x).mp h)
  have hfloat : n.toFloat? = some (ofMagnitude (isNegative x) n.decimal.scaled) := by
    rw [← hspells.negative_eq]
    exact if_pos hscaled
  have hread : readNumeral (floatText x).toList = some (n, []) := by
    have hcloses : Closes [] := nofun
    rw [floatText_toList h, ← hspells.readNumeral_append hcloses, List.append_nil]
  refine ⟨n, _, hspells, hread, hround, hfloat, ?_, ?_, isNegative_ofMagnitude _ hscaled, ?_⟩
  · unfold readBack?
    rw [hread]
    exact hfloat
  · rw [isFinite_iff, magnitude_ofMagnitude _ hscaled]
    exact hscaled
  · intro hdigits hpower
    rw [Decimal.scaled_eq_toDouble hdigits hpower, hround, ofMagnitude_magnitude]

end Reckoner.Json
