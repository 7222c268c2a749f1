import Mathlib
import Reckoner.Operator
import Reckoner.Proofs.Double

/-! Doubles that compare equal. They are the same double or zeros of either sign, and no operator
tells these apart: zero divisors are refused, results that are not finite are errors, and what is
left compares equal again. -/

namespace Reckoner

namespace Number

open Float.Model Float.Model.UnpackedFloat

/-- Neither is finite, or both are and they compare equal. -/
def Agree (x y : Float) : Prop :=
  x.isFinite = y.isFinite ∧ (x.isFinite = true → (x == y) = true)

instance (x y : Float) : Decidable (Agree x y) := inferInstanceAs (Decidable (_ ∧ _))

theorem beq_self_of_isFinite {x : Float} (h : x.isFinite = true) : (x == x) = true := by
  rw [Float.beq_self_iff]
  rintro rfl
  revert h
  decide

theorem agree_refl (x : Float) : Agree x x := ⟨rfl, beq_self_of_isFinite⟩

theorem beq_symm {x y : Float} (h : (x == y) = true) : (y == x) = true := by
  rw [Float.beq_iff_ne_nan_and_eq] at h ⊢
  grind

theorem beq_trans {x y z : Float} (h : (x == y) = true) (h' : (y == z) = true) :
    (x == z) = true := by
  rw [Float.beq_iff_ne_nan_and_eq] at *
  have hne : (0 : Float) ≠ -0 := by decide
  grind

theorem beq_congr {x x' y y' : Float} (hx : (x == x') = true) (hy : (y == y') = true) :
    (x == y) = (x' == y') := by
  rw [Bool.eq_iff_iff]
  constructor
  · exact fun h => beq_trans (beq_symm hx) (beq_trans h hy)
  · exact fun h => beq_trans hx (beq_trans h (beq_symm hy))

theorem agree_equivalence : Equivalence Agree where
  refl := agree_refl
  symm h := ⟨h.1.symm, fun hy => beq_symm (h.2 (h.1.trans hy))⟩
  trans h h' := ⟨h.1.trans h'.1, fun hx => beq_trans (h.2 hx) (h'.2 (h.1.symm.trans hx))⟩

/-- A function that does not tell the zeros apart does not tell doubles apart that compare equal. -/
theorem rel_of_beq {β : Type} {R : β → β → Prop} (hR : Equivalence R) {f : Float → Float → β}
    (hleft : ∀ y, R (f 0 y) (f (-0) y)) (hright : ∀ x, R (f x 0) (f x (-0)))
    {x x' y y' : Float} (hx : (x == x') = true) (hy : (y == y') = true) :
    R (f x y) (f x' y') := by
  have hfirst : R (f x y) (f x' y) := by
    rw [Float.beq_iff_ne_nan_and_eq] at hx
    obtain ⟨-, -, rfl | ⟨rfl, rfl⟩ | ⟨rfl, rfl⟩⟩ := hx
    · exact hR.refl _
    · exact hleft y
    · exact hR.symm (hleft y)
  have hsecond : R (f x' y) (f x' y') := by
    rw [Float.beq_iff_ne_nan_and_eq] at hy
    obtain ⟨-, -, rfl | ⟨rfl, rfl⟩ | ⟨rfl, rfl⟩⟩ := hy
    · exact hR.refl _
    · exact hright x'
    · exact hR.symm (hright x')
  exact hR.trans hfirst hsecond

/-! The four operations, on doubles that are taken apart -/

/-- The sign is all that may differ, and it differs in zeros and infinities only. -/
inductive SignBlurred : UnpackedFloat → UnpackedFloat → Prop
  | refl {u : UnpackedFloat} : SignBlurred u u
  | zero {s t : Sign} : SignBlurred (.zero s) (.zero t)
  | infinity {s t : Sign} : SignBlurred (.infinity s) (.infinity t)

theorem SignBlurred.agree {u v : UnpackedFloat} (h : SignBlurred u v) :
    Agree (.ofModel (.pack u)) (.ofModel (.pack v)) := by
  cases h with
  | refl => exact agree_refl _
  | @zero s t => cases s <;> cases t <;> decide
  | @infinity s t => cases s <;> cases t <;> decide

section Blurred

variable (v : UnpackedFloat)

theorem add_blurred :
    SignBlurred (.add .binary64 (.zero .positive) v) (.add .binary64 (.zero .negative) v) ∧
      SignBlurred (.add .binary64 v (.zero .positive)) (.add .binary64 v (.zero .negative)) := by
  cases v with
  | zero sign => cases sign <;> exact ⟨.zero, .zero⟩
  | _ => exact ⟨.refl, .refl⟩

theorem sub_blurred :
    SignBlurred (.sub .binary64 (.zero .positive) v) (.sub .binary64 (.zero .negative) v) ∧
      SignBlurred (.sub .binary64 v (.zero .positive)) (.sub .binary64 v (.zero .negative)) := by
  cases v with
  | zero sign => cases sign <;> exact ⟨.zero, .zero⟩
  | _ => exact ⟨.refl, .refl⟩

theorem mul_blurred :
    SignBlurred (.mul .binary64 (.zero .positive) v) (.mul .binary64 (.zero .negative) v) ∧
      SignBlurred (.mul .binary64 v (.zero .positive)) (.mul .binary64 v (.zero .negative)) := by
  cases v with
  | notANumber => exact ⟨.refl, .refl⟩
  | infinity sign => exact ⟨.refl, .refl⟩
  | zero sign => exact ⟨.zero, .zero⟩
  | finite sign m e hm => exact ⟨.zero, .zero⟩

theorem div_blurred :
    SignBlurred (.div .binary64 (.zero .positive) v) (.div .binary64 (.zero .negative) v) ∧
      SignBlurred (.div .binary64 v (.zero .positive)) (.div .binary64 v (.zero .negative)) := by
  cases v with
  | notANumber => exact ⟨.refl, .refl⟩
  | infinity sign => exact ⟨.zero, .infinity⟩
  | zero sign => exact ⟨.refl, .refl⟩
  | finite sign m e hm => exact ⟨.zero, .infinity⟩

theorem compare_blurred :
    UnpackedFloat.compare (.zero .positive) v = UnpackedFloat.compare (.zero .negative) v ∧
      UnpackedFloat.compare v (.zero .positive) = UnpackedFloat.compare v (.zero .negative) := by
  cases v with
  | notANumber => exact ⟨rfl, rfl⟩
  | infinity sign => cases sign <;> exact ⟨rfl, rfl⟩
  | zero sign => exact ⟨rfl, rfl⟩
  | finite sign m e hm => cases sign <;> exact ⟨rfl, rfl⟩

end Blurred

theorem compare_of_beq {x x' y y' : Float} (hx : (x == x') = true) (hy : (y == y') = true) :
    x.toModel.unpack.compare y.toModel.unpack = x'.toModel.unpack.compare y'.toModel.unpack :=
  rel_of_beq eq_equivalence (f := fun x y => x.toModel.unpack.compare y.toModel.unpack)
    (fun _ => (compare_blurred _).1) (fun _ => (compare_blurred _).2) hx hy

theorem lt_iff_compare (x y : Float) :
    x < y ↔ x.toModel.unpack.compare y.toModel.unpack = some .lt := by
  change Float.lt x y = true ↔ _
  unfold Float.lt
  rw [decide_eq_true_iff]
  change (x.toModel.unpack.compare y.toModel.unpack == some .lt) = true ↔ _
  rw [beq_iff_eq]

theorem le_iff_compare (x y : Float) :
    x ≤ y ↔ (x.toModel.unpack.compare y.toModel.unpack).any Ordering.isLE = true := by
  change Float.le x y = true ↔ _
  unfold Float.le
  rw [decide_eq_true_iff]
  rfl

/-! Remainders and powers -/

theorem agree_ofMagnitude_zero (s t : Bool) : Agree (ofMagnitude s 0) (ofMagnitude t 0) := by
  cases s <;> cases t <;> decide

theorem agree_ofMagnitude_infinity (s t : Bool) :
    Agree (ofMagnitude s infinity) (ofMagnitude t infinity) := by
  cases s <;> cases t <;> decide

@[simp] theorem magnitude_zero : magnitude 0 = 0 := by decide

theorem agree_remainder_left (y : Float) : Agree (remainder 0 y) (remainder (-0) y) := by
  have hmantissa : mantissa 0 = 0 := by decide
  unfold remainder
  simp only [magnitude_neg, magnitude_zero, hmantissa, Nat.zero_mul, Nat.zero_mod]
  split
  · exact agree_refl _
  · split
    · decide
    · have hnearest (unit : Int) : nearest ((Fraction.mk 0 1).scale 2 unit) = 0 := by
        simp [nearest, Fraction.scale]
      simp only [hnearest]
      exact agree_ofMagnitude_zero _ _

theorem agree_remainder_right (x : Float) : Agree (remainder x 0) (remainder x (-0)) := by
  simp [remainder, agree_refl]

theorem agree_power_left (y : Float) : Agree (power 0 y) (power (-0) y) := by
  have hzero : ((0 : Float) == 0) = true := by decide
  have hneg : ((-0 : Float) == 0) = true := by decide
  unfold power
  simp only [hzero, hneg, if_true]
  split
  · exact agree_refl _
  · split
    · exact agree_ofMagnitude_zero _ _
    · split
      · exact agree_ofMagnitude_infinity _ _
      · exact agree_refl _

theorem agree_power_right (x : Float) : Agree (power x 0) (power x (-0)) := by
  have hzero : ((0 : Float) == 0) = true := by decide
  have hneg : ((-0 : Float) == 0) = true := by decide
  simp only [power, hzero, hneg, if_true, agree_refl]

theorem beq_neg {x x' : Float} (h : (x == x') = true) : (-x == -x') = true := by
  have hzeros : (-(0 : Float) == - -0) = true ∧ (- -(0 : Float) == -0) = true := by decide
  rw [Float.beq_iff_ne_nan_and_eq] at h
  obtain ⟨hx, -, rfl | ⟨rfl, rfl⟩ | ⟨rfl, rfl⟩⟩ := h
  · rw [Float.beq_self_iff]
    intro hnan
    apply hx
    have hmagnitude : magnitude x = magnitude Float.nan := by rw [← hnan, magnitude_neg]
    rw [← ofMagnitude_magnitude x, hmagnitude]
    cases isNegative x <;> decide
  · exact hzeros.1
  · exact hzeros.2

end Number

/-! Operators -/

open Number

namespace ArithmeticOp

theorem agree_compute (op : ArithmeticOp) {x x' y y' : Float} (hx : (x == x') = true)
    (hy : (y == y') = true) : Agree (op.compute x y) (op.compute x' y') := by
  apply rel_of_beq agree_equivalence _ _ hx hy
  · intro y
    cases op with
    | add => exact (add_blurred y.toModel.unpack).1.agree
    | subtract => exact (sub_blurred y.toModel.unpack).1.agree
    | multiply => exact (mul_blurred y.toModel.unpack).1.agree
    | divide => exact (div_blurred y.toModel.unpack).1.agree
    | remainder => exact agree_remainder_left y
    | power => exact agree_power_left y
  · intro x
    cases op with
    | add => exact (add_blurred x.toModel.unpack).2.agree
    | subtract => exact (sub_blurred x.toModel.unpack).2.agree
    | multiply => exact (mul_blurred x.toModel.unpack).2.agree
    | divide => exact (div_blurred x.toModel.unpack).2.agree
    | remainder => exact agree_remainder_right x
    | power => exact agree_power_right x

/-- Operands that compare equal give the same error, or results that compare equal. -/
theorem apply_of_beq (op : ArithmeticOp) {x x' y y' : Float} (hx : (x == x') = true)
    (hy : (y == y') = true) :
    (∃ error, op.apply x y = .error error ∧ op.apply x' y' = .error error) ∨
      ∃ z z', op.apply x y = .ok z ∧ op.apply x' y' = .ok z' ∧ (z == z') = true := by
  have hzero : (y == 0) = (y' == 0) := beq_congr hy (by decide)
  obtain ⟨hfinite, hequal⟩ := agree_compute op hx hy
  simp only [apply, hzero, hfinite]
  split
  · exact .inl ⟨_, rfl, rfl⟩
  · split
    next hresult => exact .inr ⟨_, _, rfl, rfl, hequal (hfinite.trans hresult)⟩
    next => exact .inl ⟨_, rfl, rfl⟩

end ArithmeticOp

theorem SignOp.apply_of_beq (op : SignOp) {x x' : Float} (hx : (x == x') = true) :
    (op.apply x == op.apply x') = true := by
  cases op with
  | negate => exact beq_neg hx
  | keep => exact hx

theorem Comparison.holds_of_beq (op : Comparison) {x x' y y' : Float} (hx : (x == x') = true)
    (hy : (y == y') = true) : op.holds x y = op.holds x' y' := by
  have hxy := compare_of_beq hx hy
  have hyx := compare_of_beq hy hx
  have hequal : (x == y) = (x' == y') := beq_congr hx hy
  cases op with
  | less => simp only [holds, lt_iff_compare, hxy]
  | lessEqual => simp only [holds, le_iff_compare, hxy]
  | greater => simp only [holds, lt_iff_compare, hyx]
  | greaterEqual => simp only [holds, le_iff_compare, hyx]
  | equal => exact hequal
  | notEqual => simp only [holds, hequal]

end Reckoner
