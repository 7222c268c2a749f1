import Mathlib.Logic.Basic
import Reckoner.Expr

/-! Results that are missing for one reason only. Where each part of a computation has its result
under a condition of its own, and the same error otherwise, the whole has its result under all of the
conditions; in which order the parts are looked at makes no difference. -/

namespace Reckoner

variable {α β γ ε : Type}

open Classical in
/-- `a` under the condition `P`, and the error `bad` otherwise. -/
noncomputable def guarded (bad : ε) (P : Prop) (a : α) : Except ε α :=
  if P then .ok a else .error bad

variable {bad : ε} {P Q : Prop} {a : α} {b : β}

theorem guarded_of (h : P) : guarded bad P a = .ok a := if_pos h

theorem guarded_of_not (h : ¬ P) : guarded bad P a = .error bad := if_neg h

theorem guarded_congr (h : P ↔ Q) : guarded bad P a = guarded bad Q a := by
  rw [propext h]

theorem guarded_eq_ok_iff {a' : α} : guarded bad P a = .ok a' ↔ P ∧ a = a' := by
  by_cases h : P
  · rw [guarded_of h]
    simp [h]
  · rw [guarded_of_not h]
    simp [h]

theorem map_guarded (f : α → β) : (guarded bad P a).map f = guarded bad P (f a) := by
  by_cases h : P
  · rw [guarded_of h, guarded_of h]
    rfl
  · rw [guarded_of_not h, guarded_of_not h]
    rfl

theorem bind_guarded {f : α → Except ε β} (h : f a = guarded bad Q b) :
    guarded bad P a >>= f = guarded bad (P ∧ Q) b := by
  by_cases hP : P
  · rw [guarded_of hP, guarded_congr (and_iff_right hP)]
    exact h
  · rw [guarded_of_not hP, guarded_of_not (fun both => hP both.1)]
    rfl

theorem bind_guarded_ok {f : α → Except ε β} (h : f a = .ok b) :
    guarded bad P a >>= f = guarded bad P b := by
  rw [bind_guarded (h.trans (guarded_of trivial).symm), guarded_congr (and_iff_left trivial)]

theorem mapM_guarded {f : β → Except ε γ} {encode : α → β} {g : α → γ} {P : α → Prop} {l : List α}
    (h : ∀ a ∈ l, f (encode a) = guarded bad (P a) (g a)) :
    (l.map encode).mapM f = guarded bad (∀ a ∈ l, P a) (l.map g) := by
  induction l with
  | nil => exact (guarded_of (by simp)).symm
  | cons a l ih =>
    rw [List.map_cons, List.mapM_cons, h a (by simp), ih fun c hc => h c (by simp [hc])]
    have htail : (guarded bad (∀ c ∈ l, P c) (l.map g) >>= fun found => pure (g a :: found)) =
        guarded bad (∀ c ∈ l, P c) (g a :: l.map g) := bind_guarded_ok rfl
    rw [guarded_congr List.forall_mem_cons]
    exact bind_guarded htail

end Reckoner
