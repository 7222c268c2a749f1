import Reckoner.Proofs.Occurrence

/-! The literals of an expression, those in the bodies of declarations included: conditions on all of
them, and the expression with other ones in their places. -/

namespace Reckoner

/-- Every literal is finite, the bodies of declarations included. -/
def Expr.FiniteLiterals (e : Expr) : Prop := ∀ x, Expr.Within (.literal x) e → x.isFinite = true

namespace Expr

theorem forall_literal_literal {P : Float → Prop} {x : Float} :
    (∀ y, Within (.literal y) (literal x) → P y) ↔ P x := by
  constructor
  · intro h
    exact h x .refl
  · intro h y hy
    rcases within_iff.mp hy with heq | ⟨z, hz, _⟩
    · cases heq
      exact h
    · simp at hz

theorem forall_literal_iff {P : Float → Prop} {e : Expr} (he : ∀ x, e ≠ .literal x) :
    (∀ y, Within (.literal y) e → P y) ↔ ∀ x ∈ e.parts, ∀ y, Within (.literal y) x → P y := by
  constructor
  · intro h x hx y hy
    exact h y (hy.tail hx)
  · intro h y hy
    rcases within_iff.mp hy with heq | ⟨x, hx, hin⟩
    · exact absurd heq.symm (he y)
    · exact h x hx y hin

theorem finiteLiterals_literal {x : Float} : (literal x).FiniteLiterals ↔ x.isFinite = true :=
  forall_literal_literal

theorem finiteLiterals_iff {e : Expr} (he : ∀ x, e ≠ .literal x) :
    e.FiniteLiterals ↔ ∀ x ∈ e.parts, x.FiniteLiterals :=
  forall_literal_iff he

mutual

/-- The expression with its literals changed, the bodies of declarations included. -/
def mapLiterals (f : Float → Float) : Expr → Expr
  | .literal value => .literal (f value)
  | .unary op x => .unary op (mapLiterals f x)
  | .binary op l r => .binary op (mapLiterals f l) (mapLiterals f r)
  | .assign name x => .assign name (mapLiterals f x)
  | .var name => .var name
  | .compare op l r => .compare op (mapLiterals f l) (mapLiterals f r)
  | .branch op l r t e =>
      .branch op (mapLiterals f l) (mapLiterals f r) (mapLiterals f t) (mapLiterals f e)
  | .block body => .block (mapLiteralsAll f body)
  | .loop op l r body => .loop op (mapLiterals f l) (mapLiterals f r) (mapLiterals f body)
  | .declare name params body => .declare name params (mapLiterals f body)
  | .call name args => .call name (mapLiteralsAll f args)

def mapLiteralsAll (f : Float → Float) : List Expr → List Expr
  | [] => []
  | x :: rest => mapLiterals f x :: mapLiteralsAll f rest

end

theorem mapLiteralsAll_eq_map (f : Float → Float) (es : List Expr) :
    mapLiteralsAll f es = es.map (mapLiterals f) := by
  induction es with
  | nil => rfl
  | cons e es ih => rw [mapLiteralsAll, ih, List.map_cons]

theorem mapLiteralsAll_eq_self_iff (f : Float → Float) (es : List Expr) :
    mapLiteralsAll f es = es ↔ ∀ e ∈ es, e.mapLiterals f = e := by
  induction es with
  | nil => simp [mapLiteralsAll]
  | cons e es ih => simp [mapLiteralsAll, ih]

theorem mapLiterals_eq_self_iff_parts (f : Float → Float) {e : Expr} (he : ∀ x, e ≠ .literal x) :
    e.mapLiterals f = e ↔ ∀ x ∈ e.parts, x.mapLiterals f = x := by
  cases e with
  | literal x => exact absurd rfl (he x)
  | _ => simp [mapLiterals, mapLiteralsAll_eq_self_iff]

theorem mapLiterals_eq_self_iff (f : Float → Float) (e : Expr) :
    e.mapLiterals f = e ↔ ∀ x, Within (.literal x) e → f x = x := by
  induction e using induction_parts with
  | _ e ih =>
    by_cases he : ∃ x, e = .literal x
    · obtain ⟨x, rfl⟩ := he
      rw [forall_literal_literal]
      simp [mapLiterals]
    · have hne (x : Float) : e ≠ .literal x := fun heq => he ⟨x, heq⟩
      rw [mapLiterals_eq_self_iff_parts f hne, forall_literal_iff hne]
      exact forall₂_congr ih

end Expr

end Reckoner
