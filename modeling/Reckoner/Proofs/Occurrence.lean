import Mathlib.Logic.Relation
import Reckoner.Expr

/-! Where an expression occurs in another one. The body of a declaration is part of it, but it is not
evaluated together with it, so there are two relations: `Within` looks into such bodies and `Active`
does not. -/

namespace Reckoner.Expr

@[simp] def parts : Expr → List Expr
  | .literal _ | .var _ => []
  | .unary _ x | .assign _ x => [x]
  | .binary _ l r | .compare _ l r => [l, r]
  | .branch _ l r t e => [l, r, t, e]
  | .block body => body
  | .loop _ l r body => [l, r, body]
  | .declare _ _ body => [body]
  | .call _ args => args

/-- The parts that are evaluated together with the expression. -/
@[simp] def activeParts : Expr → List Expr
  | .declare _ _ _ => []
  | e => e.parts

/-- `x` occurs in `e`, possibly in the body of a declaration. -/
def Within : Expr → Expr → Prop := Relation.ReflTransGen fun x e => x ∈ e.parts

/-- `x` occurs in `e` outside the bodies of declarations. -/
def Active : Expr → Expr → Prop := Relation.ReflTransGen fun x e => x ∈ e.activeParts

theorem mem_parts_of_mem_activeParts {x e : Expr} (h : x ∈ e.activeParts) : x ∈ e.parts := by
  cases e <;> first | exact h | simp [activeParts] at h

theorem occurs_iff (children : Expr → List Expr) {x e : Expr} :
    Relation.ReflTransGen (fun x e => x ∈ children e) x e ↔
      x = e ∨ ∃ y ∈ children e, Relation.ReflTransGen (fun x e => x ∈ children e) x y := by
  rw [Relation.ReflTransGen.cases_tail_iff]
  constructor
  · rintro (rfl | ⟨y, hxy, hy⟩)
    · exact .inl rfl
    · exact .inr ⟨y, hy, hxy⟩
  · rintro (rfl | ⟨y, hy, hxy⟩)
    · exact .inl rfl
    · exact .inr ⟨y, hxy, hy⟩

theorem within_iff {x e : Expr} : Within x e ↔ x = e ∨ ∃ y ∈ e.parts, Within x y :=
  occurs_iff parts

theorem active_iff {x e : Expr} : Active x e ↔ x = e ∨ ∃ y ∈ e.activeParts, Active x y :=
  occurs_iff activeParts

theorem sizeOf_lt_of_mem_parts {x e : Expr} (h : x ∈ e.parts) : sizeOf x < sizeOf e := by
  cases e with
  | literal | var => simp [parts] at h
  | block body =>
    have hlt : sizeOf x < sizeOf body := List.sizeOf_lt_of_mem h
    simp only [block.sizeOf_spec]
    omega
  | call name args =>
    have hlt : sizeOf x < sizeOf args := List.sizeOf_lt_of_mem h
    simp only [call.sizeOf_spec]
    omega
  | _ =>
    simp only [parts, List.mem_cons, List.not_mem_nil, or_false] at h
    grind

theorem induction_parts {P : Expr → Prop} (h : ∀ e, (∀ x ∈ e.parts, P x) → P e) (e : Expr) : P e :=
  h e fun x _ => induction_parts h x
termination_by sizeOf e
decreasing_by exact sizeOf_lt_of_mem_parts ‹_›

end Reckoner.Expr
