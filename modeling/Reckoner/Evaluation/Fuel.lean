import Reckoner.Evaluation

/-! Fuel decides only whether there is an answer: an evaluation that ends with some fuel ends in the
same way with more. -/

namespace Reckoner

namespace EvalM

variable {α β : Type}

/-- Wherever `x` has an answer, `y` has the same one. -/
def Below (x y : EvalM α) : Prop := ∀ p, x p = .outOfFuel ∨ x p = y p

namespace Below

theorem refl (x : EvalM α) : Below x x := fun _ => .inr rfl

theorem bind {x y : EvalM α} {f g : α → EvalM β} (h : Below x y) (hf : ∀ a, Below (f a) (g a)) :
    Below (x >>= f) (y >>= g) := by
  intro p
  change EvalM.bind x f p = _ ∨ EvalM.bind x f p = EvalM.bind y g p
  unfold EvalM.bind
  rcases h p with hp | hp
  · simp [hp]
  · rw [hp]
    cases y p with
    | value a after => exact hf a after
    | failure => simp
    | outOfFuel => simp

theorem compareBy (op : String) {l l' r r' : EvalM Float} (hl : Below l l') (hr : Below r r') :
    Below (compareBy op l r) (compareBy op l' r') :=
  bind (refl _) fun _ => bind hl fun _ => bind hr fun _ => refl _

theorem inCall {x y : EvalM α} (h : Below x y) (name : String) (locals : Table Float) :
    Below (inCall name locals x) (inCall name locals y) := by
  intro p
  unfold EvalM.inCall
  cases p.context.enter locals with
  | error => simp
  | ok inner =>
      rcases h ⟨inner, .called name inner.depth :: p.events⟩ with hp | hp <;> simp [hp]

theorem collect {f g : α → EvalM β} (h : ∀ a, Below (f a) (g a)) (l : List α) :
    Below (collect f l) (collect g l) := by
  induction l with
  | nil => exact refl _
  | cons a l ih => exact bind (h a) fun _ => bind ih fun _ => refl _

theorem sequence {f g : α → EvalM β} (h : ∀ a, Below (f a) (g a)) (l : List α) (last : β) :
    Below (sequence f last l) (sequence g last l) := by
  induction l generalizing last with
  | nil => exact refl _
  | cons a l ih => exact bind (h a) ih

theorem repeatWhile {test test' : EvalM Bool} {x y : EvalM α} (ht : Below test test')
    (hx : Below x y) {n m : Nat} (hnm : n ≤ m) (last : α) :
    Below (repeatWhile test x n last) (repeatWhile test' y m last) := by
  induction n generalizing m last with
  | zero => exact fun _ => .inl rfl
  | succ n ih =>
      obtain ⟨m, rfl⟩ : ∃ k, m = k + 1 := ⟨m - 1, by omega⟩
      refine bind ht fun holds => ?_
      cases holds with
      | true => exact bind hx fun a => ih (by omega) a
      | false => exact refl _

end Below

end EvalM

open EvalM

theorem eval_below {n m : Nat} (hnm : n ≤ m) (e : Expr) : Below (eval n e) (eval m e) := by
  induction n generalizing m e with
  | zero => exact fun _ => .inl rfl
  | succ n ih =>
      obtain ⟨m, rfl⟩ : ∃ k, m = k + 1 := ⟨m - 1, by omega⟩
      have ih := fun e => ih (Nat.le_of_succ_le_succ hnm) e
      cases e with
      | literal value => exact .refl _
      | unary op x => exact .bind (.refl _) fun _ => .bind (ih x) fun _ => .refl _
      | binary op l r =>
          exact .bind (.refl _) fun _ => .bind (ih l) fun _ => .bind (ih r) fun _ => .refl _
      | assign name x => exact .bind (ih x) fun _ => .refl _
      | var name => exact .refl _
      | compare op l r => exact .bind (.compareBy op (ih l) (ih r)) fun _ => .refl _
      | branch op l r t e =>
          refine .bind (.compareBy op (ih l) (ih r)) fun holds => ?_
          cases holds <;> exact ih _
      | block body =>
          cases body with
          | nil => exact .refl _
          | cons x rest => exact .sequence ih _ _
      | loop op l r body =>
          exact .repeatWhile (.compareBy op (ih l) (ih r)) (ih body)
            (Nat.le_of_succ_le_succ hnm) _
      | declare name params body => exact .refl _
      | call name args =>
          exact .bind (.refl _) fun f =>
            .bind (.collect ih args) fun _ => .inCall (ih f.body) _ _

/-- An evaluation that ends ends in the same way with more fuel. -/
theorem evaluate_of_le {n m : Nat} (hnm : n ≤ m) {e : Expr} {c : Context} {run : Evaluation}
    (h : evaluate n e c = some run) : evaluate m e c = some run := by
  rcases eval_below hnm e ⟨c, []⟩ with hn | hn
  · simp [evaluate, hn] at h
  · unfold evaluate at h ⊢
    rwa [← hn]

end Reckoner
