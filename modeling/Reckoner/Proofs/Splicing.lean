import Reckoner.Proofs.Loop

/-! Blocks are sequences and nothing more. They open no scope and undo nothing, so a block inside a
block may be dissolved into the expressions around it, wherever the outer block is evaluated. -/

namespace Reckoner

open EvalM

variable {α β γ : Type}

namespace EvalM

theorem bind_assoc (x : EvalM α) (f : α → EvalM β) (g : β → EvalM γ) :
    (x >>= f) >>= g = x >>= fun a => f a >>= g := by
  funext p
  cases hx : x p with
  | value a after =>
    rw [bind_of_value hx]
    change EvalM.bind (x >>= f) g p = EvalM.bind (f a) g after
    unfold EvalM.bind
    rw [bind_of_value hx]
  | failure error after =>
    rw [bind_of_failure hx]
    exact bind_of_failure (bind_of_failure hx)
  | outOfFuel =>
    rw [bind_of_outOfFuel hx]
    exact bind_of_outOfFuel (bind_of_outOfFuel hx)

theorem sequence_append (f : α → EvalM β) (last : β) (l l' : List α) :
    sequence f last (l ++ l') = sequence f last l >>= fun b => sequence f b l' := by
  induction l generalizing last with
  | nil => rfl
  | cons a l ih =>
    simp only [List.cons_append, sequence, ih]
    exact (bind_assoc _ _ _).symm

theorem sequence_singleton (f : α → EvalM β) (last : β) (a : α) : sequence f last [a] = f a := by
  funext p
  cases ha : f a p with
  | value b after => exact bind_of_value ha
  | failure error after => exact bind_of_failure ha
  | outOfFuel => exact bind_of_outOfFuel ha

theorem sequence_of_ne_nil (f : α → EvalM β) (last last' : β) {l : List α} (h : l ≠ []) :
    sequence f last l = sequence f last' l := by
  cases l with
  | nil => exact absurd rfl h
  | cons a l => rfl

theorem sequence_congr {f : α → EvalM β} {l l' : List α} (h : l.map f = l'.map f) (last : β) :
    sequence f last l = sequence f last l' := by
  induction l generalizing l' last with
  | nil =>
    rw [List.map_eq_nil_iff.mp h.symm]
  | cons a l ih =>
    obtain ⟨a', l', rfl, ha, hl⟩ := List.map_eq_cons_iff.mp h.symm
    simp only [sequence, ha, ih hl.symm]

theorem collect_congr {f : α → EvalM β} {l l' : List α} (h : l.map f = l'.map f) :
    collect f l = collect f l' := by
  induction l generalizing l' with
  | nil =>
    rw [List.map_eq_nil_iff.mp h.symm]
  | cons a l ih =>
    obtain ⟨a', l', rfl, ha, hl⟩ := List.map_eq_cons_iff.mp h.symm
    simp only [collect, ha, ih hl.symm]

end EvalM

/-! Surroundings -/

namespace Expr

/-- One level of an expression around a part that is evaluated together with it. -/
inductive Layer where
  | unary (op : String)
  | binaryLeft (op : String) (right : Expr)
  | binaryRight (op : String) (left : Expr)
  | assign (name : String)
  | compareLeft (op : String) (right : Expr)
  | compareRight (op : String) (left : Expr)
  | branchLeft (op : String) (right onTrue onFalse : Expr)
  | branchRight (op : String) (left onTrue onFalse : Expr)
  | branchTrue (op : String) (left right onFalse : Expr)
  | branchFalse (op : String) (left right onTrue : Expr)
  | block (before after : List Expr)
  | loopLeft (op : String) (right body : Expr)
  | loopRight (op : String) (left body : Expr)
  | loopBody (op : String) (left right : Expr)
  | call (name : String) (before after : List Expr)

def Layer.around : Layer → Expr → Expr
  | unary op, x => .unary op x
  | binaryLeft op right, x => .binary op x right
  | binaryRight op left, x => .binary op left x
  | assign name, x => .assign name x
  | compareLeft op right, x => .compare op x right
  | compareRight op left, x => .compare op left x
  | branchLeft op right onTrue onFalse, x => .branch op x right onTrue onFalse
  | branchRight op left onTrue onFalse, x => .branch op left x onTrue onFalse
  | branchTrue op left right onFalse, x => .branch op left right x onFalse
  | branchFalse op left right onTrue, x => .branch op left right onTrue x
  | block before after, x => .block (before ++ x :: after)
  | loopLeft op right body, x => .loop op x right body
  | loopRight op left body, x => .loop op left x body
  | loopBody op left right, x => .loop op left right x
  | call name before after, x => .call name (before ++ x :: after)

/-- An expression inside its surroundings, of which the outermost level comes first. -/
def inside (layers : List Layer) (x : Expr) : Expr := layers.foldr Layer.around x

theorem exists_layer {x e : Expr} (h : x ∈ e.activeParts) : ∃ layer : Layer, layer.around x = e := by
  cases e with
  | block body =>
    obtain ⟨before, after, rfl⟩ := List.append_of_mem h
    exact ⟨.block before after, rfl⟩
  | call name args =>
    obtain ⟨before, after, rfl⟩ := List.append_of_mem h
    exact ⟨.call name before after, rfl⟩
  | literal | var | declare => simp at h
  | unary op y =>
    simp only [activeParts, parts, List.mem_singleton] at h
    exact ⟨.unary op, h ▸ rfl⟩
  | assign name y =>
    simp only [activeParts, parts, List.mem_singleton] at h
    exact ⟨.assign name, h ▸ rfl⟩
  | binary op l r =>
    simp only [activeParts, parts, List.mem_cons, List.not_mem_nil, or_false] at h
    rcases h with rfl | rfl
    · exact ⟨.binaryLeft op r, rfl⟩
    · exact ⟨.binaryRight op l, rfl⟩
  | compare op l r =>
    simp only [activeParts, parts, List.mem_cons, List.not_mem_nil, or_false] at h
    rcases h with rfl | rfl
    · exact ⟨.compareLeft op r, rfl⟩
    · exact ⟨.compareRight op l, rfl⟩
  | branch op l r t e =>
    simp only [activeParts, parts, List.mem_cons, List.not_mem_nil, or_false] at h
    rcases h with rfl | rfl | rfl | rfl
    · exact ⟨.branchLeft op r t e, rfl⟩
    · exact ⟨.branchRight op l t e, rfl⟩
    · exact ⟨.branchTrue op l r e, rfl⟩
    · exact ⟨.branchFalse op l r t, rfl⟩
  | loop op l r body =>
    simp only [activeParts, parts, List.mem_cons, List.not_mem_nil, or_false] at h
    rcases h with rfl | rfl | rfl
    · exact ⟨.loopLeft op r body, rfl⟩
    · exact ⟨.loopRight op l body, rfl⟩
    · exact ⟨.loopBody op l r, rfl⟩

theorem mem_activeParts_around (layer : Layer) (x : Expr) : x ∈ (layer.around x).activeParts := by
  cases layer <;> simp [Layer.around]

/-- Whatever occurs outside the bodies of declarations has surroundings, and nothing else has. -/
theorem active_iff_inside {x e : Expr} : Active x e ↔ ∃ layers, inside layers x = e := by
  constructor
  · intro h
    induction h with
    | refl => exact ⟨[], rfl⟩
    | tail _ hpart ih =>
      obtain ⟨layers, rfl⟩ := ih
      obtain ⟨layer, rfl⟩ := exists_layer hpart
      exact ⟨layer :: layers, rfl⟩
  · rintro ⟨layers, rfl⟩
    induction layers with
    | nil => exact .refl
    | cons layer layers ih => exact ih.tail (mem_activeParts_around layer _)

end Expr

open Reckoner.Expr

/-! Congruence -/

/-- Expressions that end alike in every context, and in the same ones. -/
def Equivalent (e e' : Expr) : Prop := ∀ c run, Ends e c run ↔ Ends e' c run

theorem equivalent_of_meaning_eq {e e' : Expr} (h : meaning e = meaning e') : Equivalent e e' := by
  intro c run
  rw [ends_iff_meaning, ends_iff_meaning, h]

theorem meaning_block {body : List Expr} (h : body ≠ []) :
    meaning (.block body) = sequence meaning 0 body := by
  cases body with
  | nil => exact absurd rfl h
  | cons x rest => exact meaning_block_cons x rest

theorem meaning_around {x y : Expr} (h : meaning x = meaning y) (layer : Layer) :
    meaning (layer.around x) = meaning (layer.around y) := by
  have hmap (before after : List Expr) :
      (before ++ x :: after).map meaning = (before ++ y :: after).map meaning := by simp [h]
  cases layer with
  | unary op => simp only [Layer.around, meaning_unary, h]
  | binaryLeft op r | binaryRight op l => simp only [Layer.around, meaning_binary, h]
  | assign name => simp only [Layer.around, meaning_assign, h]
  | compareLeft op r | compareRight op l => simp only [Layer.around, meaning_compare, h]
  | branchLeft op r t e | branchRight op l t e | branchTrue op l r e | branchFalse op l r t =>
    simp only [Layer.around, meaning_branch, h]
  | block before after =>
    simp only [Layer.around]
    rw [meaning_block (by simp), meaning_block (by simp), sequence_congr (hmap before after)]
  | loopLeft op r body =>
    have htest : (Condition.mk op x r).meaning = (Condition.mk op y r).meaning := by
      simp only [Condition.meaning, h]
    exact meaning_loop_congr htest rfl
  | loopRight op l body =>
    have htest : (Condition.mk op l x).meaning = (Condition.mk op l y).meaning := by
      simp only [Condition.meaning, h]
    exact meaning_loop_congr htest rfl
  | loopBody op l r =>
    have htest : (Condition.mk op l r).meaning = (Condition.mk op l r).meaning := rfl
    exact meaning_loop_congr htest h
  | call name before after =>
    simp only [Layer.around, meaning_call, collect_congr (hmap before after), List.length_append,
      List.length_cons]

theorem meaning_inside {x y : Expr} (h : meaning x = meaning y) (layers : List Layer) :
    meaning (inside layers x) = meaning (inside layers y) := by
  induction layers with
  | nil => exact h
  | cons layer layers ih => exact meaning_around ih layer

theorem meaning_splice (xs zs : List Expr) {ys : List Expr} (h : ys ≠ []) :
    meaning (.block (xs ++ [.block ys] ++ zs)) = meaning (.block (xs ++ ys ++ zs)) := by
  have hinner (last : Float) : sequence meaning last [.block ys] = sequence meaning last ys := by
    rw [sequence_singleton, meaning_block h, sequence_of_ne_nil meaning 0 last h]
  rw [meaning_block (by simp), meaning_block (by simp [h])]
  simp only [sequence_append, hinner]

/-- A block inside another one may be dissolved: both forms end alike in every context, the effects of
a failure included, and so does every expression that has one of them in a place that is evaluated. The
places are all those outside the bodies of declarations. -/
theorem splicing_preserves_evaluation (xs ys zs : List Expr) (hys : ys ≠ []) :
    Equivalent (.block (xs ++ [.block ys] ++ zs)) (.block (xs ++ ys ++ zs)) ∧
    (∀ layers, Equivalent (inside layers (.block (xs ++ [.block ys] ++ zs)))
      (inside layers (.block (xs ++ ys ++ zs)))) ∧
    ∀ x e, Active x e ↔ ∃ layers, inside layers x = e := by
  have hsplice := meaning_splice xs zs hys
  refine ⟨equivalent_of_meaning_eq hsplice, fun layers => ?_, fun x e => active_iff_inside⟩
  exact equivalent_of_meaning_eq (meaning_inside hsplice layers)

/-- The inner block fails after a first effect, in the body of a loop. -/
theorem splicing_preserves_evaluation_failing :
    let ys : List Expr := [.assign "b" (.literal 2), .var "missing"]
    let e : Expr := .block ([.assign "a" (.literal 1)] ++ [.block ys] ++ [.assign "c" (.literal 3)])
    ys ≠ [] ∧ ∃ run, Ends (inside [.loopBody "lt" (.literal 0) (.literal 1)] e) (.withLimit 5) run ∧
      run.outcome = .error (.unboundVariable "missing") ∧ run.context.vars.names = ["a", "b"] := by
  intro ys e
  have hys : ys ≠ [] := by simp [ys]
  let c : Context := ⟨.ofList [("a", 1), ("b", 2)], ∅, 0, 5⟩
  have hrun : Ends (inside [.loopBody "lt" (.literal 0) (.literal 1)]
      (.block ([.assign "a" (.literal 1)] ++ ys ++ [.assign "c" (.literal 3)]))) (.withLimit 5)
      ⟨.error (.unboundVariable "missing"), c, []⟩ := ⟨4, rfl⟩
  obtain ⟨-, hinside, -⟩ := splicing_preserves_evaluation [.assign "a" (.literal 1)] ys
    [.assign "c" (.literal 3)] hys
  exact ⟨hys, _, (hinside [.loopBody "lt" (.literal 0) (.literal 1)] _ _).mpr hrun, rfl, rfl⟩

end Reckoner
