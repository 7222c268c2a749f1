import Reckoner.Proofs.Meaning

/-! Only loops run for ever. Without them every evaluation ends, since calls within calls are bounded by
the limit on the depth and everything else by the size of the expression. The bodies that calls run
come from the context, which evaluation itself changes, so that it holds no loop is an invariant. -/

namespace Reckoner

open EvalM

/-- No loop occurs in the expression, the bodies of declarations included. -/
def Expr.LoopFree (e : Expr) : Prop :=
  ∀ op left right body, ¬ Expr.Within (.loop op left right body) e

/-- No loop occurs in the body of any function. -/
def Context.LoopFree (c : Context) : Prop :=
  ∀ name f, c.functions.get? name = some f → f.body.LoopFree

theorem Expr.LoopFree.part {e x : Expr} (h : e.LoopFree) (hx : x ∈ e.parts) : x.LoopFree :=
  fun op left right body hwithin => h op left right body (hwithin.tail hx)

theorem Expr.LoopFree.of_parts {e : Expr} (h : ∀ op left right body, e ≠ .loop op left right body)
    (hparts : ∀ x ∈ e.parts, x.LoopFree) : e.LoopFree := by
  intro op left right body hwithin
  rcases within_iff.mp hwithin with heq | ⟨x, hx, hin⟩
  · exact h op left right body heq.symm
  · exact hparts x hx op left right body hin

theorem Context.LoopFree.declare {c : Context} {f : Function} (h : c.LoopFree)
    (hf : f.body.LoopFree) : (c.declare f).LoopFree := by
  intro name g hg
  change (c.functions.insert f.name f).get? name = some g at hg
  rw [Table.get?_insert] at hg
  split at hg
  · cases Option.some.inj hg
    exact hf
  · exact h name g hg

def LoopFreeAt (depth limit : Nat) (p : Progress) : Prop :=
  p.context.depth = depth ∧ p.context.limit = limit ∧ p.context.LoopFree

theorem LoopFreeAt.left {depth limit : Nat} (p : Progress) {q : Progress}
    (hq : LoopFreeAt (depth + 1) limit q) : LoopFreeAt depth limit (p.left q) := by
  refine ⟨?_, hq.2.1, hq.2.2⟩
  simp [Progress.left, Context.leave, hq.1]

theorem meaning_halts {e : Expr} (he : e.LoopFree) (depth limit : Nat) :
    Ensures (LoopFreeAt depth limit) (fun _ => True) False (fun _ => True) (meaning e) := by
  -- outside on the calls that the limit still allows, inside on the expression
  induction hroom : limit - depth using Nat.strong_induction_on generalizing depth e with
  | _ room deeper =>
  induction e using Expr.induction_parts with
  | _ e ih =>
    have part {x : Expr} (hx : x ∈ e.parts) := ih x hx (he.part hx)
    cases e with
    | literal value =>
      rw [meaning_literal]
      exact .pure trivial
    | unary op x =>
      rw [meaning_unary]
      refine .bind (V := fun _ => True) (.require (by simp) (by simp)) fun op _ => ?_
      exact .bind (part (by simp)) fun x _ => .pure trivial
    | binary op l r =>
      rw [meaning_binary]
      refine .bind (V := fun _ => True) (.require (by simp) (by simp)) fun op _ => ?_
      refine .bind (part (by simp)) fun x _ => .bind (part (by simp)) fun y _ => ?_
      cases op.apply x y with
      | ok z => exact .pure trivial
      | error error => exact .fail trivial
    | assign name x =>
      rw [meaning_assign]
      refine .bind (part (by simp)) fun x _ => ?_
      exact .bind (.modify fun p h => h) fun _ _ => .pure trivial
    | var name =>
      rw [meaning_var]
      exact .read (by simp) (by simp)
    | compare op l r =>
      rw [meaning_compare]
      refine .bind (.compareBy (by simp) (part (by simp)) (part (by simp))) fun holds _ => ?_
      cases holds <;> exact .pure trivial
    | branch op l r t e =>
      rw [meaning_branch]
      refine .bind (.compareBy (by simp) (part (by simp)) (part (by simp))) fun holds _ => ?_
      cases holds <;> exact part (by simp)
    | block body =>
      cases body with
      | nil =>
        rw [meaning_block_nil]
        exact .fail trivial
      | cons x rest =>
        rw [meaning_block_cons]
        exact .sequence trivial fun y hy => part hy
    | loop op l r body => exact absurd .refl (he op l r body)
    | declare name params body =>
      rw [meaning_declare]
      have hbody : body.LoopFree := he.part (by simp)
      refine .bind (.declareFunction fun p h => ?_) fun _ _ => .pure trivial
      exact ⟨h.1, h.2.1, h.2.2.declare hbody⟩
    | call name args =>
      rw [meaning_call]
      refine .bind (V := fun f => f.body.LoopFree)
        (.findFunction (fun p f h hf _ => h.2.2 name f hf) (by simp) (by simp)) fun f hf => ?_
      refine .bind (.collect fun x hx => part hx) fun values _ => ?_
      by_cases hlt : depth < limit
      · refine .inCall (J := LoopFreeAt (depth + 1) limit) (by simp) ?_
          (deeper (limit - (depth + 1)) (by omega) hf (depth + 1) rfl) fun p q _ hq => hq.left p
        intro p h _
        exact ⟨congrArg (· + 1) h.1, h.2⟩
      · refine .inCall (J := fun _ => False) (by simp) ?_ (fun _ h => h.elim) fun p q _ h => h.elim
        intro p h hroom
        rw [h.1, h.2.1] at hroom
        exact hlt hroom

/-- Without loops every evaluation ends, with a value or with an error, whatever the depth and the
limit are. -/
theorem evaluate_terminates (e : Expr) (c : Context) (he : e.LoopFree) (hc : c.LoopFree) :
    ∃ fuel run, evaluate fuel e c = some run := by
  have h := meaning_halts he c.depth c.limit ⟨c, []⟩ ⟨rfl, rfl, hc⟩
  have hne : meaning e ⟨c, []⟩ ≠ .outOfFuel := by
    intro hout
    rw [hout] at h
    exact h
  obtain ⟨run, fuel, hrun⟩ := exists_ends_iff.mpr hne
  exact ⟨fuel, run, hrun⟩

/-- A body that declares the function it then calls, which calls the first one again. -/
def pingBody : Expr := .block [.declare "pong" [] (.call "ping" []), .call "pong" []]

theorem pingBody_loopFree : pingBody.LoopFree := by
  have hcall (name : String) : (Expr.call name []).LoopFree := .of_parts (by simp) (by simp)
  refine .of_parts (by simp [pingBody]) ?_
  simp only [pingBody, Expr.parts, List.mem_cons, List.not_mem_nil, or_false, forall_eq_or_imp,
    forall_eq]
  exact ⟨.of_parts (by simp) (by simpa using hcall "ping"), hcall "pong"⟩

theorem evaluate_terminates_ping :
    pingBody.LoopFree ∧ ((Context.withLimit 8).declare ⟨"ping", [], pingBody⟩).LoopFree ∧
      ∃ fuel run,
        evaluate fuel pingBody ((Context.withLimit 8).declare ⟨"ping", [], pingBody⟩) = some run := by
  have hempty : (Context.withLimit 8).LoopFree := by
    intro name f hf
    simp [Context.withLimit] at hf
  have hc := hempty.declare (f := ⟨"ping", [], pingBody⟩) pingBody_loopFree
  exact ⟨pingBody_loopFree, hc, evaluate_terminates _ _ pingBody_loopFree hc⟩

end Reckoner
