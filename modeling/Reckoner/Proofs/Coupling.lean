import Reckoner.Proofs.Computation
import Reckoner.Proofs.Occurrence

/-! Two runs of the same expressions. A coupling says how the progress of the runs is related in each
frame and that every action of evaluation keeps it so; then evaluation as a whole does. An invariant
of a single run is a coupling of the run with itself. -/

namespace Reckoner

open EvalM

/-- A relation between two runs of the same expressions. In the frame `w`, `code w` are the
expressions that are evaluated and `state w` relates the progress; a call continues in the frame
`inner w`. An error that `stop` accepts may end the first run alone. -/
structure Coupling (W : Type) where
  code : W → Expr → Prop
  state : W → Progress → Progress → Prop
  stop : EvalError → Prop
  inner : W → W
  part {w : W} {e x : Expr} : code w e → x ∈ e.activeParts → code w x
  variable_eq {w : W} {name : String} {p q : Progress} : code w (.var name) → state w p q →
    p.context.vars.get? name = q.context.vars.get? name
  defined {w : W} {name : String} {e : Expr} {p q : Progress} (value : Float) :
    code w (.assign name e) → state w p q → state w (p.defined name value) (q.defined name value)
  declared {w : W} {f : Function} {p q : Progress} : code w (.declare f.name f.params f.body) →
    state w p q → state w (p.declared f) (q.declared f)
  function_eq {w : W} {name : String} {args : List Expr} {p q : Progress} :
    code w (.call name args) → state w p q →
    p.context.functions.get? name = q.context.functions.get? name
  body {w : W} {name : String} {args : List Expr} {p q : Progress} {f : Function} :
    code w (.call name args) → state w p q → p.context.functions.get? name = some f →
    code (inner w) f.body
  tooDeep {w : W} {p q : Progress} : state w p q → p.context.limit ≤ p.context.depth →
    stop (.callTooDeep p.context.depth p.context.limit) ∨
      (p.context.depth = q.context.depth ∧ p.context.limit = q.context.limit)
  entered {w : W} {name : String} {locals : Table Float} {p q : Progress} : state w p q →
    p.context.depth < p.context.limit → q.context.depth < q.context.limit ∧
      state (inner w) (p.entered name locals) (q.entered name locals)
  left {w : W} {p q p' q' : Progress} : state w p q → state (inner w) p' q' →
    state w (p.left p') (q.left q')

namespace Coupling

variable {W : Type} (K : Coupling W) {w : W}

theorem inCall_lockstep (name : String) (locals : Table Float) {x y : EvalM Float}
    (h : Lockstep (K.state (K.inner w)) Eq K.stop Eq x y) :
    Lockstep (K.state w) Eq K.stop Eq (inCall name locals x) (inCall name locals y) := by
  refine .inCall ?_ (fun p q hR => K.entered hR) h (fun p q p' q' => K.left)
  intro p q hR hge
  rcases K.tooDeep hR hge with hstop | ⟨hdepth, hlimit⟩
  · exact .stopped hstop
  · rw [inCall_of_le _ _ _ (by omega), hdepth, hlimit]
    exact .failure rfl hR

theorem eval_lockstep (n : Nat) {e : Expr} (he : K.code w e) :
    Lockstep (K.state w) Eq K.stop Eq (eval n e) (eval n e) := by
  induction n generalizing w e with
  | zero => exact fun _ _ _ => .outOfFuel
  | succ n ih =>
    have part {x : Expr} (hx : x ∈ e.activeParts) :
        Lockstep (K.state w) Eq K.stop Eq (eval n x) (eval n x) := ih (K.part he hx)
    have test (op : String) {l r : Expr} (hl : l ∈ e.activeParts) (hr : r ∈ e.activeParts) :
        Lockstep (K.state w) Eq K.stop Eq (compareBy op (eval n l) (eval n r))
          (compareBy op (eval n l) (eval n r)) :=
      .compareBy rfl (part hl) (part hr) (by rintro _ _ _ _ _ rfl rfl; rfl)
    cases e with
    | literal value => exact .pure rfl
    | unary op x =>
      exact .bind_eq (.require_eq _ rfl) fun _ =>
        .bind_eq (part (by simp)) fun _ => .pure rfl
    | binary op l r =>
      refine .bind_eq (.require_eq _ rfl) fun op =>
        .bind_eq (part (by simp)) fun x =>
          .bind_eq (part (by simp)) fun y => ?_
      cases op.apply x y with
      | ok z => exact .pure rfl
      | error error => exact .fail rfl
    | assign name x =>
      exact .bind_eq (part (by simp)) fun value =>
        .bind_eq (.modify fun _ _ hR => K.defined value he hR) fun _ => .pure rfl
    | var name => exact .read_eq (fun p q hR => K.variable_eq he hR) rfl
    | compare op l r =>
      refine .bind_eq (test op (by simp) (by simp)) fun holds => ?_
      cases holds <;> exact .pure rfl
    | branch op l r t e =>
      refine .bind_eq (test op (by simp) (by simp)) fun holds => ?_
      cases holds <;> exact part (by simp)
    | block body =>
      cases body with
      | nil => exact .fail rfl
      | cons x rest => exact .sequence_eq fun y hy => part hy
    | loop op l r body =>
      exact .repeatWhile (test op (by simp) (by simp))
        (part (by simp)) n rfl
    | declare name params body =>
      exact .bind_eq (.declareFunction fun p q hR => K.declared he hR) fun _ => .pure rfl
    | call name args =>
      refine .bind (V := fun f g => f = g ∧ K.code (K.inner w) f.body) ?_ ?_
      · refine .findFunction (fun p q hR => ?_) (by rintro f _ ⟨rfl, _⟩; rfl) rfl fun _ => rfl
        rw [← K.function_eq he hR]
        cases hf : p.context.functions.get? name with
        | none => exact .none
        | some f => exact .some ⟨rfl, K.body he hR hf⟩
      · rintro f _ ⟨rfl, hbody⟩
        exact .bind_eq (.collect_eq fun x hx => part hx) fun values =>
          K.inCall_lockstep _ _ (ih hbody)

end Coupling

/-- A property of the progress of a single run that every action of evaluation keeps. -/
structure Invariant (W : Type) where
  code : W → Expr → Prop
  state : W → Progress → Prop
  inner : W → W
  part {w : W} {e x : Expr} : code w e → x ∈ e.activeParts → code w x
  defined {w : W} {name : String} {e : Expr} {p : Progress} (value : Float) :
    code w (.assign name e) → state w p → state w (p.defined name value)
  declared {w : W} {f : Function} {p : Progress} : code w (.declare f.name f.params f.body) →
    state w p → state w (p.declared f)
  body {w : W} {name : String} {args : List Expr} {p : Progress} {f : Function} :
    code w (.call name args) → state w p → p.context.functions.get? name = some f →
    code (inner w) f.body
  entered {w : W} {name : String} {locals : Table Float} {p : Progress} : state w p →
    p.context.depth < p.context.limit → state (inner w) (p.entered name locals)
  left {w : W} {p q : Progress} : state w p → state (inner w) q → state w (p.left q)

namespace Invariant

variable {W : Type} (K : Invariant W) {w : W}

def coupling : Coupling W where
  code := K.code
  state w p q := p = q ∧ K.state w p
  stop _ := False
  inner := K.inner
  part := K.part
  variable_eq _ h := by rw [h.1]
  defined value he h := ⟨by rw [h.1], K.defined value he h.2⟩
  declared he h := ⟨by rw [h.1], K.declared he h.2⟩
  function_eq _ h := by rw [h.1]
  body he h := K.body he h.2
  tooDeep h _ := .inr (by rw [h.1]; exact ⟨rfl, rfl⟩)
  entered h hlt := ⟨by rwa [← h.1], by rw [h.1], K.entered h.2 hlt⟩
  left h h' := ⟨by rw [h.1, h'.1], K.left h.2 h'.2⟩

theorem eval_ensures (n : Nat) {e : Expr} (he : K.code w e) :
    Ensures (K.state w) (fun _ => True) True (fun _ => True) (eval n e) := by
  intro p hp
  have h := K.coupling.eval_lockstep n he p p ⟨rfl, hp⟩
  generalize eval n e p = first at h ⊢
  cases h with
  | value _ hstate => exact ⟨trivial, hstate.2⟩
  | failure _ hstate => exact ⟨trivial, hstate.2⟩
  | outOfFuel => trivial
  | stopped hstop => exact hstop.elim

end Invariant

end Reckoner
