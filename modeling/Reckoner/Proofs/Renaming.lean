import Mathlib.Logic.Equiv.Basic
import Reckoner.Proofs.Meaning

/-! Names have no meaning of their own. Variables and functions are renamed apart from each other, in
an expression and in its context; if different names stay different, the evaluation takes the same
course, and all that it leaves behind is renamed in the same way. -/

namespace Reckoner

variable {α β : Type}

/-- The table with its names and its values changed, in the same order. -/
def Table.mapEntries (g : String → String) (h : α → β) (table : Table α) : Table β :=
  ⟨table.entries.map fun (name, value) => (g name, h value)⟩

namespace Expr

mutual

/-- The expression with its variables, parameters included, renamed by `s` and its functions by `t`.
Operators keep their symbols. -/
def rename (s t : String → String) : Expr → Expr
  | .literal value => .literal value
  | .unary op x => .unary op (rename s t x)
  | .binary op l r => .binary op (rename s t l) (rename s t r)
  | .assign name x => .assign (s name) (rename s t x)
  | .var name => .var (s name)
  | .compare op l r => .compare op (rename s t l) (rename s t r)
  | .branch op l r onTrue onFalse =>
      .branch op (rename s t l) (rename s t r) (rename s t onTrue) (rename s t onFalse)
  | .block body => .block (renameAll s t body)
  | .loop op l r body => .loop op (rename s t l) (rename s t r) (rename s t body)
  | .declare name params body => .declare (t name) (params.map s) (rename s t body)
  | .call name args => .call (t name) (renameAll s t args)

def renameAll (s t : String → String) : List Expr → List Expr
  | [] => []
  | x :: rest => rename s t x :: renameAll s t rest

end

theorem renameAll_eq_map (s t : String → String) (es : List Expr) :
    renameAll s t es = es.map (rename s t) := by
  induction es with
  | nil => rfl
  | cons e es ih => rw [renameAll, ih, List.map_cons]

theorem forall₂_renameAll (s t : String → String) (es : List Expr) :
    List.Forall₂ (fun e e' => e' = e.rename s t) es (renameAll s t es) := by
  rw [renameAll_eq_map, List.forall₂_map_right_iff]
  exact List.forall₂_same.mpr fun _ _ => rfl

@[simp] theorem length_renameAll (s t : String → String) (es : List Expr) :
    (renameAll s t es).length = es.length := by
  rw [renameAll_eq_map, List.length_map]

end Expr

def Function.rename (s t : String → String) (f : Function) : Function :=
  ⟨t f.name, f.params.map s, f.body.rename s t⟩

def Context.rename (s t : String → String) (c : Context) : Context where
  vars := c.vars.mapEntries s id
  functions := c.functions.mapEntries t (Function.rename s t)
  depth := c.depth
  limit := c.limit

def EvalError.rename (s t : String → String) : EvalError → EvalError
  | .unboundVariable name => .unboundVariable (s name)
  | .undefinedFunction name => .undefinedFunction (t name)
  | .arityMismatch name expected actual => .arityMismatch (t name) expected actual
  | error => error

def Event.rename (t : String → String) : Event → Event
  | .declared name arity => .declared (t name) arity
  | .redeclared name arity => .redeclared (t name) arity
  | .called name depth => .called (t name) depth

def Progress.rename (s t : String → String) (p : Progress) : Progress :=
  ⟨p.context.rename s t, p.events.map (Event.rename t)⟩

def Evaluation.rename (s t : String → String) (run : Evaluation) : Evaluation where
  outcome := run.outcome.mapError (EvalError.rename s t)
  context := run.context.rename s t
  events := run.events.map (Event.rename t)

/-! Tables -/

namespace Table

variable {g : String → String} (hg : Function.Injective g) (h : α → β)

include hg

theorem get?_mapEntries (table : Table α) (name : String) :
    (table.mapEntries g h).get? (g name) = (table.get? name).map h := by
  obtain ⟨entries⟩ := table
  unfold get? mapEntries
  induction entries with
  | nil => rfl
  | cons entry rest ih =>
    obtain ⟨key, value⟩ := entry
    simp only [List.map_cons, lookup, hg.eq_iff, ih]
    split <;> rfl

theorem contains_mapEntries (table : Table α) (name : String) :
    (table.mapEntries g h).contains (g name) = table.contains name := by
  unfold contains
  rw [get?_mapEntries hg, Option.isSome_map]

theorem mapEntries_insert (table : Table α) (name : String) (value : α) :
    (table.insert name value).mapEntries g h = (table.mapEntries g h).insert (g name) (h value) := by
  obtain ⟨entries⟩ := table
  unfold insert mapEntries
  congr 1
  induction entries with
  | nil => rfl
  | cons entry rest ih =>
    obtain ⟨key, old⟩ := entry
    simp only [List.map_cons, put, hg.eq_iff]
    split
    next => rfl
    next => rw [List.map_cons, ih]

theorem mapEntries_ofList (pairs : List (String × α)) :
    (ofList pairs).mapEntries g h = ofList (pairs.map fun (name, value) => (g name, h value)) := by
  have hfold (table : Table α) :
      (pairs.foldl (fun table pair => table.insert pair.1 pair.2) table).mapEntries g h =
        (pairs.map fun (name, value) => (g name, h value)).foldl
          (fun table pair => table.insert pair.1 pair.2) (table.mapEntries g h) := by
    induction pairs generalizing table with
    | nil => rfl
    | cons pair rest ih => rw [List.foldl_cons, ih, mapEntries_insert hg, List.map_cons, List.foldl_cons]
  exact hfold ∅

end Table

/-! Each action of evaluation on renamed progress -/

section Actions

variable {s t : String → String} (p : Progress)

theorem rename_defined (hs : Function.Injective s) (name : String) (value : Float) :
    (p.defined name value).rename s t = (p.rename s t).defined (s name) value := by
  unfold Progress.rename Progress.defined Context.rename Context.define
  simp only [Table.mapEntries_insert hs, id]

theorem rename_declared (ht : Function.Injective t) (f : Function) :
    (p.declared f).rename s t = (p.rename s t).declared (f.rename s t) := by
  have hcontains := Table.contains_mapEntries ht (Function.rename s t) p.context.functions f.name
  have hname : (f.rename s t).name = t f.name := rfl
  have harity : (f.rename s t).arity = f.arity := by simp [Function.rename, Function.arity]
  unfold Progress.rename Progress.declared Context.rename Context.declare
  simp only [Table.mapEntries_insert ht, List.map_cons, hname, harity, hcontains]
  split <;> rfl

theorem rename_entered (hs : Function.Injective s) (name : String) (pairs : List (String × Float)) :
    (p.entered name (.ofList pairs)).rename s t =
      (p.rename s t).entered (t name) (.ofList (pairs.map fun (name, value) => (s name, value))) := by
  unfold Progress.rename Progress.entered Context.rename
  simp only [Table.mapEntries_ofList hs, id, List.map_cons, Event.rename]

theorem rename_left (after : Progress) :
    (p.left after).rename s t = (p.rename s t).left (after.rename s t) := rfl

end Actions

section Runs

variable {s t : String → String}

/-- Progress and errors that differ in their names only. -/
abbrev RenamedRuns (s t : String → String) {α β : Type} (V : α → β → Prop) : EvalM α → EvalM β → Prop :=
  Lockstep (fun p q => q = p.rename s t) (fun error error' => error' = error.rename s t)
    (fun _ => False) V

theorem findFunction_rename (ht : Function.Injective t) (name : String) (count : Nat) :
    RenamedRuns s t (fun f g => g = f.rename s t) (findFunction name count)
      (findFunction (t name) count) := by
  apply Lockstep.findFunction
  · rintro p _ rfl
    have hget := Table.get?_mapEntries ht (Function.rename s t) p.context.functions name
    change Option.Rel _ _ ((p.context.functions.mapEntries t (Function.rename s t)).get? (t name))
    rw [hget]
    cases p.context.functions.get? name with
    | none => exact .none
    | some f => exact .some rfl
  · rintro f _ rfl
    simp [Function.rename, Function.arity]
  · rfl
  · exact fun _ => rfl

theorem inCall_rename (hs : Function.Injective s) (name : String) (pairs : List (String × Float))
    {x y : EvalM Float} (h : RenamedRuns s t Eq x y) :
    RenamedRuns s t Eq (EvalM.inCall name (.ofList pairs) x)
      (EvalM.inCall (t name) (.ofList (pairs.map fun (name, value) => (s name, value))) y) := by
  apply Lockstep.inCall (S := fun p q => q = p.rename s t)
  · rintro p _ rfl hge
    have hge' : (p.rename s t).context.limit ≤ (p.rename s t).context.depth := hge
    rw [EvalM.inCall_of_le _ _ _ hge']
    exact .failure rfl rfl
  · rintro p _ rfl hlt
    exact ⟨hlt, (rename_entered p hs name pairs).symm⟩
  · exact h
  · rintro p _ p' _ rfl rfl
    exact (rename_left p p').symm

/-- Evaluation takes the same course under other names. -/
theorem eval_rename (hs : Function.Injective s) (ht : Function.Injective t) (n : Nat) (e : Expr) :
    RenamedRuns s t Eq (eval n e) (eval n (e.rename s t)) := by
  induction n generalizing e with
  | zero => exact fun _ _ _ => .outOfFuel
  | succ n ih =>
    have test (op : String) (l r : Expr) :
        RenamedRuns s t Eq (compareBy op (eval n l) (eval n r))
          (compareBy op (eval n (l.rename s t)) (eval n (r.rename s t))) := by
      refine Lockstep.compareBy ?_ (ih l) (ih r) ?_
      · rfl
      · rintro _ _ _ _ _ rfl rfl
        rfl
    have part (e e' : Expr) (h : e' = e.rename s t) : RenamedRuns s t Eq (eval n e) (eval n e') :=
      h ▸ ih e
    cases e with
    | literal value => exact .pure rfl
    | unary op x =>
      exact .bind_eq (.require_eq _ rfl) fun _ => .bind_eq (ih x) fun _ => .pure rfl
    | binary op l r =>
      refine .bind_eq (.require_eq _ rfl) fun op => .bind_eq (ih l) fun x => .bind_eq (ih r) fun y => ?_
      cases op.apply x y with
      | ok z => exact .pure rfl
      | error error =>
        apply Lockstep.fail
        cases error <;> rfl
    | assign name x =>
      refine .bind_eq (ih x) fun value => .bind_eq (.modify ?_) fun _ => .pure rfl
      rintro p _ rfl
      exact (rename_defined p hs name value).symm
    | var name =>
      apply Lockstep.read_eq
      · rintro p _ rfl
        have hget := Table.get?_mapEntries hs (id : Float → Float) p.context.vars name
        rw [Option.map_id] at hget
        exact hget.symm
      · rfl
    | compare op l r =>
      refine .bind_eq (test op l r) fun holds => ?_
      cases holds <;> exact .pure rfl
    | branch op l r onTrue onFalse =>
      refine .bind_eq (test op l r) fun holds => ?_
      cases holds
      · exact ih onFalse
      · exact ih onTrue
    | block body =>
      cases body with
      | nil => exact .fail rfl
      | cons x rest =>
        exact .sequence (Expr.forall₂_renameAll s t (x :: rest)) rfl fun e e' _ => part e e'
    | loop op l r body => exact .repeatWhile (test op l r) (ih body) n rfl
    | declare name params body =>
      refine .bind_eq (.declareFunction ?_) fun _ => .pure rfl
      rintro p _ rfl
      exact (rename_declared p ht ⟨name, params, body⟩).symm
    | call name args =>
      apply Lockstep.bind (V := fun f g => g = f.rename s t)
      · rw [Expr.length_renameAll]
        exact findFunction_rename ht name args.length
      · rintro f _ rfl
        have hargs : RenamedRuns s t (List.Forall₂ Eq) (EvalM.collect (eval n) args)
            (EvalM.collect (eval n) (Expr.renameAll s t args)) :=
          .collect (Expr.forall₂_renameAll s t args) fun e e' _ => part e e'
        rw [List.forall₂_eq_eq_eq] at hargs
        apply Lockstep.bind_eq hargs
        intro values
        have hlocals : (f.rename s t).params.zip values =
            (f.params.zip values).map fun (name, value) => (s name, value) := by
          rw [Function.rename, List.zip_map_left]
          rfl
        rw [hlocals]
        exact inCall_rename hs name (f.params.zip values) (ih f.body)

theorem evaluate_rename (hs : Function.Injective s) (ht : Function.Injective t) (n : Nat) (e : Expr)
    (c : Context) :
    evaluate n (e.rename s t) (c.rename s t) = (evaluate n e c).map (Evaluation.rename s t) := by
  have h := eval_rename hs ht n e ⟨c, []⟩ ⟨c.rename s t, []⟩ rfl
  unfold evaluate
  generalize eval n e ⟨c, []⟩ = first at h
  generalize eval n (e.rename s t) ⟨c.rename s t, []⟩ = second at h
  cases h with
  | value hx hp =>
    subst hx hp
    simp [Evaluation.rename, Progress.rename, Except.mapError]
  | failure herror hp =>
    subst herror hp
    simp [Evaluation.rename, Progress.rename, Except.mapError]
  | outOfFuel => rfl
  | stopped hstop => exact hstop.elim

end Runs

/-- Renaming the variables and the functions of an expression and of its context, each injectively and
each apart from the other, renames its evaluation: one ends if the other one does, with the same value
or with the same error under the new name, and what is left behind has the new names in the old order. -/
theorem evaluation_equivariant (s t : String → String) (hs : Function.Injective s)
    (ht : Function.Injective t) (e : Expr) (c : Context) (run' : Evaluation) :
    Ends (e.rename s t) (c.rename s t) run' ↔ ∃ run, Ends e c run ∧ run' = run.rename s t := by
  unfold Ends
  simp only [evaluate_rename hs ht, Option.map_eq_some_iff]
  constructor
  · rintro ⟨fuel, run, hrun, rfl⟩
    exact ⟨run, ⟨fuel, hrun⟩, rfl⟩
  · rintro ⟨run, ⟨fuel, hrun⟩, rfl⟩
    exact ⟨fuel, run, hrun, rfl⟩

/-- A function, its parameter and a variable have one name, and get three. -/
theorem evaluation_equivariant_shared_name :
    let s := Equiv.swap "f" "x"
    let t := Equiv.swap "f" "h"
    let e := Expr.assign "f" (.call "f" [.literal 1])
    let c : Context := ⟨∅, .ofList [("f", ⟨"f", ["f"], .var "f"⟩)], 0, 10⟩
    let c' : Context := ⟨∅, .ofList [("h", ⟨"h", ["x"], .var "x"⟩)], 0, 10⟩
    Function.Injective s ∧ Function.Injective t ∧ c.rename s t = c' ∧
      e.rename s t = .assign "x" (.call "h" [.literal 1]) ∧
      Ends e c ⟨.ok 1, c.define "f" 1, [.called "f" 1]⟩ ∧
      Ends (.assign "x" (.call "h" [.literal 1])) c' ⟨.ok 1, c'.define "x" 1, [.called "h" 1]⟩ := by
  intro s t e c c'
  have hs : s "f" = "x" := by decide
  have ht : t "f" = "h" := by decide
  have he : e.rename s t = .assign "x" (.call "h" [.literal 1]) := by
    simp [e, Expr.rename, Expr.renameAll, hs, ht]
  have hc : c.rename s t = c' := by
    change (⟨∅, ⟨[(t "f", ⟨t "f", [s "f"], .var (s "f")⟩)]⟩, 0, 10⟩ : Context) = c'
    rw [hs, ht]
    rfl
  have hrun : Ends e c ⟨.ok 1, c.define "f" 1, [.called "f" 1]⟩ := ⟨4, rfl⟩
  have hend : Evaluation.rename s t ⟨.ok 1, c.define "f" 1, [.called "f" 1]⟩ =
      ⟨.ok 1, c'.define "x" 1, [.called "h" 1]⟩ := by
    change (⟨.ok 1, (c.rename s t).define (s "f") 1, [.called (t "f") 1]⟩ : Evaluation) = _
    rw [hs, ht, hc]
  have hrenamed := (evaluation_equivariant s t s.injective t.injective e c _).mpr ⟨_, hrun, rfl⟩
  rw [he, hc, hend] at hrenamed
  exact ⟨s.injective, t.injective, hc, he, hrun, hrenamed⟩

end Reckoner
