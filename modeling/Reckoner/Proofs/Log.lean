import Mathlib.Data.List.Chain
import Reckoner.CommandLine
import Reckoner.Proofs.Provenance

/-! What the log tells. The calls of an evaluation are logged as a walk through the tree of its calls
meets them, one level deeper at most from each to the next, and a declaration is logged as new unless
its name was there before. Flags of the command line choose which of these lines are shown, and
nothing else. -/

namespace Reckoner

/-! Calls -/

/-- Depths in the order in which calls are entered, from calls at the depth `start` on: each call is
made by the one entered before it or by one around that. -/
structure CallWalk (start limit : Nat) (depths : List Nat) : Prop where
  first : ∀ x ∈ depths.head?, x = start + 1
  step : depths.IsChain fun x y => y ≤ x + 1
  range : ∀ x ∈ depths, start + 1 ≤ x ∧ x ≤ limit

namespace CallWalk

variable {start limit : Nat} {depths : List Nat}

theorem nil : CallWalk start limit [] := ⟨by simp, .nil, by simp⟩

theorem snoc (h : CallWalk start limit depths) {depth : Nat} (hstart : start ≤ depth)
    (hlast : depth ≤ depths.getLast?.getD start) (hlimit : depth < limit) :
    CallWalk start limit (depths ++ [depth + 1]) := by
  refine ⟨?_, ?_, ?_⟩
  · intro x hx
    cases depths with
    | nil =>
      simp only [List.nil_append, List.head?_cons, Option.mem_some_iff] at hx
      simp only [List.getLast?_nil, Option.getD_none] at hlast
      omega
    | cons y rest => exact h.first x hx
  · apply h.step.append (.singleton _)
    intro x hx y hy
    simp only [List.head?_cons, Option.mem_some_iff] at hy
    rw [Option.mem_def.mp hx, Option.getD_some] at hlast
    omega
  · intro x hx
    rcases List.mem_append.mp hx with hold | hnew
    · exact h.range x hold
    · cases List.mem_singleton.mp hnew
      omega

end CallWalk

def Event.depth? : Event → Option Nat
  | .called _ depth => some depth
  | .declared _ _ | .redeclared _ _ => none

def Moment.depth? : Moment → Option Nat
  | .enters caller => some (caller.depth + 1)
  | .begins _ _ _ | .stores _ | .leaves _ => none

def callDepths (log : List Event) : List Nat := log.filterMap Event.depth?

/-- The depths of the calls that were entered, whether or not the evaluation ends. -/
def enteredDepths (past : List Moment) : List Nat := past.filterMap Moment.depth?

theorem enteredDepths_other (past : List Moment) {moment : Moment} (h : moment.depth? = none) :
    enteredDepths (past ++ [moment]) = enteredDepths past := by
  simp [enteredDepths, h]

/-! Declarations -/

def Event.declaration? : Event → Option (String × Nat)
  | .declared name arity | .redeclared name arity => some (name, arity)
  | .called _ _ => none

def declarations (log : List Event) : List (String × Nat) := log.filterMap Event.declaration?

def Function.signature (f : Function) : String × Nat := (f.name, f.arity)

/-- The name is registered at the start, or the log has a declaration of it. -/
def Known (c : Context) (log : List Event) (name : String) : Prop :=
  c.functions.contains name = true ∨ ∃ arity, (name, arity) ∈ declarations log

/-- What a declaration that is logged after `before` says is true. -/
def Event.Tells (c : Context) (before : List Event) : Event → Prop
  | .declared name _ => ¬ Known c before name
  | .redeclared name _ => Known c before name
  | .called _ _ => True

/-- The name is registered at the start, or a function of this name was stored since. -/
def Registered (c : Context) (past : List Moment) (name : String) : Prop :=
  c.functions.contains name = true ∨ ∃ f ∈ storedFunctions past, f.name = name

/-- Where a declaration begins, its name is bound just if it is registered. -/
def Chooses (c : Context) (past : List Moment) : Moment → Prop
  | .begins _ (.declare name _ _) here =>
      here.functions.contains name = true ↔ Registered c past name
  | _ => True

theorem contains_foldl_declare (fs : List Function) (c : Context) (name : String) :
    (fs.foldl Context.declare c).functions.contains name = true ↔
      c.functions.contains name = true ∨ ∃ f ∈ fs, f.name = name := by
  induction fs generalizing c with
  | nil => simp
  | cons f fs ih =>
    rw [List.foldl_cons, ih]
    simp only [Context.declare, Table.contains_insert, List.mem_cons, exists_eq_or_imp]
    tauto

theorem Supplied.contains_iff {e : Expr} {c : Context} {p : Progress} {past : List Moment}
    (h : Supplied e c p past) (name : String) :
    p.context.functions.contains name = true ↔ Registered c past name := by
  rw [h.functions_eq]
  exact contains_foldl_declare _ c name

/-! One evaluation -/

/-- The log so far, at progress inside the calls `calls`. -/
structure Logged (e : Expr) (c : Context) (calls : List String) (p : Progress)
    (past : List Moment) : Prop where
  atDepth : AtDepth c.depth c.limit calls p past
  supplied : Supplied e c p past
  walk : CallWalk c.depth c.limit (enteredDepths past)
  depth_le : p.context.depth ≤ (enteredDepths past).getLast?.getD c.depth
  callDepths_eq : callDepths p.events.reverse = enteredDepths past
  declarations_eq : declarations p.events.reverse = (storedFunctions past).map Function.signature
  tells : AtEach (fun before event => event.Tells c before) p.events.reverse
  chooses : AtEach (Chooses c) past

namespace Logged

variable {e : Expr} {c : Context} {calls : List String} {p : Progress} {past : List Moment}

theorem start (hdepth : c.depth ≤ c.limit) : Logged e c [] ⟨c, []⟩ [] where
  atDepth := atDepth_start hdepth
  supplied := supplied_start e c
  walk := .nil
  depth_le := Nat.le_refl _
  callDepths_eq := rfl
  declarations_eq := rfl
  tells := .nil
  chooses := .nil

theorem define (h : Logged e c calls p past) (name : String) (x : Float) :
    Logged e c calls (p.defined name x) past :=
  { h with
    atDepth := { h.atDepth with }
    supplied := { h.supplied with } }

theorem known_iff (h : Logged e c calls p past) (name : String) :
    Known c p.events.reverse name ↔ p.context.functions.contains name = true := by
  rw [h.supplied.contains_iff, Known, Registered, h.declarations_eq]
  simp [Function.signature, Prod.ext_iff]

/-- A declaration is logged once, with the name and the arity of what is stored. -/
theorem exists_event (h : Logged e c calls p past) (f : Function) :
    ∃ event : Event, (p.declared f).events.reverse = p.events.reverse ++ [event] ∧
      event.depth? = none ∧ event.declaration? = some f.signature ∧
      event.Tells c p.events.reverse := by
  have hknown := h.known_iff f.name
  by_cases hbound : p.context.functions.contains f.name = true
  · refine ⟨.redeclared f.name f.arity, ?_, rfl, rfl, hknown.mpr hbound⟩
    simp only [Progress.declared, if_pos hbound, List.reverse_cons]
  · refine ⟨.declared f.name f.arity, ?_, rfl, rfl, fun hk => hbound (hknown.mp hk)⟩
    simp only [Progress.declared, if_neg hbound, List.reverse_cons]

theorem store (h : Logged e c calls p past) {f : Function}
    (hf : Occurs e c (.declare f.name f.params f.body)) :
    Logged e c calls (p.declared f) (past ++ [.stores f]) := by
  obtain ⟨event, hlog, hdepth, hdeclaration, htells⟩ := h.exists_event f
  have hentered : enteredDepths (past ++ [.stores f]) = enteredDepths past :=
    enteredDepths_other past rfl
  refine ⟨(depthContract c.depth c.limit).stored trivial h.atDepth, h.supplied.store hf, ?_, ?_, ?_,
    ?_, ?_, h.chooses.snoc trivial⟩
  · rw [hentered]
    exact h.walk
  · rw [hentered]
    exact h.depth_le
  · rw [hentered, hlog, ← h.callDepths_eq]
    simp [callDepths, hdepth]
  · rw [hlog, storedFunctions_stores, List.map_append, ← h.declarations_eq]
    simp [declarations, hdeclaration]
  · rw [hlog]
    exact h.tells.snoc htells

theorem enter (h : Logged e c calls p past) (hlt : p.context.depth < p.context.limit)
    (name : String) (locals : Table Float) :
    Logged e c (name :: calls) (p.entered name locals) (past ++ [.enters p.context]) := by
  have hentered : enteredDepths (past ++ [.enters p.context]) =
      enteredDepths past ++ [p.context.depth + 1] := by
    simp [enteredDepths, Moment.depth?]
  have hlog : (p.entered name locals).events.reverse =
      p.events.reverse ++ [.called name (p.context.depth + 1)] := List.reverse_cons
  refine ⟨h.atDepth.enter hlt name locals, h.supplied.note (by rfl) rfl, ?_, ?_, ?_, ?_, ?_,
    h.chooses.snoc trivial⟩
  · have hdepth := h.atDepth.depth_eq
    have hlimit := h.atDepth.limit_eq
    rw [hentered]
    exact h.walk.snoc (by omega) h.depth_le (by omega)
  · rw [hentered]
    simp [Progress.entered]
  · rw [hentered, hlog, ← h.callDepths_eq]
    simp [callDepths, Event.depth?]
  · rw [hlog, storedFunctions_other past rfl, ← h.declarations_eq]
    simp [declarations, Event.declaration?]
  · rw [hlog]
    exact h.tells.snoc trivial

theorem leave {name : String} (h : Logged e c (name :: calls) p past) (caller : Progress) :
    Logged e c calls (caller.left p) (past ++ [.leaves p.context]) := by
  have hentered : enteredDepths (past ++ [.leaves p.context]) = enteredDepths past :=
    enteredDepths_other past rfl
  refine ⟨h.atDepth.leave caller, h.supplied.note (by rfl) rfl, ?_, ?_, ?_, ?_, h.tells,
    h.chooses.snoc trivial⟩
  · rw [hentered]
    exact h.walk
  · rw [hentered]
    exact (Nat.sub_le _ _).trans h.depth_le
  · rw [hentered]
    exact h.callDepths_eq
  · rw [storedFunctions_other past rfl]
    exact h.declarations_eq

end Logged

theorem Ends.declare (name : String) (params : List String) (body : Expr) (c : Context) :
    Ends (.declare name params body) c ⟨.ok 0, c.declare ⟨name, params, body⟩,
      [if c.functions.contains name then .redeclared name params.length
        else .declared name params.length]⟩ :=
  ⟨1, rfl⟩

/-! Commands -/

namespace CommandLine

def Options.more (options : Options) (count : Nat) : Options :=
  { options with verbosity := options.verbosity + count }

end CommandLine

end Reckoner
