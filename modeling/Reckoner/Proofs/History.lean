import Mathlib.Data.List.DropRight
import Mathlib.Data.List.Nodup
import Reckoner.Proofs.SessionInvariants
import Reckoner.Proofs.Table

/-! Tables as ordered maps. What a table holds is told by the bindings that were made since it was last
cleared: the first binding of a name gives it its place, and the last one gives it its value. No other
table is in keeping with the same bindings, so this law is all there is to say about a table. -/

namespace Reckoner

namespace Table

variable {α : Type} {bindings : List (String × α)} {table : Table α}

/-- The last of the bindings that has this name has this value. -/
def BoundLast (bindings : List (String × α)) (name : String) (value : α) : Prop :=
  ∃ before after, bindings = before ++ (name, value) :: after ∧ ∀ other ∈ after, other.1 ≠ name

/-- The name `first` was bound for the first time before the name `second` was. -/
def BoundBefore (bindings : List (String × α)) (first second : String) : Prop :=
  (bindings.map Prod.fst).idxOf first < (bindings.map Prod.fst).idxOf second

/-- The table is what the bindings amount to. It lists each of their names once, in the order in which
the names were first bound, with the value of the last binding; what is found under a name is what is
listed. -/
structure Records (bindings : List (String × α)) (table : Table α) : Prop where
  nodup : table.names.Nodup
  ordered : table.names.Pairwise (BoundBefore bindings)
  mem_names : ∀ name, name ∈ table.names ↔ name ∈ bindings.map Prod.fst
  mem_entries : ∀ name value, (name, value) ∈ table.entries ↔ BoundLast bindings name value
  get?_iff : ∀ name value, table.get? name = some value ↔ (name, value) ∈ table.entries
  contains_iff : ∀ name, table.contains name = true ↔ name ∈ table.names

theorem not_boundLast_nil (name : String) (value : α) : ¬ BoundLast [] name value := by
  rintro ⟨before, after, hsplit, -⟩
  simp at hsplit

theorem boundLast_concat (name other : String) (value found : α) :
    BoundLast (bindings ++ [(name, value)]) other found ↔
      if name = other then value = found else BoundLast bindings other found := by
  constructor
  · rintro ⟨before, after, hsplit, hafter⟩
    -- the binding in question is the new one, or the new one stands after it under another name
    rcases List.eq_nil_or_concat after with rfl | ⟨after, last, rfl⟩
    · obtain ⟨-, hlast⟩ := List.append_inj' hsplit rfl
      cases hlast
      simp
    · have hconcat : bindings ++ [(name, value)] = (before ++ (other, found) :: after) ++ [last] := by
        simpa using hsplit
      obtain ⟨hbindings, hlast⟩ := List.append_inj' hconcat rfl
      cases hlast
      have hne : name ≠ other := hafter (name, value) (by simp)
      rw [if_neg hne]
      exact ⟨before, after, hbindings, fun pair hpair => hafter pair (by simp [hpair])⟩
  · intro h
    split at h
    next hname =>
      subst hname h
      exact ⟨bindings, [], rfl, by simp⟩
    next hname =>
      obtain ⟨before, after, rfl, hafter⟩ := h
      refine ⟨before, after ++ [(name, value)], by simp, fun pair hpair => ?_⟩
      rcases List.mem_append.mp hpair with hold | hnew
      · exact hafter pair hold
      · rw [List.mem_singleton.mp hnew]
        exact hname

theorem Records.of_nodup (hnodup : table.names.Nodup)
    (hordered : table.names.Pairwise (BoundBefore bindings))
    (hnames : ∀ name, name ∈ table.names ↔ name ∈ bindings.map Prod.fst)
    (hlast : ∀ name value, table.get? name = some value ↔ BoundLast bindings name value) :
    table.Records bindings where
  nodup := hnodup
  ordered := hordered
  mem_names := hnames
  mem_entries name value := by rw [← get?_eq_some_iff hnodup, hlast]
  get?_iff _ _ := get?_eq_some_iff hnodup
  contains_iff := table.contains_iff

theorem records_empty : (∅ : Table α).Records [] :=
  .of_nodup List.nodup_nil .nil (by simp) fun name value =>
    iff_of_false (by simp) (not_boundLast_nil name value)

theorem Records.get?_boundLast (h : table.Records bindings) (name : String) (value : α) :
    table.get? name = some value ↔ BoundLast bindings name value :=
  (h.get?_iff name value).trans (h.mem_entries name value)

theorem Records.ordered_insert (h : table.Records bindings) (name : String) (value : α) :
    (table.insert name value).names.Pairwise (BoundBefore (bindings ++ [(name, value)])) := by
  have hindex {other : String} (hother : other ∈ table.names) :
      ((bindings ++ [(name, value)]).map Prod.fst).idxOf other =
        (bindings.map Prod.fst).idxOf other := by
    rw [List.map_append, List.idxOf_append_of_mem ((h.mem_names other).mp hother)]
  have hold : table.names.Pairwise (BoundBefore (bindings ++ [(name, value)])) := by
    refine h.ordered.imp_of_mem fun hfirst hsecond hlt => ?_
    rwa [BoundBefore, hindex hfirst, hindex hsecond]
  rw [names_insert]
  split
  · exact hold
  next hnew =>
    -- the new name is first bound at the end, after all that the table lists
    rw [h.contains_iff, h.mem_names] at hnew
    refine List.pairwise_append.mpr ⟨hold, List.pairwise_singleton _ _, ?_⟩
    intro first hfirst last hlast
    rw [List.mem_singleton.mp hlast, BoundBefore, hindex hfirst, List.map_append,
      List.idxOf_append_of_notMem hnew]
    exact Nat.lt_add_right _ (List.idxOf_lt_length_of_mem ((h.mem_names first).mp hfirst))

theorem Records.insert (h : table.Records bindings) (name : String) (value : α) :
    (table.insert name value).Records (bindings ++ [(name, value)]) := by
  refine .of_nodup (nodup_names_insert h.nodup name value) (h.ordered_insert name value) ?_ ?_
  · intro other
    rw [← Table.contains_iff, contains_insert, h.contains_iff, h.mem_names]
    simp [or_comm, eq_comm]
  · intro other found
    rw [get?_insert, boundLast_concat]
    split
    · simp
    · exact h.get?_boundLast other found

theorem Records.foldl_insert (h : table.Records bindings) (more : List (String × α)) :
    (more.foldl (fun table pair => table.insert pair.1 pair.2) table).Records (bindings ++ more) := by
  induction more generalizing bindings table with
  | nil => simpa using h
  | cons pair more ih => simpa using ih (h.insert pair.1 pair.2)

theorem records_ofList (bindings : List (String × α)) : (ofList bindings).Records bindings :=
  records_empty.foldl_insert bindings

theorem Records.unique {table' : Table α} (h : table.Records bindings) (h' : table'.Records bindings) :
    table = table' := by
  have hentries : table.entries.Perm table'.entries := by
    rw [List.perm_ext_iff_of_nodup (List.Nodup.of_map Prod.fst h.nodup)
      (List.Nodup.of_map Prod.fst h'.nodup)]
    rintro ⟨name, value⟩
    rw [h.mem_entries, h'.mem_entries]
  have hordered := List.pairwise_map.mp h.ordered
  have hordered' := List.pairwise_map.mp h'.ordered
  have heq : table.entries = table'.entries :=
    hentries.eq_of_pairwise (fun _ _ _ _ hlt hgt => absurd hgt (Nat.lt_asymm hlt)) hordered hordered'
  exact congrArg Table.mk heq

theorem records_iff : table.Records bindings ↔ table = ofList bindings :=
  ⟨fun h => h.unique (records_ofList bindings), fun h => h ▸ records_ofList bindings⟩

theorem Records.agrees_iff {left right : Table α} {bindings' : List (String × α)}
    (h : left.Records bindings) (h' : right.Records bindings') (same : α → α → Bool) :
    left.agrees same right = true ↔
      (∀ name, name ∈ left.names ↔ name ∈ right.names) ∧
        ∀ name x y, left.get? name = some x → right.get? name = some y → same x y = true := by
  rw [Table.agrees_iff h.nodup]
  constructor
  · intro htables
    refine ⟨fun name => htables.names_perm.mem_iff, fun name x y hx hy => ?_⟩
    have hrel := htables.get?_rel name
    rw [hx, hy] at hrel
    cases hrel with
    | some hsame => exact hsame
  · rintro ⟨hnames, hvalues⟩
    refine ⟨h.nodup, h'.nodup, fun name => ?_⟩
    have hcontains : (left.get? name).isSome ↔ (right.get? name).isSome :=
      (h.contains_iff name).trans ((hnames name).trans (h'.contains_iff name).symm)
    cases hx : left.get? name <;> cases hy : right.get? name <;> simp only [hx, hy] at hcontains
    · exact .none
    · simp at hcontains
    · simp at hcontains
    · exact .some (hvalues name _ _ hx hy)

end Table

/-! Steps that bind, clear and look up -/

/-- The step evaluates nothing and contains no other steps. -/
def Step.isDirect : Step → Bool
  | .eval _ | .evalFresh _ | .frame _ _ | .fork _ => false
  | .refused _ | .define _ _ | .lookUp _ | .hasFunction _ | .lookUpFunction _ | .declare _ | .count
  | .reset | .clearVariables | .clearFunctions | .sameVariables _ => true

def Step.clearsVariables : Step → Bool
  | .clearVariables | .reset => true
  | _ => false

def Step.clearsFunctions : Step → Bool
  | .clearFunctions | .reset => true
  | _ => false

def Step.definition? : Step → Option (String × Float)
  | .define name value => some (name, value)
  | _ => none

def Step.declaration? : Step → Option (String × Function)
  | .declare f => some (f.name, f)
  | _ => none

/-- What has been bound since the last clearing, oldest first. -/
def Session.boundSince {α : Type} (clears : Step → Bool) (binding? : Step → Option (String × α))
    (steps : List Step) : List (String × α) :=
  (steps.rtakeWhile fun s => !clears s).filterMap binding?

def Session.definitions : List Step → List (String × Float) :=
  boundSince Step.clearsVariables Step.definition?

def Session.declarations : List Step → List (String × Function) :=
  boundSince Step.clearsFunctions Step.declaration?

namespace Table.Records

open Session (boundSince)

variable {α : Type} {clears : Step → Bool} {binding? : Step → Option (String × α)} {steps : List Step}
  {s : Step} {table : Table α}

theorem after_clearing (hclears : clears s = true) :
    (∅ : Table α).Records (boundSince clears binding? (steps ++ [s])) := by
  have hnone : boundSince clears binding? (steps ++ [s]) = [] := by simp [boundSince, hclears]
  rw [hnone]
  exact records_empty

theorem after_binding (h : table.Records (boundSince clears binding? steps)) {name : String} {value : α}
    (hclears : clears s = false) (hbinding : binding? s = some (name, value)) :
    (table.insert name value).Records (boundSince clears binding? (steps ++ [s])) := by
  have hmore : boundSince clears binding? (steps ++ [s]) =
      boundSince clears binding? steps ++ [(name, value)] := by
    simp [boundSince, hclears, hbinding]
  rw [hmore]
  exact h.insert name value

theorem after_other (h : table.Records (boundSince clears binding? steps)) (hclears : clears s = false)
    (hbinding : binding? s = none) : table.Records (boundSince clears binding? (steps ++ [s])) := by
  have hsame : boundSince clears binding? (steps ++ [s]) = boundSince clears binding? steps := by
    simp [boundSince, hclears, hbinding]
  rw [hsame]
  exact h

end Table.Records

/-- The tables of the context are what the steps have bound. -/
structure Context.Follows (steps : List Step) (c : Context) : Prop where
  vars : c.vars.Records (Session.definitions steps)
  functions : c.functions.Records (Session.declarations steps)

namespace Session

variable {fuel : Nat} {c : Context} {before : List Step}

theorem step_follows (fuel : Nat) (h : c.Follows before) {s : Step} (hs : s.isDirect = true) :
    ∃ reply after, step fuel c s = some (reply, after) ∧ after.Follows (before ++ [s]) := by
  cases s with
  | eval | evalFresh | frame | fork => cases hs
  | define name value =>
    exact ⟨_, _, rfl, h.vars.after_binding rfl rfl, h.functions.after_other rfl rfl⟩
  | declare f => exact ⟨_, _, rfl, h.vars.after_other rfl rfl, h.functions.after_binding rfl rfl⟩
  | clearVariables => exact ⟨_, _, rfl, .after_clearing rfl, h.functions.after_other rfl rfl⟩
  | clearFunctions => exact ⟨_, _, rfl, h.vars.after_other rfl rfl, .after_clearing rfl⟩
  | reset => exact ⟨_, _, rfl, .after_clearing rfl, .after_clearing rfl⟩
  | refused | lookUp | hasFunction | lookUpFunction | count | sameVariables =>
    exact ⟨_, _, rfl, h.vars.after_other rfl rfl, h.functions.after_other rfl rfl⟩

theorem run_follows (fuel : Nat) (h : c.Follows before) {steps : List Step}
    (hsteps : ∀ s ∈ steps, s.isDirect = true) :
    ∃ answers after, run fuel c steps = some (answers, after) ∧ after.Follows (before ++ steps) := by
  induction steps generalizing c before with
  | nil => exact ⟨[], c, rfl, by simpa using h⟩
  | cons s rest ih =>
    rw [List.forall_mem_cons] at hsteps
    obtain ⟨reply, next, hstep, hnext⟩ := step_follows fuel h hsteps.1
    obtain ⟨answers, after, hrun, hafter⟩ := ih hnext hsteps.2
    refine ⟨(reply, next) :: answers, after, ?_, by simpa using hafter⟩
    simp only [run, hstep, hrun, Option.bind_eq_bind, Option.bind_some, Option.pure_def]

/-- A step in the middle of a session is taken in the context that the steps before it lead to. -/
theorem run_split {s : Step} {rest : List Step} {answers : List (Reply × Context)} {after : Context}
    (h : run fuel c (before ++ s :: rest) = some (answers, after)) :
    ∃ earlier middle reply next later, run fuel c before = some (earlier, middle) ∧
      step fuel middle s = some (reply, next) ∧ answers = earlier ++ (reply, next) :: later := by
  induction before generalizing c answers with
  | nil =>
    obtain ⟨⟨reply, next⟩, hstep, h⟩ := Option.bind_eq_some_iff.mp h
    obtain ⟨⟨later, last⟩, -, hanswers⟩ := Option.bind_eq_some_iff.mp h
    cases hanswers
    exact ⟨[], c, reply, next, later, rfl, hstep, rfl⟩
  | cons first before ih =>
    obtain ⟨⟨answer, c₁⟩, hfirst, h⟩ := Option.bind_eq_some_iff.mp h
    obtain ⟨⟨others, last⟩, hothers, hanswers⟩ := Option.bind_eq_some_iff.mp h
    cases hanswers
    obtain ⟨earlier, middle, reply, next, later, hbefore, hstep, rfl⟩ := ih hothers
    refine ⟨(answer, c₁) :: earlier, middle, reply, next, later, ?_, hstep, rfl⟩
    simp only [run, hfirst, hbefore, Option.bind_eq_bind, Option.bind_some, Option.pure_def]

theorem run_defines (pairs : List (String × Float)) :
    ∃ answers, run fuel c (pairs.map fun pair => .define pair.1 pair.2) = some (answers,
      { c with vars := pairs.foldl (fun table pair => table.insert pair.1 pair.2) c.vars }) := by
  induction pairs generalizing c with
  | nil => exact ⟨[], rfl⟩
  | cons pair rest ih =>
    obtain ⟨answers, hrun⟩ := ih (c := c.define pair.1 pair.2)
    refine ⟨(.previousVariable (c.vars.get? pair.1), c.define pair.1 pair.2) :: answers, ?_⟩
    simp only [List.map_cons, run, step, hrun, Option.bind_eq_bind, Option.bind_some, Option.pure_def]
    rfl

theorem step_frame_of_records {locals : List (String × Float)} {vars : Table Float}
    {steps : List Step} {answers : List (Reply × Context)} {last : Context}
    (hvars : vars.Records locals) (hlt : c.depth < c.limit)
    (hrun : run fuel ⟨vars, c.functions, c.depth + 1, c.limit⟩ steps = some (answers, last)) :
    step fuel c (.frame locals steps) =
      some (.entered ⟨vars, c.functions, c.depth + 1, c.limit⟩ answers, c.leave last) := by
  obtain rfl := Table.records_iff.mp hvars
  unfold step
  rw [Context.enter_of_lt hlt]
  simp only [hrun, Option.bind_eq_bind, Option.bind_some, Option.pure_def]

end Session

theorem exists_ends_call_of_records {name : String} {args : List Expr} {c c₁ : Context} {f : Function}
    {values : List Float} {log : List Event} {vars : Table Float} {inner : Evaluation}
    (hf : c.functions.get? name = some f) (hcount : f.params.length = args.length)
    (hargs : ArgumentsEnd args c (.ok values) c₁ log) (hlt : c₁.depth < c₁.limit)
    (hvars : vars.Records (f.params.zip values))
    (hinner : Ends f.body ⟨vars, c₁.functions, c₁.depth + 1, c₁.limit⟩ inner) :
    ∃ run, Ends (.call name args) c run ∧ run.outcome = inner.outcome := by
  obtain rfl := Table.records_iff.mp hvars
  exact ⟨_, (CallEnds.body hf hcount hargs hlt hinner).ends, rfl⟩

/-- Variables and functions are kept as ordered maps. After any steps that bind, clear and look up, both
tables are what the bindings since their last clearing amount to, and each definition and each
declaration was answered with what its name was bound to just before it. The table made of a list of
pairs is what the pairs amount to, and no other table is; defining the pairs one after another leads to
it as well. From such a table a frame starts with its locals, and a function with its parameters and the
values of the arguments. Tables of variables agree exactly if they bind the same names, and each name to
equal doubles, in whatever orders. -/
theorem tables_follow_history :
    (∀ (limit fuel : Nat) (steps : List Step), (∀ s ∈ steps, s.isDirect = true) →
      ∃ answers c, Session.run fuel (.withLimit limit) steps = some (answers, c) ∧
        c.vars.Records (Session.definitions steps) ∧ c.functions.Records (Session.declarations steps) ∧
        (∀ before name value rest, steps = before ++ .define name value :: rest →
          ∃ earlier c₀ later, Session.run fuel (.withLimit limit) before = some (earlier, c₀) ∧
            answers = earlier ++
              (.previousVariable (c₀.vars.get? name), c₀.define name value) :: later) ∧
        ∀ before f rest, steps = before ++ .declare f :: rest →
          ∃ earlier c₀ later, Session.run fuel (.withLimit limit) before = some (earlier, c₀) ∧
            answers = earlier ++
              (.previousFunction (c₀.functions.get? f.name), c₀.declare f) :: later) ∧
    (∀ (α : Type) (pairs : List (String × α)) (table : Table α),
      table.Records pairs ↔ table = .ofList pairs) ∧
    (∀ (fuel : Nat) (c : Context) (pairs : List (String × Float)), ∃ answers,
      Session.run fuel c.clearVariables (pairs.map fun pair => .define pair.1 pair.2) =
        some (answers, { c with vars := .ofList pairs })) ∧
    (∀ (fuel : Nat) (c : Context) (locals : List (String × Float)) (vars : Table Float)
      (steps : List Step) (answers : List (Reply × Context)) (last : Context), vars.Records locals →
      c.depth < c.limit →
      Session.run fuel ⟨vars, c.functions, c.depth + 1, c.limit⟩ steps = some (answers, last) →
      Session.step fuel c (.frame locals steps) =
        some (.entered ⟨vars, c.functions, c.depth + 1, c.limit⟩ answers, c.leave last)) ∧
    (∀ (name : String) (args : List Expr) (c c₁ : Context) (f : Function) (values : List Float)
      (log : List Event) (vars : Table Float) (inner : Evaluation), c.functions.get? name = some f →
      f.params.length = args.length → ArgumentsEnd args c (.ok values) c₁ log → c₁.depth < c₁.limit →
      vars.Records (f.params.zip values) →
      Ends f.body ⟨vars, c₁.functions, c₁.depth + 1, c₁.limit⟩ inner →
      ∃ run, Ends (.call name args) c run ∧ run.outcome = inner.outcome) ∧
    ∀ (left right : Table Float) (pairs pairs' : List (String × Float)), left.Records pairs →
      right.Records pairs' →
      (left.agrees (· == ·) right = true ↔
        (∀ name, name ∈ left.names ↔ name ∈ right.names) ∧
          ∀ name x y, left.get? name = some x → right.get? name = some y → (x == y) = true) := by
  refine ⟨?_, fun α pairs table => Table.records_iff, fun fuel c pairs => Session.run_defines pairs,
    fun _ _ _ _ _ _ _ => Session.step_frame_of_records,
    fun _ _ _ _ _ _ _ _ _ => exists_ends_call_of_records,
    fun left right pairs pairs' h h' => h.agrees_iff h' _⟩
  intro limit fuel steps hsteps
  have hstart : (Context.withLimit limit).Follows [] := ⟨Table.records_empty, Table.records_empty⟩
  obtain ⟨answers, c, hrun, hc⟩ := Session.run_follows fuel hstart hsteps
  refine ⟨answers, c, hrun, hc.vars, hc.functions, ?_, ?_⟩
  · rintro before name value rest rfl
    obtain ⟨earlier, c₀, reply, next, later, hbefore, hstep, rfl⟩ := Session.run_split hrun
    cases hstep
    exact ⟨earlier, c₀, later, hbefore, rfl⟩
  · rintro before f rest rfl
    obtain ⟨earlier, c₀, reply, next, later, hbefore, hstep, rfl⟩ := Session.run_split hrun
    cases hstep
    exact ⟨earlier, c₀, later, hbefore, rfl⟩

/-- The name that is bound again keeps its place and answers with its old value, and what was bound
before the clearing is forgotten. A frame and a function, one with a repeated local and the other with a
repeated parameter, see the last value. -/
theorem tables_follow_history_rebound :
    let f : Function := ⟨"f", ["a"], .var "a"⟩
    let g : Function := ⟨"g", [], .literal 0⟩
    let f' : Function := ⟨"f", [], .literal 1⟩
    let earlier : List Step := [.define "y" 7, .clearVariables, .define "x" 1, .declare f,
      .define "y" 2, .declare g]
    let steps : List Step := earlier ++ [.define "x" 3, .declare f']
    (∀ s ∈ steps, s.isDirect = true) ∧
      ∃ answers c, Session.run 0 (.withLimit 1) steps = some (answers, c) ∧
        c.vars.Records [("x", 1), ("y", 2), ("x", 3)] ∧ c.vars.entries = [("x", 3), ("y", 2)] ∧
        c.functions.Records [("f", f), ("g", g), ("f", f')] ∧ c.functions.names = ["f", "g"] ∧
        (∃ first next later, answers = first ++ (.previousVariable (some 1), next) :: later) ∧
        c.vars.agrees (· == ·) (.ofList [("y", 2), ("x", 3)]) = true ∧
        (∃ inside after, Session.step 0 (.withLimit 1) (.frame [("a", 1), ("b", 2), ("a", 3)] []) =
          some (.entered inside [], after) ∧ inside.vars.entries = [("a", 3), ("b", 2)]) ∧
        ∃ run, Ends (.call "h" [.literal 1, .literal 2])
            ((Context.withLimit 1).declare ⟨"h", ["a", "a"], .var "a"⟩) run ∧
          run.outcome = .ok 2 := by
  intro f g f' earlier steps
  obtain ⟨hsessions, hrecords, -, hframes, hcalls, hagrees⟩ := tables_follow_history
  have hdirect : ∀ s ∈ steps, s.isDirect = true := by decide
  obtain ⟨answers, c, hrun, hvars, hfunctions, hdefined, -⟩ := hsessions 1 0 steps hdirect
  have hdefinitions : Session.definitions steps = [("x", 1), ("y", 2), ("x", 3)] := rfl
  have hdeclarations : Session.declarations steps = [("f", f), ("g", g), ("f", f')] := rfl
  rw [hdefinitions] at hvars
  rw [hdeclarations] at hfunctions
  have hentries : c.vars.entries = [("x", 3), ("y", 2)] := by
    rw [(hrecords _ _ _).mp hvars]
    rfl
  have hnames : c.functions.names = ["f", "g"] := by
    rw [(hrecords _ _ _).mp hfunctions]
    rfl
  have hother : (Table.ofList [("y", (2 : Float)), ("x", 3)]).Records [("y", 2), ("x", 3)] :=
    (hrecords _ _ _).mpr rfl
  have hlisted : (Table.ofList [("y", (2 : Float)), ("x", 3)]).entries = [("y", 2), ("x", 3)] := rfl
  refine ⟨hdirect, answers, c, hrun, hvars, hentries, hfunctions, hnames, ?_, ?_, ?_, ?_⟩
  · obtain ⟨first, c₀, later, hbefore, hanswers⟩ := hdefined earlier "x" 3 [.declare f'] rfl
    have hmiddle : Session.run 0 (.withLimit 1) earlier =
      some (_, ⟨.ofList [("x", 1), ("y", 2)], _, 0, 1⟩) := rfl
    rw [hmiddle] at hbefore
    cases hbefore
    exact ⟨_, _, later, hanswers⟩
  · refine (hagrees _ _ _ _ hvars hother).mpr ⟨fun name => ?_, fun name x y hx hy => ?_⟩
    · simp [Table.names, hentries, hlisted, or_comm]
    · rw [hvars.get?_iff, hentries] at hx
      rw [hother.get?_iff, hlisted] at hy
      have hthree : ((3 : Float) == 3) = true := by decide +kernel
      have htwo : ((2 : Float) == 2) = true := by decide +kernel
      simp only [List.mem_cons, Prod.mk.injEq, List.not_mem_nil, or_false] at hx hy
      rcases hx with ⟨rfl, rfl⟩ | ⟨rfl, rfl⟩ <;> rcases hy with ⟨hname, rfl⟩ | ⟨hname, rfl⟩
      · simp at hname
      · exact hthree
      · exact htwo
      · simp at hname
  · have hlocals := (hrecords Float [("a", 1), ("b", 2), ("a", 3)] _).mpr rfl
    exact ⟨_, _, hframes 0 (.withLimit 1) _ _ [] [] _ hlocals (by decide) rfl, rfl⟩
  · have hparams := (hrecords Float (["a", "a"].zip [1, 2]) _).mpr rfl
    have hliteral (x : Float) (c : Context) : Ends (.literal x) c ⟨.ok x, c, []⟩ := ⟨1, rfl⟩
    have hargs (c : Context) : ArgumentsEnd [.literal 1, .literal 2] c (.ok [1, 2]) c [] :=
      .next (hliteral 1 c) (.next (hliteral 2 c) .nil)
    exact hcalls "h" _ _ _ ⟨"h", ["a", "a"], .var "a"⟩ [1, 2] _ _ _ rfl rfl (hargs _) (by decide) hparams
      ⟨1, rfl⟩

end Reckoner
