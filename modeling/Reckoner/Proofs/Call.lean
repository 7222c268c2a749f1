import Reckoner.Proofs.Meaning

/-! What a call does, rule by rule. The function is looked up before any argument is evaluated, the
arguments act on the caller's context, and the body runs in a context of its own: of what it leaves
behind, only the functions come back to the caller. -/

namespace Reckoner

open EvalM

/-- Inside a call the depth is one more than around it, and the limit is the same. -/
def depthInvariant (limit : Nat) : Invariant Nat where
  code _ _ := True
  state depth p := p.context.depth = depth ∧ p.context.limit = limit
  inner depth := depth + 1
  part _ _ := trivial
  defined _ _ h := h
  declared _ h := h
  body _ _ _ := trivial
  entered h _ := ⟨congrArg (· + 1) h.1, h.2⟩
  left _ h := ⟨by simp [Progress.left, Context.leave, h.1], h.2⟩

theorem Ends.depth_limit {e : Expr} {c : Context} {run : Evaluation} (h : Ends e c run) :
    run.context.depth = c.depth ∧ run.context.limit = c.limit :=
  (depthInvariant c.limit).ends (w := c.depth) trivial ⟨rfl, rfl⟩ h

/-- Arguments are evaluated from left to right, each in the context that the one before it left, up
to the first one that fails. -/
inductive ArgumentsEnd : List Expr → Context → Except EvalError (List Float) → Context →
    List Event → Prop
  | nil {c : Context} : ArgumentsEnd [] c (.ok []) c []
  | failed {e : Expr} {rest : List Expr} {c c₁ : Context} {error : EvalError} {log : List Event} :
      Ends e c ⟨.error error, c₁, log⟩ → ArgumentsEnd (e :: rest) c (.error error) c₁ log
  | next {e : Expr} {rest : List Expr} {c c₁ c₂ : Context} {x : Float}
      {result : Except EvalError (List Float)} {log log' : List Event} :
      Ends e c ⟨.ok x, c₁, log⟩ → ArgumentsEnd rest c₁ result c₂ log' →
      ArgumentsEnd (e :: rest) c (result.map (x :: ·)) c₂ (log ++ log')

/-- The rules of a call. Nothing is evaluated unless the function is there and takes that many
arguments; its body, which is the one held at the start, sees the parameters alone. -/
inductive CallEnds (name : String) (args : List Expr) (c : Context) : Evaluation → Prop
  | undefined : c.functions.get? name = none →
      CallEnds name args c ⟨.error (.undefinedFunction name), c, []⟩
  | mismatch {f : Function} : c.functions.get? name = some f → f.params.length ≠ args.length →
      CallEnds name args c ⟨.error (.arityMismatch name f.params.length args.length), c, []⟩
  | argument {f : Function} {error : EvalError} {c₁ : Context} {log : List Event} :
      c.functions.get? name = some f → f.params.length = args.length →
      ArgumentsEnd args c (.error error) c₁ log → CallEnds name args c ⟨.error error, c₁, log⟩
  | tooDeep {f : Function} {values : List Float} {c₁ : Context} {log : List Event} :
      c.functions.get? name = some f → f.params.length = args.length →
      ArgumentsEnd args c (.ok values) c₁ log → c₁.limit ≤ c₁.depth →
      CallEnds name args c ⟨.error (.callTooDeep c₁.depth c₁.limit), c₁, log⟩
  | body {f : Function} {values : List Float} {c₁ : Context} {log : List Event}
      {inner : Evaluation} :
      c.functions.get? name = some f → f.params.length = args.length →
      ArgumentsEnd args c (.ok values) c₁ log → c₁.depth < c₁.limit →
      Ends f.body ⟨.ofList (f.params.zip values), c₁.functions, c₁.depth + 1, c₁.limit⟩ inner →
      CallEnds name args c
        ⟨inner.outcome, ⟨c₁.vars, inner.context.functions, c₁.depth, c₁.limit⟩,
          log ++ .called name (c₁.depth + 1) :: inner.events⟩

theorem ArgumentsEnd.collect_eq {args : List Expr} {c c₁ : Context}
    {result : Except EvalError (List Float)} {log : List Event}
    (h : ArgumentsEnd args c result c₁ log) (earlier : List Event) :
    collect meaning args ⟨c, earlier⟩ = .ended result ⟨c₁, log.reverse ++ earlier⟩ := by
  induction h generalizing earlier with
  | nil => rfl
  | failed he => exact bind_of_failure (he.meaning_eq earlier)
  | @next e rest c c₁ c₂ x result log log' he _ ih =>
    have hrest := ih (log.reverse ++ earlier)
    have hlog : (log ++ log').reverse ++ earlier = log'.reverse ++ (log.reverse ++ earlier) := by
      simp
    rw [hlog]
    refine (bind_of_value (he.meaning_eq earlier)).trans ?_
    cases result with
    | ok values => exact bind_of_value hrest
    | error error => exact bind_of_failure hrest

theorem exists_argumentsEnd {args : List Expr} {p : Progress}
    (h : collect meaning args p ≠ .outOfFuel) :
    ∃ result c₁ log, ArgumentsEnd args p.context result c₁ log := by
  induction args generalizing p with
  | nil => exact ⟨_, _, _, .nil⟩
  | cons e rest ih =>
    have he : meaning e p ≠ .outOfFuel := fun hout => h (bind_of_outOfFuel hout)
    obtain ⟨⟨outcome, c₁, log⟩, hrun⟩ := exists_ends he
    cases outcome with
    | error error => exact ⟨_, _, _, .failed hrun⟩
    | ok x =>
      have hrest : collect meaning rest ⟨c₁, log.reverse ++ p.events⟩ ≠ .outOfFuel := by
        intro hout
        apply h
        exact (bind_of_value (hrun.meaning_eq p.events)).trans (bind_of_outOfFuel hout)
      obtain ⟨result, c₂, log', hargs⟩ := ih hrest
      exact ⟨_, _, _, .next hrun hargs⟩

theorem inCall_eq {c₁ : Context} {locals : Table Float} {body : Expr} {inner : Evaluation}
    (hlt : c₁.depth < c₁.limit)
    (h : Ends body ⟨locals, c₁.functions, c₁.depth + 1, c₁.limit⟩ inner) (name : String)
    (earlier : List Event) :
    inCall name locals (meaning body) ⟨c₁, earlier⟩ =
      .ended inner.outcome ⟨⟨c₁.vars, inner.context.functions, c₁.depth, c₁.limit⟩,
        inner.events.reverse ++ .called name (c₁.depth + 1) :: earlier⟩ := by
  rw [inCall_of_lt _ _ _ hlt]
  refine (congrArg (Outcome.mapProgress _) (h.meaning_eq _)).trans ?_
  obtain ⟨hdepth, hlimit⟩ := h.depth_limit
  have hleave : c₁.leave inner.context =
      ⟨c₁.vars, inner.context.functions, c₁.depth, c₁.limit⟩ := by
    simp only [Context.leave, hdepth, hlimit, Nat.add_sub_cancel]
  cases inner.outcome <;>
    simp only [Outcome.ended, Outcome.mapProgress, Progress.left, Progress.after,
      Evaluation.progress, hleave]

theorem meaning_call_of_found {name : String} {args : List Expr} {p : Progress} {f : Function}
    (hf : p.context.functions.get? name = some f) (hcount : f.params.length = args.length) :
    meaning (.call name args) p = (do
      let values ← collect meaning args
      inCall name (.ofList (f.params.zip values)) (meaning f.body) : EvalM Float) p := by
  rw [meaning_call]
  exact bind_of_value ((findFunction_of_some hf _).trans (if_pos hcount))

theorem CallEnds.ends {name : String} {args : List Expr} {c : Context} {run : Evaluation}
    (h : CallEnds name args c run) : Ends (.call name args) c run := by
  rw [ends_iff_meaning]
  cases h with
  | undefined hnone =>
    rw [meaning_call]
    exact bind_of_failure (findFunction_of_none hnone _)
  | mismatch hf hcount =>
    rw [meaning_call]
    exact bind_of_failure ((findFunction_of_some hf _).trans (if_neg hcount))
  | argument hf hcount hargs =>
    rw [meaning_call_of_found hf hcount, bind_of_failure (hargs.collect_eq [])]
    simp [Evaluation.progress, Outcome.ended]
  | tooDeep hf hcount hargs hdeep =>
    rw [meaning_call_of_found hf hcount, bind_of_value (hargs.collect_eq []),
      inCall_of_le _ _ _ hdeep]
    simp [Evaluation.progress, Outcome.ended]
  | body hf hcount hargs hlt hbody =>
    rw [meaning_call_of_found hf hcount, bind_of_value (hargs.collect_eq []),
      inCall_eq hlt hbody]
    simp [Evaluation.progress]

theorem exists_callEnds {name : String} {args : List Expr} {c : Context}
    (h : meaning (.call name args) ⟨c, []⟩ ≠ .outOfFuel) : ∃ run, CallEnds name args c run := by
  cases hf : c.functions.get? name with
  | none => exact ⟨_, .undefined hf⟩
  | some f =>
    by_cases hcount : f.params.length = args.length
    · rw [meaning_call_of_found (p := ⟨c, []⟩) hf hcount] at h
      have hcollect : collect meaning args ⟨c, []⟩ ≠ .outOfFuel :=
        fun hout => h (bind_of_outOfFuel hout)
      obtain ⟨result, c₁, log, hargs⟩ := exists_argumentsEnd hcollect
      cases result with
      | error error => exact ⟨_, .argument hf hcount hargs⟩
      | ok values =>
        rcases Nat.lt_or_ge c₁.depth c₁.limit with hlt | hge
        · rw [bind_of_value (hargs.collect_eq []), inCall_of_lt _ _ _ hlt] at h
          have hbody : meaning f.body ((⟨c₁, log.reverse ++ []⟩ : Progress).entered name
              (.ofList (f.params.zip values))) ≠ .outOfFuel := by
            intro hout
            rw [hout] at h
            exact h rfl
          obtain ⟨inner, hinner⟩ := exists_ends hbody
          exact ⟨_, .body hf hcount hargs hlt hinner⟩
        · exact ⟨_, .tooDeep hf hcount hargs hge⟩
    · exact ⟨_, .mismatch hf hcount⟩

/-- A call ends exactly as its rules say, and has no end if they give it none. -/
theorem ends_call_iff (name : String) (args : List Expr) (c : Context) (run : Evaluation) :
    Ends (.call name args) c run ↔ CallEnds name args c run := by
  constructor
  · intro h
    obtain ⟨run', hrun'⟩ := exists_callEnds (exists_ends_iff.mp ⟨run, h⟩)
    rw [h.unique hrun'.ends]
    exact hrun'
  · exact CallEnds.ends

end Reckoner
