import Reckoner.Proofs.Footprint
import Reckoner.Proofs.Provenance
import Reckoner.Proofs.SessionRules

/-! What holds of a context throughout a session. A reset inside a frame takes the depth to zero while
the frame is still to be left, so the depth does not count the frames around a step. It is bounded by
their number, and no step makes it larger; only a reset makes it smaller. -/

namespace Reckoner

/-- A context inside so many frames of a session with this limit. -/
structure Context.Sound (limit frames : Nat) (c : Context) : Prop where
  limit_eq : c.limit = limit
  depth_le_limit : c.depth ≤ limit
  depth_le_frames : c.depth ≤ frames
  nodup_vars : c.vars.names.Nodup
  nodup_functions : c.functions.names.Nodup
  own_name : ∀ name f, c.functions.get? name = some f → f.name = name

namespace Context.Sound

variable {limit frames : Nat} {c after : Context}

theorem define (h : c.Sound limit frames) (name : String) (value : Float) :
    (c.define name value).Sound limit frames :=
  { h with nodup_vars := Table.nodup_names_insert h.nodup_vars name value }

theorem declare (h : c.Sound limit frames) (f : Function) : (c.declare f).Sound limit frames :=
  { h with
    nodup_functions := Table.nodup_names_insert h.nodup_functions f.name f
    own_name := Table.forall_get?_insert h.own_name rfl }

theorem clearVariables (h : c.Sound limit frames) : c.clearVariables.Sound limit frames :=
  { h with nodup_vars := List.nodup_nil }

theorem clearFunctions (h : c.Sound limit frames) : c.clearFunctions.Sound limit frames :=
  { h with
    nodup_functions := List.nodup_nil
    own_name := by simp [Context.clearFunctions] }

theorem withLimit (limit frames : Nat) : (Context.withLimit limit).Sound limit frames where
  limit_eq := rfl
  depth_le_limit := Nat.zero_le limit
  depth_le_frames := Nat.zero_le frames
  nodup_vars := List.nodup_nil
  nodup_functions := List.nodup_nil
  own_name := by simp [Context.withLimit]

theorem reset (h : c.Sound limit frames) : c.reset.Sound limit frames := by
  rw [Context.reset, h.limit_eq]
  exact withLimit limit frames

theorem enter (h : c.Sound limit frames) {locals : List (String × Float)} {inside : Context}
    (henter : c.enter (.ofList locals) = .ok inside) : inside.Sound limit (frames + 1) := by
  unfold Context.enter at henter
  split at henter
  next hlt =>
    cases henter
    have hdepth := h.depth_le_frames
    rw [h.limit_eq] at hlt
    exact { h with
      depth_le_limit := hlt
      depth_le_frames := Nat.succ_le_succ hdepth
      nodup_vars := Table.nodup_names_ofList locals }
  next => cases henter

theorem leave (h : c.Sound limit frames) (hafter : after.Sound limit (frames + 1)) :
    (c.leave after).Sound limit frames := by
  have hlimit := hafter.depth_le_limit
  have hframes := hafter.depth_le_frames
  exact { hafter with
    depth_le_limit := by
      simp only [Context.leave]
      omega
    depth_le_frames := by
      simp only [Context.leave]
      omega
    nodup_vars := h.nodup_vars }

theorem ends {e : Expr} {run : Evaluation} (h : c.Sound limit frames) (hrun : Ends e c run) :
    run.context.Sound limit frames := by
  obtain ⟨hdepth, hlimit⟩ := hrun.depth_limit
  obtain ⟨n, hn⟩ := id hrun
  have hfunctions := ((provenanceContract e c).holds_of_evaluate (.inl .refl)
    (supplied_start e c) hn).1.written
  have hvars := hrun.written
  exact {
    limit_eq := hlimit.trans h.limit_eq
    depth_le_limit := hdepth ▸ h.depth_le_limit
    depth_le_frames := hdepth ▸ h.depth_le_frames
    nodup_vars := hvars.nodup_names h.nodup_vars
    nodup_functions := hfunctions.nodup_names h.nodup_functions
    own_name := by
      intro name f hf
      rcases hfunctions.get?_eq_some hf with hheld | hstored
      · exact h.own_name name f hheld
      · exact hstored.1 }

end Context.Sound

def soundRules (limit : Nat) : SessionRules where
  code _ := True
  state := Context.Sound limit
  error _ := True
  evaluated _ hc h := ⟨hc.ends h, fun _ _ => trivial⟩
  fresh _ _ _ _ := trivial
  defined name value h := h.define name value
  declared _ h := h.declare _
  reset h := h.reset
  clearedVariables h := h.clearVariables
  clearedFunctions h := h.clearFunctions
  entered h henter := h.enter henter
  refused _ _ := trivial
  left h h' := h.leave h'

mutual

theorem Step.holds_true : (s : Step) → s.Holds fun _ => True
  | .frame _ steps | .fork steps => Step.allHold_true steps
  | .eval _ | .evalFresh _ | .declare _ | .refused _ | .define _ _ | .lookUp _ | .hasFunction _
  | .lookUpFunction _ | .count | .reset | .clearVariables | .clearFunctions | .sameVariables _ =>
    trivial

theorem Step.allHold_true : (steps : List Step) → Step.AllHold (fun _ => True) steps
  | [] => trivial
  | s :: rest => ⟨Step.holds_true s, Step.allHold_true rest⟩

end

/-! Frames -/

theorem Context.enter_of_lt {c : Context} (h : c.depth < c.limit) (locals : Table Float) :
    c.enter locals = .ok ⟨locals, c.functions, c.depth + 1, c.limit⟩ := if_pos h

theorem Context.enter_of_le {c : Context} (h : c.limit ≤ c.depth) (locals : Table Float) :
    c.enter locals = .error (.callTooDeep c.depth c.limit) := if_neg (Nat.not_lt.mpr h)

namespace Session

variable {fuel : Nat} {c after : Context} {reply : Reply} {locals : List (String × Float)}
  {steps : List Step}

theorem step_frame_of_le (h : c.limit ≤ c.depth) :
    step fuel c (.frame locals steps) = some (.error (.callTooDeep c.depth c.limit), c) := by
  unfold step
  rw [Context.enter_of_le h]

theorem step_frame_of_lt (h : c.depth < c.limit)
    (hstep : step fuel c (.frame locals steps) = some (reply, after)) :
    ∃ answers last, run fuel ⟨.ofList locals, c.functions, c.depth + 1, c.limit⟩ steps =
        some (answers, last) ∧
      reply = .entered ⟨.ofList locals, c.functions, c.depth + 1, c.limit⟩ answers ∧
      after = c.leave last := by
  unfold step at hstep
  rw [Context.enter_of_lt h] at hstep
  obtain ⟨⟨answers, last⟩, hrun, hreply⟩ := Option.bind_eq_some_iff.mp hstep
  cases hreply
  exact ⟨answers, last, hrun, rfl, rfl⟩

theorem step_fork (h : step fuel c (.fork steps) = some (reply, after)) : after = c := by
  obtain ⟨⟨answers, last⟩, _, hreply⟩ := Option.bind_eq_some_iff.mp h
  cases hreply
  rfl

end Session

mutual

/-- The step reset its context, or a step inside a frame that it entered did. What is done to a copy
does not count. -/
def Step.Resets : Step → Reply → Prop
  | .reset, _ => True
  | .frame _ steps, .entered _ answers => SomeResets steps answers
  | _, _ => False

def Step.SomeResets : List Step → List (Reply × Context) → Prop
  | s :: rest, (reply, _) :: answers => s.Resets reply ∨ SomeResets rest answers
  | _, _ => False

end

mutual

theorem Session.depth_step {fuel : Nat} {c after : Context} {reply : Reply} : (s : Step) →
    Session.step fuel c s = some (reply, after) →
    after.depth ≤ c.depth ∧ (¬ s.Resets reply → after.depth = c.depth)
  | .eval e, h => by
    obtain ⟨run, hrun, hreply⟩ := Option.map_eq_some_iff.mp h
    cases hreply
    have hends : Ends e c run := ⟨fuel, hrun⟩
    exact ⟨hends.depth_limit.1.le, fun _ => hends.depth_limit.1⟩
  | .evalFresh e, h => by
    obtain ⟨run, _, hreply⟩ := Option.map_eq_some_iff.mp h
    cases hreply
    exact ⟨le_rfl, fun _ => rfl⟩
  | .frame locals steps, h => by
    rcases Nat.lt_or_ge c.depth c.limit with hlt | hge
    · obtain ⟨answers, last, hrun, rfl, rfl⟩ := Session.step_frame_of_lt hlt h
      obtain ⟨hle, heq⟩ := Session.depth_run steps hrun
      simp only at hle heq
      simp only [Context.leave]
      refine ⟨by omega, fun hnone => ?_⟩
      have hlast := heq hnone
      omega
    · rw [Session.step_frame_of_le hge] at h
      cases h
      exact ⟨le_rfl, fun _ => rfl⟩
  | .fork steps, h => by
    rw [Session.step_fork h]
    exact ⟨le_rfl, fun _ => rfl⟩
  | .reset, h => by
    cases h
    exact ⟨Nat.zero_le _, fun hnone => absurd trivial hnone⟩
  | .define _ _, h | .declare _, h | .clearVariables, h | .clearFunctions, h | .refused _, h
  | .lookUp _, h | .hasFunction _, h | .lookUpFunction _, h | .count, h | .sameVariables _, h => by
    cases h
    exact ⟨le_rfl, fun _ => rfl⟩

theorem Session.depth_run {fuel : Nat} {c after : Context} {answers : List (Reply × Context)} :
    (steps : List Step) → Session.run fuel c steps = some (answers, after) →
    after.depth ≤ c.depth ∧ (¬ Step.SomeResets steps answers → after.depth = c.depth)
  | [], h => by
    cases h
    exact ⟨le_rfl, fun _ => rfl⟩
  | s :: rest, h => by
    obtain ⟨⟨reply, next⟩, hstep, h⟩ := Option.bind_eq_some_iff.mp h
    obtain ⟨⟨others, last⟩, hrest, hanswers⟩ := Option.bind_eq_some_iff.mp h
    cases hanswers
    obtain ⟨hle, heq⟩ := Session.depth_step s hstep
    obtain ⟨hle', heq'⟩ := Session.depth_run rest hrest
    refine ⟨hle'.trans hle, fun hnone => ?_⟩
    rw [Step.SomeResets, not_or] at hnone
    rw [heq' hnone.2, heq hnone.1]

end

theorem depth_eq_zero_of_mem {limit : Nat} {error : EvalError → Prop}
    {answers : List (Reply × Context)} (h : Reply.AllKeep (Context.Sound limit) error 0 answers)
    {answer : Reply × Context} (hmem : answer ∈ answers) : answer.2.depth = 0 := by
  induction answers with
  | nil => cases hmem
  | cons first rest ih =>
    obtain ⟨_, hfirst, hrest⟩ := h
    rcases List.mem_cons.mp hmem with rfl | hlater
    · exact Nat.le_zero.mp hfirst.depth_le_frames
    · exact ih hrest hlater

/-- In a session that starts from an empty context with some limit, every context that is passed
through keeps that limit, has a depth within the limit and within the number of frames around it, so
that it is zero outside of all frames, binds no name twice, and holds every function under its own
name. A frame that is refused changes nothing. One that is entered gives the outer variables back and
keeps the functions that the steps inside left; the depth is not larger than before, and is as before
unless it was reset inside. A fork changes nothing, and a reset leaves the context of the start. -/
theorem session_invariants (limit : Nat) :
    (∀ fuel steps answers after, Session.run fuel (.withLimit limit) steps = some (answers, after) →
      Reply.AllKeep (Context.Sound limit) (fun _ => True) 0 answers ∧ after.Sound limit 0 ∧
        (∀ answer ∈ answers, answer.2.depth = 0) ∧ after.depth = 0) ∧
    ∀ fuel (c : Context), c.limit = limit →
      (∀ locals steps, limit ≤ c.depth → Session.step fuel c (.frame locals steps) =
        some (.error (.callTooDeep c.depth limit), c)) ∧
      (∀ locals steps reply after, c.depth < limit →
        Session.step fuel c (.frame locals steps) = some (reply, after) →
        ∃ answers last, Session.run fuel ⟨.ofList locals, c.functions, c.depth + 1, limit⟩ steps =
            some (answers, last) ∧
          after.vars = c.vars ∧ after.functions = last.functions ∧ after.depth ≤ c.depth ∧
          (¬ Step.SomeResets steps answers → after.depth = c.depth)) ∧
      (∀ steps reply after, Session.step fuel c (.fork steps) = some (reply, after) → after = c) ∧
      Session.step fuel c .reset = some (.done, .withLimit limit) := by
  constructor
  · intro fuel steps answers after hrun
    have hall : Step.AllHold (fun _ => True) steps := Step.allHold_true steps
    obtain ⟨hanswers, hafter⟩ := (soundRules limit).run_keeps (.withLimit limit 0) steps hall hrun
    refine ⟨hanswers, hafter, fun answer => depth_eq_zero_of_mem hanswers, ?_⟩
    exact Nat.le_zero.mp hafter.depth_le_frames
  · rintro fuel c rfl
    refine ⟨fun locals steps => Session.step_frame_of_le, ?_,
      fun steps reply after => Session.step_fork, rfl⟩
    intro locals steps reply after hlt hstep
    obtain ⟨hle, hsame⟩ := Session.depth_step _ hstep
    obtain ⟨answers, last, hrun, rfl, rfl⟩ := Session.step_frame_of_lt hlt hstep
    exact ⟨answers, last, hrun, rfl, rfl, hle, hsame⟩

/-- At the limit of one, the reset inside the first frame makes room for the second one, and the depth
stays at zero where the first one is left. Without it, the second one is refused. -/
theorem session_invariants_reset :
    let f : Function := ⟨"f", ["n"], .var "n"⟩
    let second : Step := .frame [] [.eval (.declare "f" ["n"] (.var "n"))]
    let first : Step := .frame [("y", 2), ("y", 3)] [.reset, second, .fork [.clearFunctions]]
    let c := (Context.withLimit 1).define "x" 1
    (∃ answers after, Session.run 2 (.withLimit 1) [.define "x" 1, first] = some (answers, after) ∧
      after.depth = 0 ∧ after.functions = .ofList [("f", f)] ∧ after.functions.names.Nodup) ∧
    (∃ reply after, Session.step 2 c first = some (reply, after) ∧ after.vars = c.vars ∧
      after.depth ≤ c.depth) ∧
    Session.step 2 { c with depth := 1 } second =
      some (.error (.callTooDeep 1 1), { c with depth := 1 }) := by
  intro f second first c
  obtain ⟨hsession, hsteps⟩ := session_invariants 1
  obtain ⟨answers, after, hrun, hfunctions⟩ : ∃ answers after,
      Session.run 2 (.withLimit 1) [.define "x" 1, first] = some (answers, after) ∧
        after.functions = .ofList [("f", f)] := ⟨_, _, rfl, rfl⟩
  obtain ⟨_, hsound, _, hdepth⟩ := hsession 2 _ answers after hrun
  obtain ⟨reply, left, hstep⟩ : ∃ reply left, Session.step 2 c first = some (reply, left) :=
    ⟨_, _, rfl⟩
  obtain ⟨_, _, _, hvars, _, hle, _⟩ := (hsteps 2 c rfl).2.1 _ _ reply left (by decide) hstep
  exact ⟨⟨answers, after, hrun, hdepth, hfunctions, hsound.nodup_functions⟩,
    ⟨reply, left, hstep, hvars, hle⟩, (hsteps 2 { c with depth := 1 } rfl).1 _ _ le_rfl⟩

end Reckoner
