import Reckoner.Proofs.Meaning
import Reckoner.Session

/-! What every session keeps to. Steps nest, so the rules are stated for a number of frames around the
context; if each kind of step keeps them, so does every session, in all the states that it passes
through and in all that it answers. -/

namespace Reckoner

mutual

/-- `code` holds of all expressions that a step evaluates or stores. -/
def Step.Holds (code : Expr → Prop) : Step → Prop
  | .eval e | .evalFresh e => code e
  | .declare f => code f.body
  | .frame _ steps | .fork steps => AllHold code steps
  | .refused _ | .define _ _ | .lookUp _ | .hasFunction _ | .lookUpFunction _ | .count | .reset
  | .clearVariables | .clearFunctions | .sameVariables _ => True

def Step.AllHold (code : Expr → Prop) : List Step → Prop
  | [] => True
  | s :: rest => s.Holds code ∧ AllHold code rest

end

mutual

/-- `state` holds of all contexts that an answer shows and `error` of all errors of evaluation. -/
def Reply.Keeps (state : Nat → Context → Prop) (error : EvalError → Prop) (frames : Nat) :
    Reply → Prop
  | .error e => error e
  | .entered inside answers => state (frames + 1) inside ∧ AllKeep state error (frames + 1) answers
  | .forked answers => AllKeep state error frames answers
  | .refused _ | .value _ | .foundVariable _ | .previousVariable _ | .foundFunction _
  | .previousFunction _ | .flag _ | .counts _ _ | .done => True

def Reply.AllKeep (state : Nat → Context → Prop) (error : EvalError → Prop) (frames : Nat) :
    List (Reply × Context) → Prop
  | [] => True
  | (reply, c) :: rest =>
      reply.Keeps state error frames ∧ state frames c ∧ AllKeep state error frames rest

end

/-- Rules that every kind of step keeps inside so many frames. -/
structure SessionRules where
  code : Expr → Prop
  state : Nat → Context → Prop
  error : EvalError → Prop
  evaluated {frames : Nat} {e : Expr} {c : Context} {run : Evaluation} : code e → state frames c →
    Ends e c run → state frames run.context ∧ ∀ err, run.outcome = .error err → error err
  fresh {e : Expr} {run : Evaluation} : code e →
    Ends e (.withLimit Context.defaultLimit) run → ∀ err, run.outcome = .error err → error err
  defined {frames : Nat} {c : Context} (name : String) (value : Float) : state frames c →
    state frames (c.define name value)
  declared {frames : Nat} {c : Context} {f : Function} : code f.body → state frames c →
    state frames (c.declare f)
  reset {frames : Nat} {c : Context} : state frames c → state frames c.reset
  clearedVariables {frames : Nat} {c : Context} : state frames c → state frames c.clearVariables
  clearedFunctions {frames : Nat} {c : Context} : state frames c → state frames c.clearFunctions
  entered {frames : Nat} {c inside : Context} {locals : List (String × Float)} : state frames c →
    c.enter (.ofList locals) = .ok inside → state (frames + 1) inside
  refused {frames : Nat} {c : Context} {locals : List (String × Float)} {err : EvalError} :
    state frames c → c.enter (.ofList locals) = .error err → error err
  left {frames : Nat} {c after : Context} : state frames c → state (frames + 1) after →
    state frames (c.leave after)

namespace SessionRules

variable (K : SessionRules) {fuel : Nat}

theorem keeps_ofOutcome {frames : Nat} {outcome : Except EvalError Float}
    (h : ∀ err, outcome = .error err → K.error err) :
    (Reply.ofOutcome outcome).Keeps K.state K.error frames := by
  cases outcome with
  | ok x => trivial
  | error err => exact h err rfl

mutual

theorem step_keeps {frames : Nat} {c after : Context} {reply : Reply} (hc : K.state frames c) :
    (s : Step) → s.Holds K.code → Session.step fuel c s = some (reply, after) →
    reply.Keeps K.state K.error frames ∧ K.state frames after
  | .eval e, he, h => by
    obtain ⟨run, hrun, hreply⟩ := Option.map_eq_some_iff.mp h
    cases hreply
    obtain ⟨hstate, herror⟩ := K.evaluated he hc ⟨fuel, hrun⟩
    exact ⟨K.keeps_ofOutcome herror, hstate⟩
  | .evalFresh e, he, h => by
    obtain ⟨run, hrun, hreply⟩ := Option.map_eq_some_iff.mp h
    cases hreply
    exact ⟨K.keeps_ofOutcome (K.fresh he ⟨fuel, hrun⟩), hc⟩
  | .frame locals steps, hs, h => by
    unfold Session.step at h
    split at h
    next err henter =>
      cases h
      exact ⟨K.refused hc henter, hc⟩
    next inside henter =>
      obtain ⟨⟨answers, last⟩, hrun, hreply⟩ := Option.bind_eq_some_iff.mp h
      cases hreply
      have hinside := K.entered hc henter
      obtain ⟨hanswers, hlast⟩ := run_keeps hinside steps hs hrun
      exact ⟨⟨hinside, hanswers⟩, K.left hc hlast⟩
  | .fork steps, hs, h => by
    obtain ⟨⟨answers, last⟩, hrun, hreply⟩ := Option.bind_eq_some_iff.mp h
    cases hreply
    exact ⟨(run_keeps hc steps hs hrun).1, hc⟩
  | .define name value, _, h => by
    cases h
    exact ⟨trivial, K.defined name value hc⟩
  | .declare f, hf, h => by
    cases h
    exact ⟨trivial, K.declared hf hc⟩
  | .reset, _, h => by
    cases h
    exact ⟨trivial, K.reset hc⟩
  | .clearVariables, _, h => by
    cases h
    exact ⟨trivial, K.clearedVariables hc⟩
  | .clearFunctions, _, h => by
    cases h
    exact ⟨trivial, K.clearedFunctions hc⟩
  | .refused _, _, h | .lookUp _, _, h | .hasFunction _, _, h | .lookUpFunction _, _, h
  | .count, _, h | .sameVariables _, _, h => by
    cases h
    exact ⟨trivial, hc⟩

theorem run_keeps {frames : Nat} {c after : Context} {answers : List (Reply × Context)}
    (hc : K.state frames c) : (steps : List Step) → Step.AllHold K.code steps →
    Session.run fuel c steps = some (answers, after) →
    Reply.AllKeep K.state K.error frames answers ∧ K.state frames after
  | [], _, h => by
    cases h
    exact ⟨trivial, hc⟩
  | s :: rest, hs, h => by
    obtain ⟨⟨reply, next⟩, hstep, h⟩ := Option.bind_eq_some_iff.mp h
    obtain ⟨⟨others, last⟩, hrest, hanswers⟩ := Option.bind_eq_some_iff.mp h
    cases hanswers
    obtain ⟨hreply, hnext⟩ := step_keeps hc s hs.1 hstep
    obtain ⟨hothers, hlast⟩ := run_keeps hnext rest hs.2 hrest
    exact ⟨⟨hreply, hnext, hothers⟩, hlast⟩

end

end SessionRules

end Reckoner
