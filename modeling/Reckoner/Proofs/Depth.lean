import Reckoner.Proofs.Call
import Reckoner.Proofs.Contract

/-! The depth of a context counts the calls in progress. At every moment of an evaluation it exceeds
the depth at the start by the number of calls that were entered and not left, and it never exceeds
the limit. So an error about the depth is raised at the limit itself, although a call only tests
whether the limit is reached. -/

namespace Reckoner

def Moment.opens : Moment → Int
  | .enters _ => 1
  | .leaves _ => -1
  | .begins _ _ _ | .stores _ => 0

def openCalls : List Moment → Int
  | [] => 0
  | moment :: rest => moment.opens + openCalls rest

theorem openCalls_snoc (past : List Moment) (moment : Moment) :
    openCalls (past ++ [moment]) = openCalls past + moment.opens := by
  induction past with
  | nil => simp [openCalls]
  | cons first rest ih =>
    simp only [List.cons_append, openCalls, ih]
    omega

/-- `good` holds of each entry of a log and of those before it. -/
def AtEach {α : Type} (good : List α → α → Prop) (log : List α) : Prop :=
  ∀ past entry rest, log = past ++ entry :: rest → good past entry

namespace AtEach

variable {α : Type} {good : List α → α → Prop} {log : List α}

theorem nil : AtEach good [] := by
  intro past entry rest h
  simp at h

theorem snoc {entry : α} (h : AtEach good log) (hlast : good log entry) :
    AtEach good (log ++ [entry]) := by
  intro past other rest hsplit
  -- the entry is the last one or one of those before
  rcases List.eq_nil_or_concat rest with rfl | ⟨init, last, rfl⟩
  · obtain ⟨rfl, hentry⟩ := List.append_inj' hsplit rfl
    cases hentry
    exact hlast
  · rw [List.concat_eq_append, ← List.cons_append, ← List.append_assoc] at hsplit
    exact h past other init (List.append_inj' hsplit rfl).1

end AtEach

/-- A moment of an evaluation that started at this depth. -/
def InStep (depth limit : Nat) (past : List Moment) : Moment → Prop
  | .begins calls _ c =>
      openCalls past = calls.length ∧ c.depth = depth + calls.length ∧ c.depth ≤ limit
  | .stores _ => True
  | .enters caller => caller.depth < limit
  | .leaves callee => 0 < callee.depth

structure AtDepth (depth limit : Nat) (calls : List String) (p : Progress)
    (past : List Moment) : Prop where
  depth_eq : p.context.depth = depth + calls.length
  depth_le : p.context.depth ≤ limit
  limit_eq : p.context.limit = limit
  open_eq : openCalls past = calls.length
  inStep : AtEach (InStep depth limit) past

namespace AtDepth

variable {depth limit : Nat} {calls : List String} {p : Progress} {past : List Moment}

theorem note (h : AtDepth depth limit calls p past) (moment : Moment)
    (hmoment : InStep depth limit past moment) (hopens : moment.opens = 0) :
    AtDepth depth limit calls p (past ++ [moment]) := by
  refine ⟨h.depth_eq, h.depth_le, h.limit_eq, ?_, h.inStep.snoc hmoment⟩
  rw [openCalls_snoc, hopens, h.open_eq, Int.add_zero]

theorem enter (h : AtDepth depth limit calls p past) (hlt : p.context.depth < p.context.limit)
    (name : String) (locals : Table Float) :
    AtDepth depth limit (name :: calls) (p.entered name locals) (past ++ [.enters p.context]) := by
  have hroom : p.context.depth < limit := h.limit_eq ▸ hlt
  have hdepth := h.depth_eq
  refine ⟨?_, hroom, h.limit_eq, ?_, h.inStep.snoc hroom⟩
  · simp only [Progress.entered, List.length_cons]
    omega
  · rw [openCalls_snoc, h.open_eq]
    simp [Moment.opens]

theorem leave {name : String} (h : AtDepth depth limit (name :: calls) p past) (caller : Progress) :
    AtDepth depth limit calls (caller.left p) (past ++ [.leaves p.context]) := by
  have hdepth := h.depth_eq
  have hle := h.depth_le
  rw [List.length_cons] at hdepth
  have hpositive : 0 < p.context.depth := by omega
  refine ⟨?_, ?_, h.limit_eq, ?_, h.inStep.snoc hpositive⟩
  · simp only [Progress.left, Context.leave]
    omega
  · simp only [Progress.left, Context.leave]
    omega
  · rw [openCalls_snoc, h.open_eq]
    simp only [Moment.opens, List.length_cons]
    omega

theorem tooDeep_eq (h : AtDepth depth limit calls p past)
    (hdeep : p.context.limit ≤ p.context.depth) :
    p.context.depth = limit ∧ p.context.limit = limit :=
  ⟨Nat.le_antisymm h.depth_le (h.limit_eq ▸ hdeep), h.limit_eq⟩

end AtDepth

def depthContract (depth limit : Nat) : Contract where
  code _ _ := True
  state := AtDepth depth limit
  error err := ∀ reached allowed, err = .callTooDeep reached allowed →
    reached = limit ∧ allowed = limit
  record := AtEach (InStep depth limit)
  part _ _ := trivial
  recorded h := h.inStep
  begun _ h := h.note (.begins _ _ _) ⟨h.open_eq, h.depth_eq, h.depth_le⟩ rfl
  raised _ h hraises := by
    cases hraises with
    | tooDeep hdeep =>
      rintro _ _ ⟨⟩
      exact h.tooDeep_eq hdeep
    | @noResult _ _ _ _ _ _ _ error =>
      cases error <;> simp [EvalError.ofArithmetic]
    | _ => simp
  defined _ _ h := ⟨h.depth_eq, h.depth_le, h.limit_eq, h.open_eq, h.inStep⟩
  stored {_ f _ _} _ h :=
    have h' := h.note (.stores f) trivial rfl
    ⟨h'.depth_eq, h'.depth_le, h'.limit_eq, h'.open_eq, h'.inStep⟩
  body _ _ _ := trivial
  entered h hlt _ := h.enter hlt _ _
  left _ h := h.leave _

theorem atDepth_start {c : Context} (hdepth : c.depth ≤ c.limit) :
    (depthContract c.depth c.limit).state [] ⟨c, []⟩ [] :=
  ⟨rfl, hdepth, rfl, rfl, .nil⟩

theorem Ends.callTooDeep_eq {e : Expr} {c : Context} {run : Evaluation} {reached allowed : Nat}
    (h : Ends e c run) (hdepth : c.depth ≤ c.limit)
    (herror : run.outcome = .error (.callTooDeep reached allowed)) :
    reached = c.limit ∧ allowed = c.limit := by
  obtain ⟨n, hn⟩ := h
  have hholds := (depthContract c.depth c.limit).holds_of_evaluate trivial (atDepth_start hdepth) hn
  exact hholds.2.2 _ herror reached allowed rfl

/-- Every evaluation that takes place within another one, whether that one ends or not, takes place
at a depth that counts the calls then in progress, from the depth at the start up to the limit. In
64 bits the depth neither overflows where a call is entered nor sticks at zero where it is left.
At the end the depth and the limit are as they were, and an error about the depth gives the limit
for both of its numbers. -/
theorem evaluation_depth_discipline (e : Expr) (c : Context) (hdepth : c.depth ≤ c.limit)
    (hlimit : c.limit < UInt64.size) :
    (∀ fuel, (trace fuel [] e).run = eval fuel e) ∧
    (∀ fuel past calls x here rest, moments fuel e c = past ++ .begins calls x here :: rest →
      (here.depth : Int) = c.depth + openCalls past ∧ openCalls past = calls.length ∧
        c.depth ≤ here.depth ∧ here.depth ≤ c.limit) ∧
    (∀ fuel caller, .enters caller ∈ moments fuel e c → caller.depth + 1 < UInt64.size) ∧
    (∀ fuel callee, .leaves callee ∈ moments fuel e c → 0 < callee.depth) ∧
    ∀ run, Ends e c run → run.context.depth = c.depth ∧ run.context.limit = c.limit ∧
      ∀ reached allowed, run.outcome = .error (.callTooDeep reached allowed) →
        reached = c.limit ∧ allowed = c.limit := by
  have hrecord (fuel : Nat) : AtEach (InStep c.depth c.limit) (moments fuel e c) :=
    (depthContract c.depth c.limit).record_moments trivial (atDepth_start hdepth)
  refine ⟨fun fuel => trace_run fuel [] e, ?_, ?_, ?_, ?_⟩
  · intro fuel past calls x here rest hsplit
    obtain ⟨hopen, hhere, hle⟩ := hrecord fuel past _ rest hsplit
    refine ⟨?_, hopen, ?_, hle⟩
    · rw [hopen, hhere]
      simp
    · omega
  · intro fuel caller hmem
    obtain ⟨past, rest, hsplit⟩ := List.append_of_mem hmem
    have hroom : caller.depth < c.limit := hrecord fuel past _ rest hsplit
    omega
  · intro fuel callee hmem
    obtain ⟨past, rest, hsplit⟩ := List.append_of_mem hmem
    exact hrecord fuel past _ rest hsplit
  · intro run hrun
    obtain ⟨hend, hend'⟩ := hrun.depth_limit
    exact ⟨hend, hend', fun reached allowed => hrun.callTooDeep_eq hdepth⟩

def spin : Function := ⟨"spin", ["n"], .call "spin" [.var "n"]⟩

theorem evaluation_depth_discipline_spin :
    let e : Expr := .call "spin" [.literal 0]
    let c : Context := ⟨∅, .ofList [("spin", spin)], 1, 3⟩
    c.depth ≤ c.limit ∧ c.limit < UInt64.size ∧
      (∃ past here rest, moments 4 e c = past ++ .begins ["spin", "spin"] spin.body here :: rest ∧
        here.depth = 3 ∧ openCalls past = 2) ∧
      ∃ run, Ends e c run ∧ run.outcome = .error (.callTooDeep 3 3) ∧
        run.context.depth = 1 ∧ run.context.limit = 3 := by
  intro e c
  have hrun : Ends e c
      ⟨.error (.callTooDeep 3 3), c, [.called "spin" 2, .called "spin" 3]⟩ := ⟨4, rfl⟩
  have hsixth : (moments 4 e c)[6]? = some
      (.begins ["spin", "spin"] spin.body ⟨.ofList [("n", 0)], c.functions, 3, 3⟩) := rfl
  obtain ⟨past, rest, hsplit⟩ := List.append_of_mem (List.mem_of_getElem? hsixth)
  have hdiscipline := evaluation_depth_discipline e c (by decide) (by decide)
  obtain ⟨_, hopen, _⟩ := hdiscipline.2.1 4 past _ _ _ rest hsplit
  obtain ⟨hdepth, hlimit, _⟩ := hdiscipline.2.2.2.2 _ hrun
  exact ⟨by decide, by decide, ⟨past, _, rest, hsplit, rfl, hopen⟩, _, hrun, rfl, hdepth, hlimit⟩

end Reckoner
