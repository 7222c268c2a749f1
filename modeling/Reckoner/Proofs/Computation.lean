import Mathlib.Data.List.Forall2
import Reckoner.Evaluation

/-! Rules for reasoning about computations, one for each combinator that evaluation is written with.
`Ensures` follows one run and `Lockstep` follows two; a property of evaluation is then one induction
over expressions or fuel whose cases name the rules. -/

namespace Reckoner

variable {α β γ δ : Type}

/-! Where an assignment and a declaration end, where the body of a call begins, and where the call
ends once its body did -/

def Progress.defined (p : Progress) (name : String) (value : Float) : Progress :=
  { p with context := p.context.define name value }

def Progress.declared (p : Progress) (f : Function) : Progress :=
  ⟨p.context.declare f,
    (if p.context.functions.contains f.name then .redeclared f.name f.arity
      else .declared f.name f.arity) :: p.events⟩

def Progress.entered (p : Progress) (name : String) (locals : Table Float) : Progress :=
  ⟨{ p.context with vars := locals, depth := p.context.depth + 1 },
    .called name (p.context.depth + 1) :: p.events⟩

def Progress.left (p after : Progress) : Progress :=
  { after with context := p.context.leave after.context }

def Outcome.mapProgress (f : Progress → Progress) : Outcome α → Outcome α
  | .value a after => .value a (f after)
  | .failure error after => .failure error (f after)
  | .outOfFuel => .outOfFuel

namespace EvalM

theorem bind_of_value {x : EvalM α} {f : α → EvalM β} {p after : Progress} {a : α}
    (h : x p = .value a after) : (x >>= f) p = f a after := by
  change EvalM.bind x f p = _
  unfold EvalM.bind
  rw [h]

theorem bind_of_failure {x : EvalM α} {f : α → EvalM β} {p after : Progress} {error : EvalError}
    (h : x p = .failure error after) : (x >>= f) p = .failure error after := by
  change EvalM.bind x f p = _
  unfold EvalM.bind
  rw [h]

theorem bind_of_outOfFuel {x : EvalM α} {f : α → EvalM β} {p : Progress}
    (h : x p = .outOfFuel) : (x >>= f) p = .outOfFuel := by
  change EvalM.bind x f p = _
  unfold EvalM.bind
  rw [h]

theorem inCall_of_lt (name : String) (locals : Table Float) (body : EvalM α) {p : Progress}
    (h : p.context.depth < p.context.limit) :
    inCall name locals body p = (body (p.entered name locals)).mapProgress p.left := by
  unfold inCall Context.enter
  rw [if_pos h]
  change (match body (p.entered name locals) with
    | .value a after => Outcome.value a (p.left after)
    | .failure error after => .failure error (p.left after)
    | .outOfFuel => .outOfFuel) = _
  cases body (p.entered name locals) <;> rfl

theorem inCall_of_le (name : String) (locals : Table Float) (body : EvalM α) {p : Progress}
    (h : p.context.limit ≤ p.context.depth) :
    inCall name locals body p = .failure (.callTooDeep p.context.depth p.context.limit) p := by
  unfold inCall Context.enter
  rw [if_neg (by omega)]

end EvalM

open EvalM

theorem findFunction_eq (name : String) (count : Nat) :
    findFunction name count =
      (context >>= fun c => require (c.functions.get? name) (.undefinedFunction name)) >>= fun f =>
        if f.arity = count then pure f else fail (.arityMismatch name f.arity count) :=
  rfl

theorem findFunction_of_none {name : String} {p : Progress}
    (h : p.context.functions.get? name = none) (count : Nat) :
    findFunction name count p = .failure (.undefinedFunction name) p := by
  change EvalM.bind (require (p.context.functions.get? name) _) _ p = _
  rw [h]
  rfl

theorem findFunction_of_some {name : String} {p : Progress} {f : Function}
    (h : p.context.functions.get? name = some f) (count : Nat) :
    findFunction name count p =
      if f.arity = count then .value f p else .failure (.arityMismatch name f.arity count) p := by
  change EvalM.bind (require (p.context.functions.get? name) _) _ p = _
  rw [h]
  change (if f.arity = count then pure f else fail (.arityMismatch name f.arity count) :
    EvalM Function) p = _
  split <;> rfl

/-! One run -/

/-- The end is at a progress where `I` holds, a value satisfies `V` and an error satisfies `E`;
there may be no end only if `endless` allows it. -/
def Outcome.Holds (I : Progress → Prop) (E : EvalError → Prop) (endless : Prop) (V : α → Prop) :
    Outcome α → Prop
  | .value a after => V a ∧ I after
  | .failure error after => E error ∧ I after
  | .outOfFuel => endless

/-- Started where `I` holds, the computation ends where `I` holds. -/
def Ensures (I : Progress → Prop) (E : EvalError → Prop) (endless : Prop) (V : α → Prop)
    (x : EvalM α) : Prop :=
  ∀ p, I p → (x p).Holds I E endless V

namespace Ensures

variable {I J : Progress → Prop} {E : EvalError → Prop} {endless : Prop}
  {V : α → Prop} {W : β → Prop}

theorem pure {a : α} (h : V a) : Ensures I E endless V (pure a) := fun _ hI => ⟨h, hI⟩

theorem fail {error : EvalError} (h : E error) : Ensures I E endless V (EvalM.fail error) :=
  fun _ hI => ⟨h, hI⟩

theorem bind {x : EvalM α} {f : α → EvalM β} (hx : Ensures I E endless V x)
    (hf : ∀ a, V a → Ensures I E endless W (f a)) : Ensures I E endless W (x >>= f) := by
  intro p hI
  have h := hx p hI
  cases hp : x p with
  | value a after =>
    rw [hp] at h
    rw [bind_of_value hp]
    exact hf a h.1 after h.2
  | failure error after =>
    rw [hp] at h
    rw [bind_of_failure hp]
    exact h
  | outOfFuel =>
    rw [hp] at h
    rw [bind_of_outOfFuel hp]
    exact h

theorem require {found : Option α} {error : EvalError} (hsome : ∀ a, found = some a → V a)
    (hnone : found = none → E error) : Ensures I E endless V (require found error) := by
  cases found with
  | none => exact fail (hnone rfl)
  | some a => exact pure (hsome a rfl)

theorem read {f : Context → Option α} {error : EvalError}
    (hsome : ∀ p a, I p → f p.context = some a → V a)
    (hnone : ∀ p, I p → f p.context = none → E error) :
    Ensures I E endless V (context >>= fun c => EvalM.require (f c) error) :=
  fun p hI => require (fun a => hsome p a hI) (hnone p hI) p hI

theorem findFunction {name : String} {count : Nat} {V : Function → Prop}
    (hfound : ∀ p f, I p → p.context.functions.get? name = some f → f.arity = count → V f)
    (hnone : ∀ p, I p → p.context.functions.get? name = none → E (.undefinedFunction name))
    (harity : ∀ p f, I p → p.context.functions.get? name = some f → f.arity ≠ count →
      E (.arityMismatch name f.arity count)) :
    Ensures I E endless V (findFunction name count) := by
  rw [findFunction_eq]
  refine bind (V := fun f => ∃ p, I p ∧ p.context.functions.get? name = some f)
    (read (fun p f hI hf => ⟨p, hI, hf⟩) hnone) fun f hf => ?_
  obtain ⟨p, hI, hf⟩ := hf
  split
  next hcount => exact pure (hfound p f hI hf hcount)
  next hcount => exact fail (harity p f hI hf hcount)

theorem modify {f : Context → Context} (h : ∀ p, I p → I { p with context := f p.context }) :
    Ensures I E endless (fun _ => True) (EvalM.modify f) :=
  fun p hI => ⟨trivial, h p hI⟩

theorem declareFunction {f : Function} (h : ∀ p, I p → I (p.declared f)) :
    Ensures I E endless (fun _ => True) (declareFunction f) :=
  fun p hI => ⟨trivial, h p hI⟩

theorem compareBy {op : String} {l r : EvalM Float} {V : Float → Prop}
    (hop : Comparison.ofSymbol? op = none → E (.unknownOperator op))
    (hl : Ensures I E endless V l) (hr : Ensures I E endless V r) :
    Ensures I E endless (fun _ => True) (compareBy op l r) :=
  bind (V := fun _ => True) (require (fun _ _ => trivial) hop) fun _ _ =>
    bind hl fun _ _ => bind hr fun _ _ => pure trivial

theorem collect {f : γ → EvalM α} {l : List γ} (h : ∀ a ∈ l, Ensures I E endless V (f a)) :
    Ensures I E endless (fun bs => ∀ b ∈ bs, V b) (collect f l) := by
  induction l with
  | nil => exact pure (by simp)
  | cons a l ih =>
    refine bind (h a (by simp)) fun b hb => ?_
    refine bind (ih fun c hc => h c (by simp [hc])) fun bs hbs => ?_
    exact pure (by simpa using ⟨hb, hbs⟩)

theorem sequence {f : γ → EvalM α} {l : List γ} {last : α} (hlast : V last)
    (h : ∀ a ∈ l, Ensures I E endless V (f a)) :
    Ensures I E endless V (sequence f last l) := by
  induction l generalizing last with
  | nil => exact pure hlast
  | cons a l ih => exact bind (h a (by simp)) fun b hb => ih hb fun c hc => h c (by simp [hc])

/-- The body keeps an invariant of its own, which is left for the caller's at the end. -/
theorem inCall {name : String} {locals : Table Float} {x : EvalM α}
    (hdeep : ∀ p, I p → p.context.limit ≤ p.context.depth →
      E (.callTooDeep p.context.depth p.context.limit))
    (henter : ∀ p, I p → p.context.depth < p.context.limit → J (p.entered name locals))
    (hx : Ensures J E endless V x) (hleave : ∀ p q, I p → J q → I (p.left q)) :
    Ensures I E endless V (inCall name locals x) := by
  intro p hI
  rcases Nat.lt_or_ge p.context.depth p.context.limit with hlt | hge
  · rw [inCall_of_lt _ _ _ hlt]
    have h := hx _ (henter p hI hlt)
    cases hp : x (p.entered name locals) with
    | value a after =>
      rw [hp] at h
      exact ⟨h.1, hleave p after hI h.2⟩
    | failure error after =>
      rw [hp] at h
      exact ⟨h.1, hleave p after hI h.2⟩
    | outOfFuel =>
      rw [hp] at h
      exact h
  · rw [inCall_of_le _ _ _ hge]
    exact ⟨hdeep p hI hge, hI⟩

end Ensures

/-! Two runs -/

/-- How two runs end that go side by side: both with values that `V` relates, both with errors that
`E` relates, or both without an end, at progress that `R` relates. An error that `stop` accepts may
end the first run whatever the second one does. -/
inductive Outcome.Match (R : Progress → Progress → Prop) (E : EvalError → EvalError → Prop)
    (stop : EvalError → Prop) (V : α → β → Prop) : Outcome α → Outcome β → Prop
  | value {a : α} {b : β} {p q : Progress} : V a b → R p q → Match R E stop V (.value a p) (.value b q)
  | failure {error error' : EvalError} {p q : Progress} : E error error' → R p q →
      Match R E stop V (.failure error p) (.failure error' q)
  | outOfFuel : Match R E stop V .outOfFuel .outOfFuel
  | stopped {error : EvalError} {p : Progress} {other : Outcome β} : stop error →
      Match R E stop V (.failure error p) other

/-- Started at progress that `R` relates, the computations end side by side. -/
def Lockstep (R : Progress → Progress → Prop) (E : EvalError → EvalError → Prop)
    (stop : EvalError → Prop) (V : α → β → Prop) (x : EvalM α) (y : EvalM β) : Prop :=
  ∀ p q, R p q → (x p).Match R E stop V (y q)

namespace Lockstep

variable {R S : Progress → Progress → Prop} {E : EvalError → EvalError → Prop}
  {stop : EvalError → Prop} {V : α → β → Prop} {W : γ → δ → Prop}

theorem pure {a : α} {b : β} (h : V a b) : Lockstep R E stop V (pure a) (pure b) :=
  fun _ _ hR => .value h hR

theorem fail {error error' : EvalError} (h : E error error') :
    Lockstep R E stop V (EvalM.fail error) (EvalM.fail error') :=
  fun _ _ hR => .failure h hR

theorem bind {x : EvalM α} {y : EvalM β} {f : α → EvalM γ} {g : β → EvalM δ}
    (hx : Lockstep R E stop V x y) (hf : ∀ a b, V a b → Lockstep R E stop W (f a) (g b)) :
    Lockstep R E stop W (x >>= f) (y >>= g) := by
  intro p q hR
  have h := hx p q hR
  change (EvalM.bind x f p).Match R E stop W (EvalM.bind y g q)
  unfold EvalM.bind
  generalize x p = first at h ⊢
  generalize y q = second at h ⊢
  cases h with
  | value hV hR' => exact hf _ _ hV _ _ hR'
  | failure hE hR' => exact .failure hE hR'
  | outOfFuel => exact .outOfFuel
  | stopped hstop => exact .stopped hstop

theorem bind_eq {x y : EvalM α} {f : α → EvalM γ} {g : α → EvalM δ}
    (hx : Lockstep R E stop Eq x y) (hf : ∀ a, Lockstep R E stop W (f a) (g a)) :
    Lockstep R E stop W (x >>= f) (y >>= g) :=
  bind hx fun a _ hab => hab ▸ hf a

theorem require {found : Option α} {found' : Option β} {error error' : EvalError}
    (hfound : Option.Rel V found found') (herror : E error error') :
    Lockstep R E stop V (require found error) (require found' error') := by
  cases hfound with
  | some hV => exact pure hV
  | none => exact fail herror

theorem require_eq (found : Option α) {error error' : EvalError} (herror : E error error') :
    Lockstep R E stop Eq (EvalM.require found error) (EvalM.require found error') := by
  cases found with
  | none => exact fail herror
  | some a => exact pure rfl

theorem read {f : Context → Option α} {g : Context → Option β} {error error' : EvalError}
    (h : ∀ p q, R p q → Option.Rel V (f p.context) (g q.context)) (herror : E error error') :
    Lockstep R E stop V (context >>= fun c => EvalM.require (f c) error)
      (context >>= fun c => EvalM.require (g c) error') :=
  fun p q hR => require (h p q hR) herror p q hR

theorem read_eq {f g : Context → Option α} {error error' : EvalError}
    (h : ∀ p q, R p q → f p.context = g q.context) (herror : E error error') :
    Lockstep R E stop Eq (context >>= fun c => EvalM.require (f c) error)
      (context >>= fun c => EvalM.require (g c) error') := by
  intro p q hR
  change Outcome.Match R E stop Eq (EvalM.require (f p.context) error p)
    (EvalM.require (g q.context) error' q)
  rw [h p q hR]
  exact require_eq _ herror p q hR

theorem findFunction {name name' : String} {count : Nat} {V : Function → Function → Prop}
    (h : ∀ p q, R p q →
      Option.Rel V (p.context.functions.get? name) (q.context.functions.get? name'))
    (hV : ∀ f g, V f g → f.arity = g.arity)
    (hnone : E (.undefinedFunction name) (.undefinedFunction name'))
    (harity : ∀ n, E (.arityMismatch name n count) (.arityMismatch name' n count)) :
    Lockstep R E stop V (findFunction name count) (findFunction name' count) := by
  rw [findFunction_eq, findFunction_eq]
  refine bind (read h hnone) fun f g hfg => ?_
  rw [hV f g hfg]
  split
  · exact pure hfg
  · exact fail (harity _)

theorem modify {f g : Context → Context}
    (h : ∀ p q, R p q → R { p with context := f p.context } { q with context := g q.context }) :
    Lockstep R E stop Eq (EvalM.modify f) (EvalM.modify g) :=
  fun p q hR => .value rfl (h p q hR)

theorem declareFunction {f g : Function} (h : ∀ p q, R p q → R (p.declared f) (q.declared g)) :
    Lockstep R E stop Eq (declareFunction f) (declareFunction g) :=
  fun p q hR => .value rfl (h p q hR)

theorem compareBy {op : String} {l r l' r' : EvalM Float} {V : Float → Float → Prop}
    (hop : E (.unknownOperator op) (.unknownOperator op))
    (hl : Lockstep R E stop V l l') (hr : Lockstep R E stop V r r')
    (hholds : ∀ (op : Comparison) x x' y y', V x x' → V y y' → op.holds x y = op.holds x' y') :
    Lockstep R E stop Eq (compareBy op l r) (compareBy op l' r') :=
  bind_eq (require_eq _ hop) fun op =>
    bind hl fun x x' hx => bind hr fun y y' hy => pure (hholds op x x' y y' hx hy)

theorem collect {f : α → EvalM γ} {g : β → EvalM δ} {l : List α} {l' : List β}
    (hl : List.Forall₂ V l l') (h : ∀ a b, a ∈ l → V a b → Lockstep R E stop W (f a) (g b)) :
    Lockstep R E stop (List.Forall₂ W) (collect f l) (collect g l') := by
  induction hl with
  | nil => exact pure .nil
  | cons hab _ ih =>
    refine bind (h _ _ (by simp) hab) fun c d hcd => ?_
    refine bind (ih fun a b ha => h a b (by simp [ha])) fun cs ds hcds => ?_
    exact pure (.cons hcd hcds)

theorem collect_eq {f g : α → EvalM γ} {l : List α}
    (h : ∀ a ∈ l, Lockstep R E stop Eq (f a) (g a)) :
    Lockstep R E stop Eq (EvalM.collect f l) (EvalM.collect g l) := by
  rw [← List.forall₂_eq_eq_eq]
  refine collect (V := Eq) (by simp) ?_
  rintro a _ ha rfl
  exact h a ha

theorem sequence {f : α → EvalM γ} {g : β → EvalM δ} {l : List α} {l' : List β} {last : γ}
    {last' : δ} (hl : List.Forall₂ V l l') (hlast : W last last')
    (h : ∀ a b, a ∈ l → V a b → Lockstep R E stop W (f a) (g b)) :
    Lockstep R E stop W (sequence f last l) (sequence g last' l') := by
  induction hl generalizing last last' with
  | nil => exact pure hlast
  | cons hab _ ih =>
    exact bind (h _ _ (by simp) hab) fun _ _ hcd => ih hcd fun a b ha => h a b (by simp [ha])

theorem sequence_eq {f g : α → EvalM γ} {l : List α} {last : γ}
    (h : ∀ a ∈ l, Lockstep R E stop Eq (f a) (g a)) :
    Lockstep R E stop Eq (EvalM.sequence f last l) (EvalM.sequence g last l) := by
  refine sequence (V := Eq) (by simp) rfl ?_
  rintro a _ ha rfl
  exact h a ha

theorem repeatWhile {test test' : EvalM Bool} {x : EvalM α} {y : EvalM β} {last : α} {last' : β}
    (ht : Lockstep R E stop Eq test test') (hx : Lockstep R E stop V x y) (n : Nat)
    (hlast : V last last') :
    Lockstep R E stop V (repeatWhile test x n last) (repeatWhile test' y n last') := by
  induction n generalizing last last' with
  | zero => exact fun _ _ _ => .outOfFuel
  | succ n ih =>
    refine bind_eq ht fun holds => ?_
    cases holds with
    | true => exact bind hx fun _ _ hab => ih hab
    | false => exact pure hlast

/-- The bodies keep a relation of their own, which is left for the callers' at the end. -/
theorem inCall {name name' : String} {locals locals' : Table Float} {x : EvalM α} {y : EvalM β}
    (hdeep : ∀ p q, R p q → p.context.limit ≤ p.context.depth →
      Outcome.Match R E stop V (.failure (.callTooDeep p.context.depth p.context.limit) p)
        (EvalM.inCall name' locals' y q))
    (henter : ∀ p q, R p q → p.context.depth < p.context.limit →
      q.context.depth < q.context.limit ∧ S (p.entered name locals) (q.entered name' locals'))
    (hx : Lockstep S E stop V x y) (hleave : ∀ p q p' q', R p q → S p' q' → R (p.left p') (q.left q')) :
    Lockstep R E stop V (EvalM.inCall name locals x) (EvalM.inCall name' locals' y) := by
  intro p q hR
  rcases Nat.lt_or_ge p.context.depth p.context.limit with hlt | hge
  · obtain ⟨hlt', hS⟩ := henter p q hR hlt
    rw [inCall_of_lt _ _ _ hlt, inCall_of_lt _ _ _ hlt']
    have h := hx _ _ hS
    generalize x (p.entered name locals) = first at h ⊢
    generalize y (q.entered name' locals') = second at h ⊢
    cases h with
    | value hV hS' => exact .value hV (hleave p q _ _ hR hS')
    | failure hE hS' => exact .failure hE (hleave p q _ _ hR hS')
    | outOfFuel => exact .outOfFuel
    | stopped hstop => exact .stopped hstop
  · rw [inCall_of_le _ _ _ hge]
    exact hdeep p q hR hge

end Lockstep

end Reckoner
