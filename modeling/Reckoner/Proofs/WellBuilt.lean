import Mathlib.Data.List.Nodup
import Reckoner.Proofs.Occurrence

/-! Well built expressions. In whatever the constructors that check their parts build, every block has
a content and every declaration has distinct parameters, at every depth. -/

namespace Reckoner

theorem firstRepeat_eq_none_iff (seen names : List String) :
    firstRepeat seen names = none ↔ names.Nodup ∧ ∀ name ∈ names, name ∉ seen := by
  induction names generalizing seen with
  | nil => simp [firstRepeat]
  | cons name rest ih =>
    by_cases hseen : name ∈ seen
    · simp [firstRepeat, hseen]
    · simp only [firstRepeat, hseen, if_false, ih, List.mem_cons, not_or, List.nodup_cons]
      grind

namespace Expr

theorem ofBlock_eq_ok_iff {body : List Expr} {e : Expr} :
    ofBlock body = .ok e ↔ body ≠ [] ∧ e = .block body := by
  cases body with
  | nil => simp [ofBlock]
  | cons x rest => simp [ofBlock, eq_comm]

theorem ofFunction_eq_ok_iff {name : String} {params : List String} {body e : Expr} :
    ofFunction name params body = .ok e ↔ params.Nodup ∧ e = .declare name params body := by
  have hdistinct := firstRepeat_eq_none_iff [] params
  simp only [List.not_mem_nil, not_false_eq_true, implies_true, and_true] at hdistinct
  unfold ofFunction
  split
  next param hrepeat => simp [← hdistinct, hrepeat]
  next hnone => simp [hdistinct.mp hnone, eq_comm]

/-- Every block has a content and every declaration has distinct parameters. -/
structure WellBuilt (e : Expr) : Prop where
  blocks : ¬ Within (.block []) e
  params : ∀ name params body, Within (.declare name params body) e → params.Nodup

/-- What can be built with the constructors that check their parts. -/
inductive Built : Expr → Prop
  | literal (value : Float) : Built (.literal value)
  | unary (op : String) {x : Expr} : Built x → Built (.unary op x)
  | binary (op : String) {l r : Expr} : Built l → Built r → Built (.binary op l r)
  | assign (name : String) {x : Expr} : Built x → Built (.assign name x)
  | var (name : String) : Built (.var name)
  | condition (test : Condition) : Built test.left → Built test.right → Built (ofCondition test)
  | ifElse (test : Condition) {t e : Expr} : Built test.left → Built test.right → Built t →
      Built e → Built (.ifElse test t e)
  | block {body : List Expr} {e : Expr} : (∀ x ∈ body, Built x) → ofBlock body = .ok e → Built e
  | whileLoop (test : Condition) {body : Expr} : Built test.left → Built test.right →
      Built body → Built (.whileLoop test body)
  | function {name : String} {params : List String} {body e : Expr} : Built body →
      ofFunction name params body = .ok e → Built e
  | call (name : String) {args : List Expr} : (∀ x ∈ args, Built x) → Built (.call name args)

namespace WellBuilt

theorem part {e x : Expr} (h : e.WellBuilt) (hx : x ∈ e.parts) : x.WellBuilt :=
  ⟨fun hwithin => h.blocks (hwithin.tail hx),
    fun name params body hwithin => h.params name params body (hwithin.tail hx)⟩

theorem of_parts {e : Expr} (hblock : e ≠ .block [])
    (hparams : ∀ name params body, e = .declare name params body → params.Nodup)
    (hparts : ∀ x ∈ e.parts, x.WellBuilt) : e.WellBuilt := by
  constructor
  · intro hwithin
    rcases within_iff.mp hwithin with heq | ⟨x, hx, hin⟩
    · exact hblock heq.symm
    · exact (hparts x hx).blocks hin
  · intro name params body hwithin
    rcases within_iff.mp hwithin with heq | ⟨x, hx, hin⟩
    · exact hparams name params body heq.symm
    · exact (hparts x hx).params name params body hin

end WellBuilt

theorem Built.wellBuilt {e : Expr} (h : Built e) : e.WellBuilt := by
  induction h with
  | literal value => exact .of_parts (by simp) (by simp) (by simp)
  | unary op _ hx => exact .of_parts (by simp) (by simp) (by simpa using hx)
  | binary op _ _ hl hr => exact .of_parts (by simp) (by simp) (by simpa using ⟨hl, hr⟩)
  | assign name _ hx => exact .of_parts (by simp) (by simp) (by simpa using hx)
  | var name => exact .of_parts (by simp) (by simp) (by simp)
  | condition test _ _ hl hr =>
    exact .of_parts (by simp [ofCondition]) (by simp [ofCondition])
      (by simpa [ofCondition] using ⟨hl, hr⟩)
  | ifElse test _ _ _ _ hl hr ht he =>
    exact .of_parts (by simp [Expr.ifElse]) (by simp [Expr.ifElse])
      (by simpa [Expr.ifElse] using ⟨hl, hr, ht, he⟩)
  | block _ hbuild hbody =>
    obtain ⟨hne, rfl⟩ := ofBlock_eq_ok_iff.mp hbuild
    exact .of_parts (by simpa using hne) (by simp) hbody
  | whileLoop test _ _ _ hl hr hbody =>
    exact .of_parts (by simp [Expr.whileLoop]) (by simp [Expr.whileLoop])
      (by simpa [Expr.whileLoop] using ⟨hl, hr, hbody⟩)
  | function _ hbuild hbody =>
    obtain ⟨hdistinct, rfl⟩ := ofFunction_eq_ok_iff.mp hbuild
    exact .of_parts (by simp) (by rintro _ _ _ ⟨⟩; exact hdistinct) (by simpa using hbody)
  | call name _ hargs => exact .of_parts (by simp) (by simp) hargs

end Expr

end Reckoner
