import Reckoner.Operator
import Reckoner.Proofs.Delimiting
import Reckoner.Proofs.Occurrence

/-! The text of an expression determines the expression. Its form can be told from the front of the
text and the end of each part from what follows it: an assignment stands without brackets, so a part
ends at a blank only if no equals sign comes next. -/

namespace Reckoner

namespace Expr

/-- The names of an expression are identifiers, a literal is finite, and an operator is one of its
family. -/
def PlainHead : Expr → Prop
  | .literal x => x.isFinite = true
  | .unary op _ => (SignOp.ofSymbol? op).isSome = true
  | .binary op _ _ => (ArithmeticOp.ofSymbol? op).isSome = true
  | .compare op _ _ | .branch op _ _ _ _ | .loop op _ _ _ => (Comparison.ofSymbol? op).isSome = true
  | .assign name _ | .var name | .call name _ => isIdentifier name = true
  | .declare name params _ => isIdentifier name = true ∧ ∀ param ∈ params, isIdentifier param = true
  | .block _ => True

/-- All names, literals and operators are such, those in the bodies of declarations included. -/
def Plain (e : Expr) : Prop := ∀ x, Within x e → x.PlainHead

theorem Plain.head {e : Expr} (h : e.Plain) : e.PlainHead := h e .refl

theorem Plain.part {x e : Expr} (h : e.Plain) (hx : x ∈ e.parts) : x.Plain :=
  fun y hy => h y (hy.tail hx)

theorem plain_of_parts {e : Expr} (hhead : e.PlainHead) (hparts : ∀ x ∈ e.parts, x.Plain) :
    e.Plain := by
  intro y hy
  rcases within_iff.mp hy with rfl | ⟨x, hx, hyx⟩
  · exact hhead
  · exact hparts x hx y hyx

def chars (e : Expr) : List Char := e.text.toList

theorem texts_eq_map (es : List Expr) : texts es = es.map text := by
  induction es with
  | nil => rfl
  | cons e es ih => rw [texts, ih, List.map_cons]

theorem texts_toList (es : List Expr) : (texts es).map String.toList = es.map chars := by
  rw [texts_eq_map, List.map_map]
  rfl

section Text

variable (name op : String) (x l r t e : Expr) (rest : List Char)

/-- Expressions with blanks between them, up to the bracket that closes them. -/
def spaced (items : List Expr) (rest : List Char) : List Char :=
  [' '].intercalate (items.map chars) ++ ')' :: rest

theorem chars_literal (x : Float) :
    (literal x).chars ++ rest = (literalStyle.format x).toList ++ rest := rfl

theorem chars_var : (var name).chars ++ rest = name.toList ++ rest := rfl

def operator? : Expr → Option String
  | .unary op _ | .binary op _ _ | .compare op _ _ => some op
  | _ => none

theorem chars_operation {e : Expr} {op : String} (h : e.operator? = some op) :
    e.chars ++ rest = '(' :: (op.toList ++ ' ' :: spaced e.parts rest) := by
  -- here and below the text is unfolded by computation, since the equations of `text` are costly
  cases e with
  | unary op' x =>
    have htext : (unary op' x).text = "(" ++ op' ++ " " ++ x.text ++ ")" := rfl
    cases h
    simp [chars, htext, spaced]
  | binary op' l r =>
    have htext : (binary op' l r).text = "(" ++ op' ++ " " ++ l.text ++ " " ++ r.text ++ ")" := rfl
    cases h
    simp [chars, htext, spaced]
  | compare op' l r =>
    have htext : (compare op' l r).text = "(" ++ op' ++ " " ++ l.text ++ " " ++ r.text ++ ")" := rfl
    cases h
    simp [chars, htext, spaced]
  | _ => cases h

theorem chars_assign :
    (assign name x).chars ++ rest = name.toList ++ ' ' :: (['=', ' '] ++ (x.chars ++ rest)) := by
  have htext : (assign name x).text = name ++ " = " ++ x.text := rfl
  simp [chars, htext]

theorem chars_branch : (branch op l r t e).chars ++ rest =
    '(' :: ("if".toList ++ ' ' :: '(' ::
      (op.toList ++ ' ' :: spaced [l, r] (' ' :: spaced [t, e] rest))) := by
  have htext : (branch op l r t e).text = "(if (" ++ op ++ " " ++ l.text ++ " " ++ r.text ++ ") " ++
      t.text ++ " " ++ e.text ++ ")" := rfl
  simp [chars, htext, spaced]

theorem chars_loop : (loop op l r x).chars ++ rest =
    '(' :: ("while".toList ++ ' ' :: '(' ::
      (op.toList ++ ' ' :: spaced [l, r] (' ' :: spaced [x] rest))) := by
  have htext : (loop op l r x).text = "(while (" ++ op ++ " " ++ l.text ++ " " ++ r.text ++ ") " ++
      x.text ++ ")" := rfl
  simp [chars, htext, spaced]

theorem chars_block (body : List Expr) : (block body).chars ++ rest =
    '{' :: ([';', ' '].intercalate (body.map chars) ++ '}' :: rest) := by
  have htext : (block body).text = braced (String.intercalate "; " (texts body)) := rfl
  simp [chars, htext, braced, texts_toList]

theorem chars_declare (params : List String) : (declare name params x).chars ++ rest =
    '(' :: ("def".toList ++ ' ' :: (name.toList ++ ' ' :: '(' ::
      ([' '].intercalate (params.map String.toList) ++ ')' :: ' ' :: spaced [x] rest))) := by
  have htext : (declare name params x).text =
      "(def " ++ name ++ " (" ++ String.intercalate " " params ++ ") " ++ x.text ++ ")" := rfl
  simp [chars, htext, spaced]

theorem chars_call (args : List Expr) : (call name args).chars ++ rest =
    name.toList ++ '(' :: ([',', ' '].intercalate (args.map chars) ++ ')' :: rest) := by
  have htext : (call name args).text = name ++ "(" ++ String.intercalate ", " (texts args) ++ ")" := rfl
  simp [chars, htext, texts_toList]

end Text

/-! Forms -/

/-- The forms of expressions that the front of a text tells apart. -/
inductive Form where
  | number
  | name
  | assignment
  | call
  | block
  | operation
  | comparison
  | branch
  | loop
  | declaration
deriving DecidableEq

def form : Expr → Form
  | .literal _ => .number
  | .unary _ _ | .binary _ _ _ => .operation
  | .assign _ _ => .assignment
  | .var _ => .name
  | .compare _ _ _ => .comparison
  | .branch _ _ _ _ _ => .branch
  | .block _ => .block
  | .loop _ _ _ _ => .loop
  | .declare _ _ _ => .declaration
  | .call _ _ => .call

namespace Form

def ofWord (word : String) : Form :=
  if word = "if" then .branch
  else if word = "while" then .loop
  else if word = "def" then .declaration
  else if (Comparison.ofSymbol? word).isSome then .comparison
  else .operation

def ofTail : List Char → Form
  | '(' :: _ => .call
  | ' ' :: '=' :: _ => .assignment
  | _ => .name

def ofText : List Char → Form
  | [] => .name
  | c :: rest =>
      if c = '(' then ofWord (String.ofList (rest.takeWhile inWord))
      else if c = '{' then .block
      else if Json.opensNumber c then .number
      else ofTail ((c :: rest).dropWhile inWord)

theorem ofText_word {word : String} (h : IsWord word.toList) (rest : List Char) :
    ofText ('(' :: (word.toList ++ ' ' :: rest)) = ofWord word := by
  have hblank : Delimited (' ' :: rest) := delimited_cons rfl rest
  simp [ofText, takeWhile_word h hblank]

theorem ofText_name {name : String} (h : isIdentifier name = true) {rest : List Char}
    (hrest : Delimited rest) : ofText (name.toList ++ rest) = ofTail rest := by
  have hdrop := dropWhile_word (isWord_of_isIdentifier h) hrest
  obtain ⟨c, more, hname, hc, -⟩ := exists_of_isIdentifier h
  rw [hname, List.cons_append] at hdrop ⊢
  have hparen : c ≠ '(' := by
    rintro rfl
    contradiction
  have hbrace : c ≠ '{' := by
    rintro rfl
    contradiction
  rw [ofText, if_neg hparen, if_neg hbrace, opensNumber_of_isLetter hc, if_neg Bool.false_ne_true,
    hdrop]

theorem ofTail_of_canFollow {rest : List Char} (h : CanFollow rest) : ofTail rest = .name := by
  cases h with
  | nil => rfl
  | closed rest hc => fin_cases hc <;> rfl
  | spaced rest hc =>
    unfold ofTail
    split
    next heq => cases heq
    next heq =>
      cases heq
      contradiction
    next => rfl

theorem isWord_sign {op : String} (h : (SignOp.ofSymbol? op).isSome = true) :
    IsWord op.toList ∧ ofWord op = .operation := by
  unfold SignOp.ofSymbol? at h
  split at h
  all_goals first | contradiction | exact ⟨by simp [IsWord, inWord, delimiters], rfl⟩

theorem isWord_arithmetic {op : String} (h : (ArithmeticOp.ofSymbol? op).isSome = true) :
    IsWord op.toList ∧ ofWord op = .operation := by
  unfold ArithmeticOp.ofSymbol? at h
  split at h
  all_goals first | contradiction | exact ⟨by simp [IsWord, inWord, delimiters], rfl⟩

theorem isWord_comparison {op : String} (h : (Comparison.ofSymbol? op).isSome = true) :
    IsWord op.toList ∧ ofWord op = .comparison := by
  unfold Comparison.ofSymbol? at h
  split at h
  all_goals first | contradiction | exact ⟨by simp [IsWord, inWord, delimiters], rfl⟩

theorem isWord_keyword {word : String} (h : word ∈ ["if", "while", "def"]) : IsWord word.toList := by
  fin_cases h <;> simp [IsWord, inWord, delimiters]

end Form

/-- The form of an expression can be read from the front of its text. -/
theorem ofText_chars {e : Expr} (h : e.PlainHead) {rest : List Char} (hrest : CanFollow rest) :
    Form.ofText (e.chars ++ rest) = e.form := by
  cases e with
  | literal x =>
    obtain ⟨c, more, hcons, hc⟩ := exists_literal_eq_cons h
    have hparen := Json.ne_of_opensNumber hc (d := '(') rfl
    have hbrace := Json.ne_of_opensNumber hc (d := '{') rfl
    rw [chars_literal, hcons, List.cons_append, Form.ofText, if_neg hparen, if_neg hbrace, if_pos hc]
    rfl
  | unary op x =>
    rw [chars_operation rest rfl, Form.ofText_word (Form.isWord_sign h).1]
    exact (Form.isWord_sign h).2
  | binary op l r =>
    rw [chars_operation rest rfl, Form.ofText_word (Form.isWord_arithmetic h).1]
    exact (Form.isWord_arithmetic h).2
  | assign name x =>
    rw [chars_assign]
    exact Form.ofText_name h (delimited_cons rfl _)
  | var name =>
    rw [chars_var, Form.ofText_name h hrest.delimited]
    exact Form.ofTail_of_canFollow hrest
  | compare op l r =>
    rw [chars_operation rest rfl, Form.ofText_word (Form.isWord_comparison h).1]
    exact (Form.isWord_comparison h).2
  | branch op l r t e =>
    rw [chars_branch]
    exact Form.ofText_word (Form.isWord_keyword (by simp)) _
  | block body =>
    rw [chars_block]
    rfl
  | loop op l r body =>
    rw [chars_loop]
    exact Form.ofText_word (Form.isWord_keyword (by simp)) _
  | declare name params body =>
    rw [chars_declare]
    exact Form.ofText_word (Form.isWord_keyword (by simp)) _
  | call name args =>
    rw [chars_call]
    exact Form.ofText_name h (delimited_cons rfl _)

theorem PlainHead.begins {e : Expr} (h : e.PlainHead) : Begins e.chars := by
  rw [← List.append_nil e.chars]
  cases e with
  | literal x => exact (isWord_literal h).begins.append []
  | var name => exact (isWord_of_isIdentifier h).begins.append []
  | assign name x =>
    rw [chars_assign]
    exact (isWord_of_isIdentifier h).begins.append _
  | call name args =>
    rw [chars_call]
    exact (isWord_of_isIdentifier h).begins.append _
  | block body =>
    rw [chars_block]
    exact ⟨_, _, rfl, .inr (.inl rfl)⟩
  | branch | loop | declare =>
    simp only [chars_branch, chars_loop, chars_declare]
    exact ⟨_, _, rfl, .inl rfl⟩
  | unary | binary | compare =>
    rw [chars_operation [] rfl]
    exact ⟨_, _, rfl, .inl rfl⟩

theorem word_space_inj {word word' : String} (h : IsWord word.toList) (h' : IsWord word'.toList)
    {rest rest' : List Char} (heq : word.toList ++ ' ' :: rest = word'.toList ++ ' ' :: rest') :
    word = word' ∧ rest = rest' := by
  obtain ⟨hword, hrest⟩ :=
    word_append_inj h h' (delimited_cons rfl rest) (delimited_cons rfl rest') heq
  exact ⟨String.toList_injective hword, (List.cons.inj hrest).2⟩

/-- The parts of one expression are told apart from those of another one. -/
def PartsDelimit (a b : Expr) : Prop := ∀ x ∈ a.parts, ∀ y ∈ b.parts, Delimits chars x y

section Parts

variable {a b : Expr} {xs ys : List Expr} {rest rest' : List Char}

theorem PartsDelimit.list_inj (h : PartsDelimit a b) (ha : a.Plain) (hb : b.Plain)
    {separator : List Char} {close : Char} (hmarks : (separator, close) ∈ listMarks)
    (hx : xs ⊆ a.parts) (hy : ys ⊆ b.parts)
    (heq : separator.intercalate (xs.map chars) ++ close :: rest =
      separator.intercalate (ys.map chars) ++ close :: rest') : xs = ys ∧ rest = rest' := by
  apply intercalate_inj hmarks _ _ _ heq
  · intro x hxs y hys
    exact h x (hx hxs) y (hy hys)
  · intro x hxs
    exact (ha.part (hx hxs)).head.begins
  · intro y hys
    exact (hb.part (hy hys)).head.begins

theorem PartsDelimit.spaced_inj (h : PartsDelimit a b) (ha : a.Plain) (hb : b.Plain)
    (heq : spaced xs rest = spaced ys rest') (hx : xs ⊆ a.parts) (hy : ys ⊆ b.parts) :
    xs = ys ∧ rest = rest' :=
  h.list_inj ha hb (by simp [listMarks]) hx hy heq

theorem PartsDelimit.operation_inj (h : PartsDelimit a b) (ha : a.Plain) (hb : b.Plain)
    {op op' : String} (hop : IsWord op.toList) (hop' : IsWord op'.toList)
    (heq : op.toList ++ ' ' :: spaced xs rest = op'.toList ++ ' ' :: spaced ys rest')
    (hx : xs ⊆ a.parts) (hy : ys ⊆ b.parts) : op = op' ∧ xs = ys ∧ rest = rest' := by
  obtain ⟨hword, htail⟩ := word_space_inj hop hop' heq
  exact ⟨hword, h.spaced_inj ha hb htail hx hy⟩

theorem PlainHead.isWord_operator {e : Expr} (h : e.PlainHead) {op : String}
    (hop : e.operator? = some op) : IsWord op.toList := by
  cases e with
  | unary op' x =>
    cases hop
    exact (Form.isWord_sign h).1
  | binary op' l r =>
    cases hop
    exact (Form.isWord_arithmetic h).1
  | compare op' l r =>
    cases hop
    exact (Form.isWord_comparison h).1
  | _ => cases hop

theorem exists_operator_iff {e : Expr} :
    (∃ op, e.operator? = some op) ↔ e.form = .operation ∨ e.form = .comparison := by
  cases e <;> simp [operator?, form]

theorem eq_of_operator {op : String} (hform : a.form = b.form) (ha : a.operator? = some op)
    (hb : b.operator? = some op) (hparts : a.parts = b.parts) : a = b := by
  cases a with
  | unary | binary | compare =>
    cases ha
    cases b with
    | unary | binary | compare =>
      cases hb
      simp_all [form]
    | _ => cases hb
  | _ => cases ha

/-- An operator may have one operand or two, and then the lists differ. -/
theorem PartsDelimit.operation_delimits (h : PartsDelimit a b) (ha : a.Plain) (hb : b.Plain)
    (hform : a.form = b.form) {op : String} (hop : a.operator? = some op) : Delimits chars a b := by
  intro rest rest' hrest hrest' heq
  obtain ⟨op', hop'⟩ : ∃ op', b.operator? = some op' := by
    rw [exists_operator_iff, ← hform, ← exists_operator_iff]
    exact ⟨op, hop⟩
  rw [chars_operation rest hop, chars_operation rest' hop'] at heq
  obtain ⟨rfl, hparts, rfl⟩ := h.operation_inj ha hb (ha.head.isWord_operator hop)
    (hb.head.isWord_operator hop') (List.cons.inj heq).2 (List.Subset.refl _) (List.Subset.refl _)
  exact ⟨eq_of_operator hform hop hop' hparts, rfl⟩

/-- A declaration up to its body: names are words, and the parameters stand in a list. -/
theorem signature_inj {name name' : String} {params params' : List String}
    (h : isIdentifier name = true ∧ ∀ param ∈ params, isIdentifier param = true)
    (h' : isIdentifier name' = true ∧ ∀ param ∈ params', isIdentifier param = true)
    (heq : name.toList ++ ' ' :: '(' :: ([' '].intercalate (params.map String.toList) ++ ')' :: rest) =
      name'.toList ++ ' ' :: '(' :: ([' '].intercalate (params'.map String.toList) ++ ')' :: rest')) :
    name = name' ∧ params = params' ∧ rest = rest' := by
  obtain ⟨hname, hlist⟩ :=
    word_space_inj (isWord_of_isIdentifier h.1) (isWord_of_isIdentifier h'.1) heq
  have hmarks : ([' '], ')') ∈ listMarks := by simp [listMarks]
  have hparams : params = params' ∧ rest = rest' := by
    apply intercalate_inj hmarks _ _ _ (List.cons.inj hlist).2
    · intro param hparam param' hparam'
      exact delimits_of_isWord (isWord_of_isIdentifier (h.2 param hparam))
        (isWord_of_isIdentifier (h'.2 param' hparam')) fun heq => String.toList_injective heq
    · intro param hparam
      exact (isWord_of_isIdentifier (h.2 param hparam)).begins
    · intro param hparam
      exact (isWord_of_isIdentifier (h'.2 param hparam)).begins
  exact ⟨hname, hparams⟩

/-- Expressions of one form whose parts are told apart are told apart. Behind an operator or a name
the parts stand in lists; the value of an assignment alone ends where the assignment does. -/
theorem PartsDelimit.delimits (h : PartsDelimit a b) (ha : a.Plain) (hb : b.Plain)
    (hform : a.form = b.form) : Delimits chars a b := by
  intro rest rest' hrest hrest' heq
  have hhead := ha.head
  have hhead' := hb.head
  cases a with
  | literal x =>
    cases b with
    | literal y =>
      obtain ⟨htext, rfl⟩ := word_append_inj (isWord_literal hhead) (isWord_literal hhead')
        hrest.delimited hrest'.delimited heq
      rw [literal_injective hhead hhead' (String.toList_injective htext)]
      exact ⟨rfl, rfl⟩
    | _ => cases hform
  | var name =>
    cases b with
    | var name' =>
      obtain ⟨hname, rfl⟩ := word_append_inj (isWord_of_isIdentifier hhead)
        (isWord_of_isIdentifier hhead') hrest.delimited hrest'.delimited heq
      rw [String.toList_injective hname]
      exact ⟨rfl, rfl⟩
    | _ => cases hform
  | assign name x =>
    cases b with
    | assign name' x' =>
      rw [chars_assign, chars_assign] at heq
      obtain ⟨rfl, htail⟩ := word_space_inj (isWord_of_isIdentifier hhead)
        (isWord_of_isIdentifier hhead') heq
      obtain ⟨rfl, rfl⟩ := h x (by simp) x' (by simp) hrest hrest' (List.append_cancel_left htail)
      exact ⟨rfl, rfl⟩
    | _ => cases hform
  | unary | binary | compare => exact h.operation_delimits ha hb hform rfl hrest hrest' heq
  | branch op l r t e =>
    cases b with
    | branch op' l' r' t' e' =>
      simp only [chars_branch, List.cons.injEq, true_and, List.append_cancel_left_eq] at heq
      obtain ⟨rfl, hoperands, htail⟩ := h.operation_inj ha hb (Form.isWord_comparison hhead).1
        (Form.isWord_comparison hhead').1 heq (by simp) (by simp)
      obtain ⟨hbranches, rfl⟩ := h.spaced_inj ha hb (List.cons.inj htail).2 (by simp) (by simp)
      cases hoperands
      cases hbranches
      exact ⟨rfl, rfl⟩
    | _ => cases hform
  | loop op l r body =>
    cases b with
    | loop op' l' r' body' =>
      simp only [chars_loop, List.cons.injEq, true_and, List.append_cancel_left_eq] at heq
      obtain ⟨rfl, hoperands, htail⟩ := h.operation_inj ha hb (Form.isWord_comparison hhead).1
        (Form.isWord_comparison hhead').1 heq (by simp) (by simp)
      obtain ⟨hbody, rfl⟩ := h.spaced_inj ha hb (List.cons.inj htail).2 (by simp) (by simp)
      cases hoperands
      cases hbody
      exact ⟨rfl, rfl⟩
    | _ => cases hform
  | block body =>
    cases b with
    | block body' =>
      rw [chars_block, chars_block] at heq
      obtain ⟨rfl, rfl⟩ := h.list_inj ha hb (by simp [listMarks]) (List.Subset.refl _)
        (List.Subset.refl _) (List.cons.inj heq).2
      exact ⟨rfl, rfl⟩
    | _ => cases hform
  | declare name params body =>
    cases b with
    | declare name' params' body' =>
      simp only [chars_declare, List.cons.injEq, true_and, List.append_cancel_left_eq] at heq
      obtain ⟨rfl, rfl, htail⟩ := signature_inj hhead hhead' heq
      obtain ⟨hbody, rfl⟩ := h.spaced_inj ha hb (List.cons.inj htail).2 (by simp) (by simp)
      cases hbody
      exact ⟨rfl, rfl⟩
    | _ => cases hform
  | call name args =>
    cases b with
    | call name' args' =>
      rw [chars_call, chars_call] at heq
      obtain ⟨hname, htail⟩ := word_append_inj (isWord_of_isIdentifier hhead)
        (isWord_of_isIdentifier hhead') (delimited_cons rfl _) (delimited_cons rfl _) heq
      obtain ⟨rfl, rfl⟩ := h.list_inj ha hb (by simp [listMarks]) (List.Subset.refl _)
        (List.Subset.refl _) (List.cons.inj htail).2
      rw [String.toList_injective hname]
      exact ⟨rfl, rfl⟩
    | _ => cases hform

end Parts

theorem Plain.delimits {a b : Expr} (ha : a.Plain) (hb : b.Plain) : Delimits chars a b := by
  induction a using induction_parts generalizing b with
  | h a ih =>
    intro rest rest' hrest hrest' heq
    have hform : a.form = b.form := by
      rw [← ofText_chars ha.head hrest, heq, ofText_chars hb.head hrest']
    have hparts : PartsDelimit a b := fun x hx y hy => ih x hx (ha.part hx) (hb.part hy)
    exact hparts.delimits ha hb hform hrest hrest' heq

end Expr

/-- Two expressions of one text are the same tree, down to the bits of their literals, if their names
are identifiers, their literals are finite and their operators are those of the language. -/
theorem expression_text_injective {a b : Expr} (ha : a.Plain) (hb : b.Plain) (h : a.text = b.text) :
    a = b := by
  have heq : a.chars ++ [] = b.chars ++ [] := by rw [Expr.chars, h, Expr.chars]
  exact (ha.delimits hb .nil .nil heq).1

/-- An assignment as the operand of a test, with the sign of a zero in it, and a call beside a variable
of the same name. -/
theorem expression_text_injective_signed_zero :
    let zero := Number.ofMagnitude true 0
    let a : Expr := .loop "lt" (.assign "x" (.unary "sub" (.literal zero))) (.call "x" [.var "x"])
      (.block [.var "x"])
    let b := Expr.whileLoop ⟨"lt", .assign "x" (.unary "sub" (.literal zero)), .call "x" [.var "x"]⟩
      (.block [.var "x"])
    a.Plain ∧ b.Plain ∧ a.text = "(while (lt x = (sub -0.0) x(x)) \x7bx\x7d)" ∧ a.text = b.text ∧
      a = b := by
  intro zero a b
  have hname : isIdentifier "x" = true := by simp [isIdentifier, isLetter]
  have hvar : (Expr.var "x").Plain := Expr.plain_of_parts hname (by simp)
  have hfinite : zero.isFinite = true := by decide
  have hzero : (Expr.literal zero).Plain := Expr.plain_of_parts hfinite (by simp)
  have hminus : (Expr.unary "sub" (.literal zero)).Plain :=
    Expr.plain_of_parts rfl (by simpa using hzero)
  have hassign : (Expr.assign "x" (.unary "sub" (.literal zero))).Plain :=
    Expr.plain_of_parts hname (by simpa using hminus)
  have hcall : (Expr.call "x" [.var "x"]).Plain := Expr.plain_of_parts hname (by simpa using hvar)
  have hblock : (Expr.block [.var "x"]).Plain := Expr.plain_of_parts trivial (by simpa using hvar)
  have ha : a.Plain := Expr.plain_of_parts rfl (by simp [a, hassign, hcall, hblock])
  have htext : a.text = "(while (lt x = (sub -0.0) x(x)) \x7bx\x7d)" := by decide +kernel
  exact ⟨ha, ha, htext, rfl, expression_text_injective ha ha rfl⟩

end Reckoner
