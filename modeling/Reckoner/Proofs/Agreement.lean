import Reckoner.Proofs.Denotation

/-! Two ways from a text to an expression. One reads the text into nodes as it goes; the other makes a
value of the text first and decodes that. They accept the same texts and give the same expressions,
whatever the order of the members, as long as no object repeats a key and every number is read. -/

namespace Reckoner.Json

/-! Looking up keys -/

theorem lookup_eq_of_perm {κ α : Type} [BEq κ] [LawfulBEq κ] {l l' : List (κ × α)} (h : l.Perm l')
    (hkeys : (l.map Prod.fst).Nodup) (key : κ) : l.lookup key = l'.lookup key := by
  induction h with
  | nil => rfl
  | cons entry _ ih => rw [List.lookup_cons, List.lookup_cons, ih (List.nodup_cons.mp hkeys).2]
  | swap first second l =>
    obtain ⟨first, x⟩ := first
    obtain ⟨second, y⟩ := second
    have hne : second ≠ first := by
      simp only [List.map_cons, List.nodup_cons, List.mem_cons, not_or] at hkeys
      exact hkeys.1.1
    simp only [List.lookup_cons]
    grind
  | trans hfirst _ ih ih' => rw [ih hkeys, ih' ((hfirst.map Prod.fst).nodup_iff.mp hkeys)]

namespace ParseTree

theorem Denotes.lookup {members : List (Option String × ParseTree)} {pairs : List (String × Json)}
    (h : Denotes (.object members) (.object pairs)) (key : String) :
    Option.Rel Denotes (members.lookup (some key)) (pairs.lookup key) := by
  obtain ⟨hnodup, sorted, hperm, hentries⟩ := denotes_object_iff.mp h
  have hsame := (forall₂_entries_iff.mp hentries).1
  have hkeys := (nodup_keys (hsame ▸ hperm.map Prod.fst)).mpr hnodup
  rw [lookup_eq_of_perm hperm hkeys]
  clear hnodup hsame hkeys hperm h
  induction hentries with
  | nil => exact .none
  | @cons member pair sorted pairs hmember _ ih =>
    obtain ⟨other, tree⟩ := member
    obtain ⟨rfl, hvalue⟩ := hmember
    rw [List.lookup_cons, List.lookup_cons]
    by_cases hkey : key = pair.1
    · subst hkey
      simpa using Option.Rel.some hvalue
    · have hsome : (some key == some pair.1) = false := by simpa using hkey
      have hplain : (key == pair.1) = false := by simpa using hkey
      simpa [hsome, hplain] using ih

/-! Reading members in the order of the text -/

section Members

variable {read : (content : Content) → ParseTree → Except SourceError content.Carrier}
  {fields : List Field} {members : List (Option String × ParseTree)}

theorem fill_eq_none {ε : Type} {read : (content : Content) → Except ε content.Carrier} {repeated : ε}
    {key : String} (h : key ∉ fields.map Field.key) (slots : Slots fields) :
    slots.fill read repeated key = none := by
  induction fields with
  | nil => rfl
  | cons field rest ih =>
    obtain ⟨slot, slots⟩ := slots
    simp only [List.map_cons, List.mem_cons, not_or] at h
    change (slots.push slot).fill read repeated key = none
    rw [Slots.fill_push, if_neg (Ne.symm h.1), ih h.2]
    rfl

/-- A member of no field is passed over. -/
theorem readMember_other {key : String} {tree : ParseTree} (h : key ∉ fields.map Field.key)
    (hformed : tree.wellFormed = true) (slots : Slots fields) :
    readMember read fields slots (some key, tree) = .ok slots := by
  simp only [readMember, fill_eq_none h, hformed, if_true]

theorem push_inj {field : Field} {slot slot' : Option field.content.Carrier}
    {slots slots' : Slots fields} :
    slots.push slot = slots'.push slot' ↔ slot = slot' ∧ slots = slots' := by
  change (slot, slots) = (slot', slots') ↔ _
  exact Prod.mk_inj

/-- A first field takes its member, wherever it stands, and the others are read as without it. -/
theorem foldlM_readMember_push_iff {field : Field} (hfield : field.key ∉ fields.map Field.key)
    (hkeys : (members.map Prod.fst).Nodup) (hformed : ∀ member ∈ members, member.2.wellFormed = true)
    {slot : Option field.content.Carrier} {slots : Slots fields} :
    members.foldlM (readMember read (field :: fields)) ((Slots.empty fields).push none) =
        .ok (slots.push slot) ↔
      (match members.lookup (some field.key) with
        | none => slot = none
        | some tree => ∃ value, read field.content tree = .ok value ∧ slot = some value) ∧
      members.foldlM (readMember read fields) (Slots.empty fields) = .ok slots := by
  cases hlookup : members.lookup (some field.key) with
  | none =>
    have hother : ∀ member ∈ members, member.1 ≠ some field.key := by
      intro member hmember heq
      have hne := List.lookup_eq_none_iff.mp hlookup member hmember
      simp [heq] at hne
    rw [foldlM_readMember_push _ _ hother, map_eq_ok_iff]
    constructor
    · rintro ⟨found, hfound, heq⟩
      obtain ⟨rfl, rfl⟩ := push_inj.mp heq
      exact ⟨rfl, hfound⟩
    · rintro ⟨rfl, hfound⟩
      exact ⟨slots, hfound, rfl⟩
  | some tree =>
    obtain ⟨before, after, rfl, hne⟩ := List.lookup_eq_some_iff.mp hlookup
    have hbefore : ∀ member ∈ before, member.1 ≠ some field.key := by
      intro member hmember heq
      simpa [heq] using hne member hmember
    have hafter : ∀ member ∈ after, member.1 ≠ some field.key := by
      intro member hmember heq
      rw [List.map_append, List.map_cons, List.nodup_append, List.nodup_cons] at hkeys
      exact hkeys.2.1.1 (List.mem_map.mpr ⟨member, hmember, heq⟩)
    have hpassed (slots : Slots fields) :
        readMember read fields slots (some field.key, tree) = .ok slots :=
      readMember_other hfield (hformed (some field.key, tree) (by simp)) slots
    have hown (slots : Slots fields) :
        readMember read (field :: fields) (slots.push none) (some field.key, tree) =
          (read field.content tree).map fun value => slots.push (some value) := by
      simp only [readMember, Slots.fill_push, if_true]
    simp only [List.foldlM_append, List.foldlM_cons, foldlM_readMember_push _ _ hbefore,
      bind_eq_ok_iff, map_eq_ok_iff, hpassed]
    constructor
    · rintro ⟨_, ⟨first, hfirst, rfl⟩, filled, hfilled, hlast⟩
      rw [hown] at hfilled
      obtain ⟨value, hvalue, rfl⟩ := map_eq_ok_iff.mp hfilled
      rw [foldlM_readMember_push _ _ hafter] at hlast
      obtain ⟨last, hrest, heq⟩ := map_eq_ok_iff.mp hlast
      obtain ⟨rfl, rfl⟩ := push_inj.mp heq
      exact ⟨⟨value, hvalue, rfl⟩, first, hfirst, first, rfl, hrest⟩
    · rintro ⟨⟨value, hvalue, rfl⟩, first, hfirst, _, ⟨⟩, hlast⟩
      refine ⟨first.push none, ⟨first, hfirst, rfl⟩, first.push (some value), ?_, ?_⟩
      · rw [hown, hvalue]
        rfl
      · rw [foldlM_readMember_push _ _ hafter, hlast]
        rfl

theorem foldlM_readMember_nil (hkeys : ∀ member ∈ members, ∃ key, member.1 = some key)
    (hformed : ∀ member ∈ members, member.2.wellFormed = true) :
    members.foldlM (readMember read []) (Slots.empty []) = .ok () := by
  induction members with
  | nil => rfl
  | cons member members ih =>
    rw [List.forall_mem_cons] at hkeys hformed
    obtain ⟨other, tree⟩ := member
    obtain ⟨⟨key, rfl⟩, hkeys⟩ := hkeys
    rw [List.foldlM_cons, readMember_other (by simp) hformed.1]
    exact ih hkeys hformed.2

/-- The fields get what stands under their keys, in whatever order the members are read. -/
theorem readMembers_eq_ok_iff (hfields : (fields.map Field.key).Nodup)
    (hkeys : (members.map Prod.fst).Nodup) (hsome : ∀ member ∈ members, ∃ key, member.1 = some key)
    (hformed : ∀ member ∈ members, member.2.wellFormed = true) {values : Values fields} :
    readMembers read fields members = .ok values ↔
      values.Given (Reads read) fun key => members.lookup (some key) := by
  have hclose : readMembers read fields members = .ok values ↔
      ∃ slots, members.foldlM (readMember read fields) (Slots.empty fields) = .ok slots ∧
        slots.close = .ok values := by
    unfold readMembers
    simp only [bind_eq_ok_iff, mapError_eq_ok_iff]
  rw [hclose]
  clear hclose
  induction fields with
  | nil =>
    refine ⟨fun _ => trivial, fun _ => ⟨(), foldlM_readMember_nil hsome hformed, rfl⟩⟩
  | cons field fields ih =>
    obtain ⟨value, values⟩ := values
    rw [List.map_cons, List.nodup_cons] at hfields
    constructor
    · rintro ⟨⟨slot, slots⟩, hfold, hclose⟩
      obtain ⟨hslot, hrest⟩ := (foldlM_readMember_push_iff hfields.1 hkeys hformed).mp hfold
      obtain ⟨hvalue, hvalues⟩ := Slots.close_push_eq_ok_iff.mp hclose
      refine ⟨?_, (ih hfields.2).mp ⟨slots, hrest, hvalues⟩⟩
      cases hlookup : members.lookup (some field.key) with
      | none =>
        rw [hlookup] at hslot
        cases hslot
        exact .inr ⟨hlookup, hvalue⟩
      | some tree =>
        rw [hlookup] at hslot
        obtain ⟨found, hfound, rfl⟩ := hslot
        cases hvalue
        exact .inl ⟨tree, hlookup, hfound⟩
    · rintro ⟨hfield, hrest⟩
      obtain ⟨slots, hfold, hclose⟩ := (ih hfields.2).mpr hrest
      rcases hfield with ⟨tree, hlookup, hread⟩ | ⟨hlookup, habsent⟩
      · refine ⟨slots.push (some value), ?_, Slots.close_push_eq_ok_iff.mpr ⟨rfl, hclose⟩⟩
        refine (foldlM_readMember_push_iff hfields.1 hkeys hformed).mpr ⟨?_, hfold⟩
        change members.lookup (some field.key) = _ at hlookup
        rw [hlookup]
        exact ⟨value, hread, rfl⟩
      · refine ⟨slots.push none, ?_, Slots.close_push_eq_ok_iff.mpr ⟨habsent, hclose⟩⟩
        refine (foldlM_readMember_push_iff hfields.1 hkeys hformed).mpr ⟨?_, hfold⟩
        change members.lookup (some field.key) = _ at hlookup
        rw [hlookup]

theorem readItems_eq_ok_iff {items : List ParseTree} {values : Values fields} :
    readItems read fields items = .ok values ↔ Values.Listed (Reads read) items fields values :=
  Values.ofItems_isEmpty_eq_ok_iff read _ _

end Members

/-! The readers of texts and of values, level by level -/

theorem error_ne_ok {ε α : Type} {error : ε} {value : α} : Except.error error ≠ .ok value := by
  intro h
  cases h

theorem error_iff_error {ε δ α : Type} {error : ε} {error' : δ} {value : α} :
    Except.error error = .ok value ↔ Except.error error' = .ok value :=
  iff_of_false error_ne_ok error_ne_ok

theorem readText_iff {tree : ParseTree} {json : Json} (h : Denotes tree json) {text : String} :
    readText tree = .ok text ↔ decodeText json = .ok text := by
  cases h with
  | numeral hnumeral =>
    rcases number_of_toJson? hnumeral with ⟨value, rfl⟩ | ⟨x, rfl⟩ <;> exact error_iff_error
  | string => simp [readText, decodeText]
  | _ => exact error_iff_error

theorem readNumber_iff {tree : ParseTree} {json : Json} (h : Denotes tree json) {x : Float} :
    readNumber tree = .ok x ↔ decodeNumber json = .ok x := by
  rw [decodeNumber_eq_ok_iff]
  cases h with
  | numeral hnumeral =>
    rw [toFloat?_of_toJson? hnumeral]
    unfold readNumber
    simp only
    split
    next value hvalue => simp [hvalue]
    next hnone => simp [hnone]
  | _ => exact iff_of_false error_ne_ok (Option.some_ne_none x).symm

theorem mapM_iff {α β γ ε δ : Type} {f : α → Except ε γ} {g : β → Except δ γ} {l : List α}
    {l' : List β} (h : List.Forall₂ (fun a b => ∀ c, f a = .ok c ↔ g b = .ok c) l l') {cs : List γ} :
    l.mapM f = .ok cs ↔ l'.mapM g = .ok cs := by
  rw [mapM_eq_ok_iff, mapM_eq_ok_iff]
  exact forall₂_congr_left h cs

theorem readNames_iff {levels : Nat} {tree : ParseTree} {json : Json} (h : Denotes tree json)
    (hlevels : tree.nesting ≤ levels) {names : List String} :
    readNames levels tree = .ok names ↔ decodeNames json = .ok names := by
  cases h with
  | @array items values hitems =>
    obtain ⟨levels, rfl⟩ : ∃ k, levels = k + 1 := ⟨levels - 1, by simp only [nesting] at hlevels; omega⟩
    exact mapM_iff (hitems.imp fun item value hitem text => readText_iff hitem)
  | numeral hnumeral =>
    rcases number_of_toJson? hnumeral with ⟨value, rfl⟩ | ⟨x, rfl⟩ <;> cases levels <;>
      exact error_iff_error
  | _ => cases levels <;> exact error_iff_error

/-- The readers of the two ways agree on everything that is nested no deeper than there are levels. -/
structure ReadersAgree (levels : Nat) : Prop where
  node : ∀ tree json, Denotes tree json → tree.nesting ≤ levels → ∀ e,
    readNode levels tree = .ok e ↔ decodeNode (levels + 1) json = .ok e
  record : ∀ tree json, Denotes tree json → tree.nesting ≤ levels → ∀ title fields,
    (fields.map Field.key).Nodup → ∀ values,
    readRecord levels fields tree = .ok values ↔
      decodeRecord (levels + 1) title fields json = .ok values
  exprs : ∀ tree json, Denotes tree json → tree.nesting ≤ levels → ∀ es,
    readExprs levels tree = .ok es ↔ decodeExprs (levels + 1) json = .ok es

section Levels

variable {levels : Nat}

theorem ReadersAgree.record_iff {α : Type} (h : ReadersAgree levels) {tree : ParseTree} {json : Json}
    (hdenotes : Denotes tree json) (hlevels : tree.nesting ≤ levels) {type : RecordType α}
    (hfields : (type.fields.map Field.key).Nodup) {a : α} :
    type.read .invalid (fun _ fields => readRecord levels fields) tree = .ok a ↔
      type.read .invalid (decodeRecord (levels + 1)) json = .ok a := by
  simp only [RecordType.read_eq_ok_iff, h.record tree json hdenotes hlevels type.title _ hfields]

theorem ReadersAgree.optional_iff (h : ReadersAgree levels) {tree : ParseTree} {json : Json}
    (hdenotes : Denotes tree json) (hlevels : tree.nesting ≤ levels) {found : Option Expr} :
    contentReader levels .optionalExpr tree = .ok found ↔
      Json.contentReader (levels + 1) .optionalExpr json = .ok found := by
  have hnode : (readNode levels tree).map some = .ok found ↔
      (decodeNode (levels + 1) json).map some = .ok found := by
    simp only [map_eq_ok_iff, h.node tree json hdenotes hlevels]
  cases hdenotes with
  | null => exact ⟨fun | rfl => rfl, fun | rfl => rfl⟩
  | numeral hnumeral =>
    rcases number_of_toJson? hnumeral with ⟨value, rfl⟩ | ⟨x, rfl⟩ <;> exact hnode
  | _ => exact hnode

theorem ReadersAgree.alike (h : ReadersAgree levels) {tree : ParseTree} {json : Json}
    (hdenotes : Denotes tree json) (hlevels : tree.nesting ≤ levels) :
    Values.Alike (Reads (contentReader levels)) (Reads (Json.contentReader (levels + 1))) tree
      json := by
  intro content value
  cases content with
  | text => exact readText_iff hdenotes
  | expr => exact h.node tree json hdenotes hlevels value
  | optionalExpr => exact h.optional_iff hdenotes hlevels
  | condition => exact h.record_iff hdenotes hlevels RecordType.nodup_condition
  | names => exact readNames_iff hdenotes hlevels
  | exprs => exact h.exprs tree json hdenotes hlevels value

theorem readNode_tagged_iff (h : ReadersAgree levels) {tag : String} {content : ParseTree} {value : Json}
    (hdenotes : Denotes content value) (hlevels : content.nesting ≤ levels) {e : Expr} :
    readNode (levels + 1) (.object [(some tag, content)]) = .ok e ↔
      decodeNode (levels + 2) (.object [(tag, value)]) = .ok e := by
  rw [readNode_tagged, decodeNode_tagged]
  have hlast : (fun e => if ([] : List (Option String × ParseTree)).isEmpty then pure e
      else .error .rejected) = (pure : Expr → Except SourceError Expr) := rfl
  rw [hlast, bind_pure]
  cases htag : NodeShape.ofTag? tag with
  | none => exact error_iff_error
  | some shape =>
    simp only [readShape, decodeShape]
    cases shape with
    | number => simp only [NodeShape.read, map_eq_ok_iff, readNumber_iff hdenotes]
    | name => simp only [NodeShape.read, map_eq_ok_iff, readText_iff hdenotes]
    | sequence =>
      simp only [NodeShape.read, bind_eq_ok_iff, mapError_eq_ok_iff,
        h.exprs content value hdenotes hlevels]
    | record type => exact h.record_iff hdenotes hlevels (RecordType.nodup_fields htag)

end Levels

/-- A node with a second key is refused, whatever its content is. -/
theorem readNode_ne_ok {levels : Nat} {first second : Option String × ParseTree}
    {more : List (Option String × ParseTree)} {e : Expr} :
    readNode levels (.object (first :: second :: more)) ≠ .ok e := by
  cases levels with
  | zero => exact error_ne_ok
  | succ levels =>
    obtain ⟨none | tag, content⟩ := first
    · exact error_ne_ok
    · rw [readNode_tagged, ne_eq, bind_eq_ok_iff]
      rintro ⟨_, _, ⟨⟩⟩

theorem Denotes.member {members : List (Option String × ParseTree)} {pairs : List (String × Json)}
    (h : Denotes (.object members) (.object pairs)) {member : Option String × ParseTree}
    (hmember : member ∈ members) :
    (∃ key, member.1 = some key) ∧ member.2.wellFormed = true := by
  obtain ⟨-, sorted, hperm, hentries⟩ := denotes_object_iff.mp h
  apply forall_mem_of_forall₂ hentries _ member (hperm.mem_iff.mp hmember)
  intro member pair hpair
  exact ⟨⟨_, hpair.1⟩, hpair.2.wellFormed⟩

theorem Denotes.object_cases {members : List (Option String × ParseTree)}
    {pairs : List (String × Json)} (h : Denotes (.object members) (.object pairs)) :
    (members = [] ∧ pairs = []) ∨
    (∃ tag content value, members = [(some tag, content)] ∧ pairs = [(tag, value)] ∧
      Denotes content value) ∨
    ∃ first second more first' second' more', members = first :: second :: more ∧
      pairs = first' :: second' :: more' := by
  obtain ⟨-, sorted, hperm, hentries⟩ := denotes_object_iff.mp h
  have hlength := hperm.length_eq.trans hentries.length_eq
  match members, pairs with
  | [], [] => exact .inl ⟨rfl, rfl⟩
  | [member], [(tag, value)] =>
    cases List.singleton_perm.mp hperm
    obtain ⟨key, content⟩ := member
    obtain ⟨⟨rfl, hvalue⟩, -⟩ := List.forall₂_cons.mp hentries
    exact .inr (.inl ⟨tag, content, value, rfl, rfl, hvalue⟩)
  | first :: second :: more, first' :: second' :: more' =>
    exact .inr (.inr ⟨first, second, more, first', second', more', rfl, rfl⟩)

section Step

variable {levels : Nat} {tree : ParseTree} {json : Json}

theorem readNode_iff (ih : ∀ k < levels, ReadersAgree k) (h : Denotes tree json)
    (hlevels : tree.nesting ≤ levels) (e : Expr) :
    readNode levels tree = .ok e ↔ decodeNode (levels + 1) json = .ok e := by
  cases h with
  | numeral hnumeral =>
    rcases number_of_toJson? hnumeral with ⟨value, rfl⟩ | ⟨x, rfl⟩ <;> cases levels <;>
      exact error_iff_error
  | string content =>
    apply iff_of_false
    · cases levels <;> exact error_ne_ok
    · unfold decodeNode
      split <;> exact error_ne_ok
  | @object members sorted pairs hperm hnodup hkeys hvalues =>
    obtain ⟨levels, rfl⟩ : ∃ k, levels = k + 1 := ⟨levels - 1, by simp only [nesting] at hlevels; omega⟩
    rcases (Denotes.object hperm hnodup hkeys hvalues).object_cases with ⟨rfl, rfl⟩ |
      ⟨tag, content, value, rfl, rfl, hvalue⟩ | ⟨_, _, _, _, _, _, rfl, rfl⟩
    · exact error_iff_error
    · have hcontent : content.nesting ≤ levels := by
        simpa [nesting, nestingMembers] using hlevels
      exact readNode_tagged_iff (ih levels (Nat.lt_succ_self _)) hvalue hcontent
    · exact iff_of_false readNode_ne_ok error_ne_ok
  | _ => cases levels <;> exact error_iff_error

theorem readRecord_iff (ih : ∀ k < levels, ReadersAgree k) (h : Denotes tree json)
    (hlevels : tree.nesting ≤ levels) (title : String) (fields : List Field)
    (hfields : (fields.map Field.key).Nodup) (values : Values fields) :
    readRecord levels fields tree = .ok values ↔
      decodeRecord (levels + 1) title fields json = .ok values := by
  cases h with
  | numeral hnumeral =>
    rcases number_of_toJson? hnumeral with ⟨value, rfl⟩ | ⟨x, rfl⟩ <;> cases levels <;>
      exact error_iff_error
  | @array items found hitems =>
    obtain ⟨levels, rfl⟩ : ∃ k, levels = k + 1 := ⟨levels - 1, by simp only [nesting] at hlevels; omega⟩
    refine readItems_eq_ok_iff.trans (Iff.trans ?_ decodeRecord_eq_ok_iff.symm)
    apply Values.listed_congr
    apply forall₂_imp_of_mem hitems
    intro item hitem value hvalue
    have hitem := nesting_lt_of_mem_parts (show item ∈ (ParseTree.array items).parts from hitem)
    exact (ih levels (Nat.lt_succ_self _)).alike hvalue (by omega)
  | @object members sorted pairs hperm hnodup hkeys hvalues =>
    obtain ⟨levels, rfl⟩ : ∃ k, levels = k + 1 := ⟨levels - 1, by simp only [nesting] at hlevels; omega⟩
    have hdenotes := Denotes.object hperm hnodup hkeys hvalues
    have hdistinct := (nodup_keys (hkeys ▸ hperm.map Prod.fst)).mpr hnodup
    refine (readMembers_eq_ok_iff hfields hdistinct (fun _ hmember => (hdenotes.member hmember).1)
      fun _ hmember => (hdenotes.member hmember).2).trans (Iff.trans ?_ decodeRecord_eq_ok_iff.symm)
    apply Values.given_congr
    intro key
    have hlookup := hdenotes.lookup key
    have hnesting (part : ParseTree) (hpart : members.lookup (some key) = some part) :
        part.nesting ≤ levels := by
      obtain ⟨before, after, rfl, -⟩ := List.lookup_eq_some_iff.mp hpart
      exact nestingMembers_le_iff.mp (Nat.le_of_succ_le_succ hlevels) (some key, part) (by simp)
    generalize members.lookup (some key) = found at hlookup hnesting
    generalize pairs.lookup key = found' at hlookup
    cases hlookup with
    | none => exact .none
    | some hvalue => exact .some ((ih levels (Nat.lt_succ_self _)).alike hvalue (hnesting _ rfl))
  | _ => cases levels <;> exact error_iff_error

theorem readExprs_iff (ih : ∀ k < levels, ReadersAgree k) (h : Denotes tree json)
    (hlevels : tree.nesting ≤ levels) (es : List Expr) :
    readExprs levels tree = .ok es ↔ decodeExprs (levels + 1) json = .ok es := by
  cases h with
  | numeral hnumeral =>
    rcases number_of_toJson? hnumeral with ⟨value, rfl⟩ | ⟨x, rfl⟩ <;> cases levels <;>
      exact error_iff_error
  | @array items values hitems =>
    obtain ⟨levels, rfl⟩ : ∃ k, levels = k + 1 := ⟨levels - 1, by simp only [nesting] at hlevels; omega⟩
    refine mapM_iff (forall₂_imp_of_mem hitems ?_)
    intro item hitem value hvalue
    have hitem := nesting_lt_of_mem_parts (show item ∈ (ParseTree.array items).parts from hitem)
    exact (ih levels (Nat.lt_succ_self _)).node item value hvalue (by omega)
  | _ => cases levels <;> exact error_iff_error

end Step

theorem agree (levels : Nat) : ReadersAgree levels := by
  induction levels using Nat.strongRecOn with
  | ind levels ih =>
    exact ⟨fun _ _ => readNode_iff ih, fun _ _ => readRecord_iff ih, fun _ _ => readExprs_iff ih⟩

theorem Denotes.ne_array {tree : ParseTree} {json : Json} (h : Denotes tree json)
    (htree : ∀ items, tree ≠ .array items) : ∀ values, json ≠ .array values := by
  cases h with
  | array => exact absurd rfl (htree _)
  | numeral hnumeral =>
    rcases number_of_toJson? hnumeral with ⟨value, rfl⟩ | ⟨x, rfl⟩ <;> simp
  | _ => simp

end ParseTree

/-! Texts -/

section Texts

variable {text : String} {tree : ParseTree} {json : Json}

theorem ofSource_eq_ok_iff (htext : IsText text tree) (hnesting : tree.nesting ≤ nestingLimit)
    (h : tree.Denotes json) (e : Expr) : Expr.ofSource text = .ok e ↔ Encodes json e := by
  have hdepth : json.depth ≤ nestingLimit + 1 := h.depth_le.trans (Nat.succ_le_succ hnesting)
  have hread : Expr.ofSource text = tree.readNode nestingLimit := by
    unfold Expr.ofSource
    rw [htext.read_eq]
    exact bind_pure _
  rw [hread, (ParseTree.agree nestingLimit).node tree json h hnesting,
    decodesNodes (nestingLimit + 1) json hdepth]

/-- Which values a tree denotes makes no difference to what they encode. -/
theorem encodes_iff_of_denotes {value : Json} (h : tree.Denotes json) (hvalue : tree.Denotes value)
    (e : Expr) : Encodes json e ↔ Encodes value e := by
  have hagree := (ParseTree.agree tree.nesting).node
  rw [← decodesNodes (tree.nesting + 1) json h.depth_le,
    ← decodesNodes (tree.nesting + 1) value hvalue.depth_le,
    ← hagree tree json h (Nat.le_refl _), ← hagree tree value hvalue (Nat.le_refl _)]

/-- A value encodes a program: an array its expressions, and any other value its only one. -/
def EncodesProgram : Json → List Expr → Prop
  | .array values, es => List.Forall₂ Encodes values es
  | json, es => ∃ e, es = [e] ∧ Encodes json e

theorem encodesProgram_iff (h : ∀ values, json ≠ .array values) (es : List Expr) :
    EncodesProgram json es ↔ ∃ e, es = [e] ∧ Encodes json e := by
  cases json with
  | array values => exact absurd rfl (h values)
  | _ => exact Iff.rfl

theorem mapM_decode_eq_ok_iff {values : List Json} {es : List Expr} :
    values.mapM decode = .ok es ↔ List.Forall₂ Encodes values es := by
  rw [mapM_eq_ok_iff]
  apply forall₂_congr_left
  rw [List.forall₂_same]
  exact fun value _ e => decodesNodes value.depth value (Nat.le_refl _) e

theorem parse_eq_ok_iff_of_toJson? (htext : IsText text tree) (hnesting : tree.nesting ≤ nestingLimit)
    (h : tree.toJson? = some json) (es : List Expr) :
    Program.parse text = .ok es ↔ EncodesProgram json es := by
  unfold Program.parse Document.toJson?
  simp only [htext.read_eq, if_pos hnesting, if_true, h]
  cases json with
  | array values => exact mapError_eq_ok_iff.trans mapM_decode_eq_ok_iff
  | _ =>
    rw [encodesProgram_iff (by simp), mapError_eq_ok_iff, map_eq_ok_iff]
    apply exists_congr
    intro e
    rw [and_comm, eq_comm]
    exact and_congr_right' (decodesNodes _ _ (Nat.le_refl _) e)

theorem parse_eq_ok_iff (htext : IsText text tree) (hnesting : tree.nesting ≤ nestingLimit)
    (h : tree.Denotes json) (es : List Expr) :
    Program.parse text = .ok es ↔ EncodesProgram json es := by
  obtain ⟨value, htoJson, hvalue⟩ := h.exists_toJson?
  rw [parse_eq_ok_iff_of_toJson? htext hnesting htoJson]
  by_cases harray : ∀ items, tree ≠ .array items
  · rw [encodesProgram_iff (hvalue.ne_array harray), encodesProgram_iff (h.ne_array harray)]
    simp only [encodes_iff_of_denotes hvalue h]
  · push Not at harray
    obtain ⟨items, rfl⟩ := harray
    cases h with
    | array hvalues =>
      cases hvalue with
      | array hfound =>
        apply forall₂_congr_left
        exact ParseTree.forall₂_join hfound hvalues fun _ _ _ h h' => encodes_iff_of_denotes h h'

end Texts

/-! Derivations of texts without blanks -/

theorem StringText.of_plain {chars : List Char}
    (h : ∀ c ∈ chars, 0x20 ≤ c.toNat ∧ c ≠ '"' ∧ c ≠ '\\') : StringText chars chars := by
  induction chars with
  | nil => exact .nil
  | cons c chars ih =>
    rw [List.forall_mem_cons] at h
    exact .plain h.1.1 h.1.2.1 h.1.2.2 (ih h.2)

theorem ValueText.element {text : List Char} {tree : ParseTree} (h : ValueText text tree) :
    ElementText text tree := by
  have hblanks : Blanks [] := nofun
  simpa using ElementText.mk hblanks h hblanks

theorem ValueText.member {text : List Char} {tree : ParseTree} (h : ValueText text tree)
    (key : List Char) (hkey : ∀ c ∈ key, 0x20 ≤ c.toNat ∧ c ≠ '"' ∧ c ≠ '\\') :
    MemberText ('"' :: (key ++ '"' :: ':' :: text)) (String.ofList key) tree := by
  have hblanks : Blanks [] := nofun
  simpa using MemberText.mk hblanks (.of_plain hkey) hblanks h.element

/-- The tree of an assignment with a member that no field takes. -/
def noted (note : ParseTree) : ParseTree :=
  .object [(some "assignment", .object [(some "name", .string (some "x")),
    (some "value", .object [(some "variable", .string (some "y"))]), (some "note", note)])]

theorem elementText_noted {text : List Char} {note : ParseTree} (h : ValueText text note) :
    ElementText ("\x7b\"assignment\":\x7b\"name\":\"x\",".toList ++
      ("\"value\":\x7b\"variable\":\"y\"\x7d,\"note\":".toList ++ (text ++ "\x7d\x7d".toList)))
      (noted note) := by
  have hplain (c : Char) (hc : ∀ d ∈ [c], 0x20 ≤ d.toNat ∧ d ≠ '"' ∧ d ≠ '\\') :
      ValueText ['"', c, '"'] (.string (some (String.ofList [c]))) := .string (.of_plain hc)
  have hname : MemberText "\"name\":\"x\"".toList "name" (.string (some "x")) :=
    (hplain 'x' (by simp)).member "name".toList (by simp)
  have hvalue : MemberText "\"value\":\x7b\"variable\":\"y\"\x7d".toList "value"
      (.object [(some "variable", .string (some "y"))]) :=
    (ValueText.object (.last ((hplain 'y' (by simp)).member "variable".toList (by simp)))).member
      "value".toList (by simp)
  have hnote := h.member "note".toList (by simp)
  have hrecord := ValueText.object (.cons hname (.cons hvalue (.last hnote)))
  have hassignment := hrecord.member "assignment".toList (by simp)
  have hnode := (ValueText.object (.last hassignment)).element
  simpa [noted] using hnode

theorem ofSource_noted {text : String} {n : Numeral} (h : IsText text (noted (.numeral n))) :
    Expr.ofSource text = .ok (.assign "x" (.var "y")) := by
  unfold Expr.ofSource
  rw [h.read_eq]
  rfl

def Numeral.value (n : Numeral) : ℚ :=
  (if n.negative then -1 else 1) * Number.ofDigits (n.whole ++ n.fraction) *
    10 ^ (n.exponent.getD 0 - n.fraction.length)

/-- The number that is written is no larger than the largest double. -/
def Numeral.InRange (n : Numeral) : Prop :=
  |n.value| ≤ (Number.toFraction (Number.infinity - 1)).value

end Reckoner.Json

namespace Reckoner

open Json

/-- Both ways from a text to expressions agree. A text that is not an array is a program of one
expression exactly if it is read as this expression; an array is never read as an expression, and it is
a program exactly if each of its items is decoded, as a value or as a text of its own. Another order of
members changes nothing. -/
theorem readings_agree {text : String} {tree : ParseTree} (htext : IsText text tree)
    (hkeys : tree.DistinctKeys) (hnumbers : tree.EveryNumber fun n => n.toFloat?.isSome)
    (hnesting : tree.nesting ≤ 127) :
    ((∀ items, tree ≠ .array items) → ∀ es,
      Program.parse text = .ok es ↔ ∃ e, es = [e] ∧ Expr.ofSource text = .ok e) ∧
    (∀ items, tree = .array items → (∀ e, Expr.ofSource text ≠ .ok e) ∧
      (∃ values, List.Forall₂ (fun item value => item.toJson? = some value) items values ∧
        ∀ es, Program.parse text = .ok es ↔
          List.Forall₂ (fun value e => value.decode = .ok e) values es) ∧
      ∀ texts, List.Forall₂ IsText texts items → ∀ es, Program.parse text = .ok es ↔
        List.Forall₂ (fun part e => Expr.ofSource part = .ok e) texts es) ∧
    ∀ text' tree', IsText text' tree' → tree.Reordered tree' →
      (∀ e, Expr.ofSource text' = .ok e ↔ Expr.ofSource text = .ok e) ∧
      ∀ es, Program.parse text' = .ok es ↔ Program.parse text = .ok es := by
  obtain ⟨json, hjson⟩ := htext.exists_denotes hkeys hnumbers
  have hsource := ofSource_eq_ok_iff htext hnesting hjson
  have hparse := parse_eq_ok_iff htext hnesting hjson
  refine ⟨fun harray es => ?_, ?_, ?_⟩
  · rw [hparse, encodesProgram_iff (hjson.ne_array harray)]
    simp only [hsource]
  · rintro items rfl
    cases hjson with
    | @array _ values hvalues =>
      refine ⟨fun e he => ?_, ?_, fun texts htexts es => ?_⟩
      · cases (hsource e).mp he
      · obtain ⟨found, hfound⟩ := ParseTree.exists_forall₂
          (ParseTree.forall_mem_of_forall₂ hvalues fun _ _ h => h.exists_toJson?)
        have hdenotes : (ParseTree.array items).Denotes (.array found) :=
          .array (hfound.imp fun _ _ h => h.2)
        refine ⟨found, hfound.imp fun _ _ h => h.1, fun es => ?_⟩
        rw [parse_eq_ok_iff htext hnesting hdenotes, ← mapM_eq_ok_iff]
        exact mapM_decode_eq_ok_iff.symm
      · have hflip : List.Forall₂ (fun item part => IsText part item) items texts :=
          List.Forall₂.flip htexts
        have hitems : List.Forall₂ (fun item part => IsText part item ∧ item.nesting ≤ nestingLimit)
            items texts := by
          apply ParseTree.forall₂_imp_of_mem hflip
          intro item hitem part hpart
          have hlt : item.nesting < (ParseTree.array items).nesting :=
            ParseTree.nesting_lt_of_mem_parts hitem
          exact ⟨hpart, hlt.le.trans hnesting⟩
        rw [hparse]
        apply forall₂_congr_left
        exact ParseTree.forall₂_join hvalues hitems fun _ _ _ hvalue hitem e =>
          (ofSource_eq_ok_iff hitem.1 hitem.2 hvalue e).symm
  · intro text' tree' htext' hreordered
    have hjson' := hreordered.denotes hjson
    have hnesting' := hreordered.nesting_le.trans hnesting
    constructor
    · intro e
      rw [ofSource_eq_ok_iff htext' hnesting' hjson', hsource]
    · intro es
      rw [parse_eq_ok_iff htext' hnesting' hjson', hparse]

/-- The text has a member that belongs to no field. -/
theorem readings_agree_assignment :
    let text := "\x7b\"assignment\":\x7b\"name\":\"x\",\"value\":\x7b\"variable\":\"y\"\x7d,\"note\":1e308\x7d\x7d"
    let tree := noted (.numeral ⟨false, ['1'], [], some 308⟩)
    IsText text tree ∧ tree.DistinctKeys ∧ (tree.EveryNumber fun n => n.toFloat?.isSome) ∧
      tree.nesting ≤ 127 ∧ Program.parse text = .ok [.assign "x" (.var "y")] := by
  intro text tree
  have hwhole : Whole ['1'] := ⟨by simp, by simp, by simp⟩
  have hdigits : DigitText "308".toList := ⟨by simp, by simp⟩
  have hnote : ValueText "1e308".toList (.numeral ⟨false, ['1'], [], some 308⟩) :=
    .numeral (.mk false hwhole .none (.unsigned (.inl rfl) hdigits))
  have htext : IsText text tree := by simpa [IsText, text, tree] using elementText_noted hnote
  have hkeys : tree.DistinctKeys := by simp [tree, noted]
  have hnumbers : tree.EveryNumber fun n => n.toFloat?.isSome := by
    have hfinite : (Numeral.mk false ['1'] [] (some 308)).toFloat?.isSome := by decide +kernel
    simpa [tree, noted] using hfinite
  have hnesting : tree.nesting ≤ 127 := by decide
  refine ⟨htext, hkeys, hnumbers, hnesting, ?_⟩
  rw [(readings_agree htext hkeys hnumbers hnesting).1 (by simp [tree, noted])]
  exact ⟨_, rfl, ofSource_noted htext⟩

/-- A number just below the largest double may round beyond it when its digits and its power of ten are
rounded one after the other. Where such a number stands in a member that no field takes, the text is
read as an expression, and is no program all the same. -/
theorem readings_differ_near_infinity :
    let text := "\x7b\"assignment\":\x7b\"name\":\"x\",\"value\":\x7b\"variable\":\"y\"\x7d,\"note\":17976931348623157081e289\x7d\x7d"
    let tree := noted (.numeral ⟨false, "17976931348623157081".toList, [], some 289⟩)
    IsText text tree ∧ tree.DistinctKeys ∧ tree.EveryNumber Numeral.InRange ∧ tree.nesting ≤ 127 ∧
      (∀ items, tree ≠ .array items) ∧ Expr.ofSource text = .ok (.assign "x" (.var "y")) ∧
      Program.parse text ≠ .ok [.assign "x" (.var "y")] := by
  intro text tree
  have hwhole : Whole "17976931348623157081".toList := ⟨by simp, by simp, by simp⟩
  have hdigits : DigitText "289".toList := ⟨by simp, by simp⟩
  have hnote : ValueText "17976931348623157081e289".toList
      (.numeral ⟨false, "17976931348623157081".toList, [], some 289⟩) :=
    .numeral (.mk false hwhole .none (.unsigned (.inl rfl) hdigits))
  have htext : IsText text tree := by simpa [IsText, text, tree] using elementText_noted hnote
  refine ⟨htext, by simp [tree, noted], ?_, by decide, by simp [tree, noted], ofSource_noted htext, ?_⟩
  · have hrange : (Numeral.mk false "17976931348623157081".toList [] (some 289)).InRange := by
      have hvalue : Number.ofDigits ("17976931348623157081".toList ++ []) = 17976931348623157081 := by
        decide +kernel
      have hmantissa : Number.mantissa (Number.infinity - 1) = 2 ^ 53 - 1 := by decide +kernel
      have hstep : Number.step (Number.infinity - 1) = 2045 := by decide +kernel
      have hle : 17976931348623157081 * 10 ^ 289 ≤ 9007199254740991 * 2 ^ 971 := by decide +kernel
      unfold Numeral.InRange Numeral.value
      rw [Number.value_toFraction, hmantissa, hstep, hvalue, Number.gap]
      norm_num
      exact_mod_cast hle
    simpa [tree, noted] using hrange
  · have hbits : ¬ (Numeral.mk false "17976931348623157081".toList [] (some 289)).decimal.scaled <
        Number.infinity := by decide +kernel
    have hfloat : (Numeral.mk false "17976931348623157081".toList [] (some 289)).toJson? = none := by
      simp only [Numeral.toJson?, Numeral.toFloat?, if_neg hbits]
      simp [Numeral.isIntegral]
    have hnone : tree.toJson? = none := by
      simp only [tree, noted, ParseTree.toJson?, ParseTree.toJsonMembers?, hfloat]
      rfl
    unfold Program.parse Document.toJson?
    simp [htext.read_eq, hnone]

end Reckoner
