import Mathlib.Data.List.Forall2
import Reckoner.Proofs.Reading

/-! When a record is read, and as what. The fields of a record get their values by their keys from an
object or by their places from an array, and a field that is left out needs a value for that case. The
errors of a reader play no part in this, so one description serves the readers of values and of texts. -/

namespace Reckoner

variable {α β γ ε δ ν ν' : Type}

theorem bind_eq_ok_iff {x : Except ε α} {f : α → Except ε β} {b : β} :
    x >>= f = .ok b ↔ ∃ a, x = .ok a ∧ f a = .ok b := by
  cases x with
  | error e => simp [bind, Except.bind]
  | ok a => simp [bind, Except.bind]

theorem map_eq_ok_iff {x : Except ε α} {f : α → β} {b : β} :
    x.map f = .ok b ↔ ∃ a, x = .ok a ∧ f a = b := by
  cases x with
  | error e => simp [Except.map]
  | ok a => simp [Except.map]

theorem mapError_eq_ok_iff {x : Except ε α} {f : ε → δ} {a : α} :
    x.mapError f = .ok a ↔ x = .ok a := by
  cases x with
  | error e => simp [Except.mapError]
  | ok b => simp [Except.mapError]

theorem mapM_eq_ok_iff {f : α → Except ε β} {l : List α} {bs : List β} :
    l.mapM f = .ok bs ↔ List.Forall₂ (fun a b => f a = .ok b) l bs := by
  induction l generalizing bs with
  | nil => simp [pure, Except.pure, eq_comm]
  | cons a l ih =>
    rw [List.mapM_cons, List.forall₂_cons_left_iff, bind_eq_ok_iff]
    apply exists_congr
    intro b
    rw [bind_eq_ok_iff]
    simp only [ih, pure, Except.pure, Except.ok.injEq]
    grind

theorem forall₂_congr_left {R : α → γ → Prop} {S : β → γ → Prop} {l : List α} {l' : List β}
    (h : List.Forall₂ (fun a b => ∀ c, R a c ↔ S b c) l l') (u : List γ) :
    List.Forall₂ R l u ↔ List.Forall₂ S l' u := by
  induction h generalizing u with
  | nil => simp
  | cons hab _ ih => simp only [List.forall₂_cons_left_iff, hab, ih]

namespace Values

/-- The fields get these values from what `find` knows under their keys. -/
def Given (reads : (content : Content) → ν → content.Carrier → Prop) (find : String → Option ν) :
    (fields : List Field) → Values fields → Prop
  | [], _ => True
  | field :: rest, (value, values) =>
      ((∃ item, find field.key = some item ∧ reads field.content item value) ∨
        find field.key = none ∧ field.content.absent? = some value) ∧ Given reads find rest values

/-- The fields get these values from the items, one after another, and no item is left. -/
def Listed (reads : (content : Content) → ν → content.Carrier → Prop) :
    List ν → (fields : List Field) → Values fields → Prop
  | items, [], _ => items = []
  | [], field :: rest, (value, values) =>
      field.content.absent? = some value ∧ Listed reads [] rest values
  | item :: items, field :: rest, (value, values) =>
      reads field.content item value ∧ Listed reads items rest values

def Alike (reads : (content : Content) → ν → content.Carrier → Prop)
    (reads' : (content : Content) → ν' → content.Carrier → Prop) (item : ν) (item' : ν') : Prop :=
  ∀ content value, reads content item value ↔ reads' content item' value

section Congruence

variable {reads : (content : Content) → ν → content.Carrier → Prop}
  {reads' : (content : Content) → ν' → content.Carrier → Prop} {fields : List Field}
  {values : Values fields}

theorem given_congr {find : String → Option ν} {find' : String → Option ν'}
    (h : ∀ key, Option.Rel (Alike reads reads') (find key) (find' key)) :
    values.Given reads find ↔ values.Given reads' find' := by
  induction fields with
  | nil => exact Iff.rfl
  | cons field rest ih =>
    obtain ⟨value, values⟩ := values
    have hfield := h field.key
    simp only [Given, ih]
    generalize find field.key = found at hfield
    generalize find' field.key = found' at hfield
    cases hfield with
    | none => simp
    | some hitem => simp [hitem field.content value]

theorem listed_congr {items : List ν} {items' : List ν'}
    (h : List.Forall₂ (Alike reads reads') items items') :
    Listed reads items fields values ↔ Listed reads' items' fields values := by
  induction fields generalizing items items' with
  | nil => cases h <;> simp [Listed]
  | cons field rest ih =>
    obtain ⟨value, values⟩ := values
    cases h with
    | nil => simp only [Listed, ih .nil]
    | cons hitem hitems => simp only [Listed, hitem field.content value, ih hitems]

end Congruence

end Values

def Reads (read : (content : Content) → ν → Except ε content.Carrier) (content : Content) (item : ν)
    (value : content.Carrier) : Prop := read content item = .ok value

theorem Values.ofItems_nil (read : (content : Content) → ν → Except ε content.Carrier) (short : ε)
    (field : Field) (rest : List Field) :
    Values.ofItems read short (field :: rest) [] =
      match field.content.absent? with
      | some value => (Values.ofItems read short rest []).map fun found =>
          ((value, found.1), found.2)
      | none => .error short := rfl

theorem Values.ofItems_cons (read : (content : Content) → ν → Except ε content.Carrier) (short : ε)
    (field : Field) (rest : List Field) (item : ν) (items : List ν) :
    Values.ofItems read short (field :: rest) (item :: items) =
      read field.content item >>= fun value =>
        (Values.ofItems read short rest items).map fun found => ((value, found.1), found.2) := rfl

theorem Values.ofItems_eq_ok_iff (read : (content : Content) → ν → Except ε content.Carrier)
    (short : ε) {fields : List Field} {items : List ν} {values : Values fields} :
    Values.ofItems read short fields items = .ok (values, []) ↔
      Values.Listed (Reads read) items fields values := by
  induction fields generalizing items with
  | nil =>
    cases values
    change Except.ok ((), items) = .ok ((), []) ↔ _
    cases items <;> simp [Listed]
  | cons field rest ih =>
    obtain ⟨value, values⟩ := values
    -- a pair of values is found exactly if its parts are
    have hpair (first : field.content.Carrier) (items : List ν) :
        ((ofItems read short rest items).map fun found => ((first, found.1), found.2)) =
            .ok ((value, values), []) ↔
          first = value ∧ Listed (Reads read) items rest values := by
      rw [map_eq_ok_iff, ← ih]
      constructor
      · rintro ⟨⟨others, left⟩, hothers, heq⟩
        cases heq
        exact ⟨rfl, hothers⟩
      · rintro ⟨rfl, hothers⟩
        exact ⟨(values, []), hothers, rfl⟩
    cases items with
    | nil =>
      rw [ofItems_nil]
      cases habsent : field.content.absent? with
      | none => simp [Listed, habsent]
      | some other =>
        refine (hpair other []).trans ?_
        simp [Listed, habsent]
    | cons item items =>
      rw [ofItems_cons]
      refine bind_eq_ok_iff.trans ⟨?_, ?_⟩
      · rintro ⟨first, hfirst, hothers⟩
        obtain ⟨rfl, hlisted⟩ := (hpair first items).mp hothers
        exact ⟨hfirst, hlisted⟩
      · rintro ⟨hfirst, hlisted⟩
        exact ⟨value, hfirst, (hpair value items).mpr ⟨rfl, hlisted⟩⟩

theorem Values.ofItems_isEmpty_eq_ok_iff
    (read : (content : Content) → ν → Except ε content.Carrier) (short long : ε)
    {fields : List Field} {items : List ν} {values : Values fields} :
    (Values.ofItems read short fields items >>= fun found =>
      if found.2.isEmpty then pure found.1 else .error long) = .ok values ↔
        Values.Listed (Reads read) items fields values := by
  rw [← Values.ofItems_eq_ok_iff read short, bind_eq_ok_iff]
  constructor
  · rintro ⟨⟨found, left⟩, hfound, hleft⟩
    cases left with
    | nil =>
      cases hleft
      exact hfound
    | cons => cases hleft
  · intro h
    exact ⟨(values, []), h, rfl⟩

theorem Slots.close_push_eq_ok_iff {field : Field} {rest : List Field}
    {slot : Option field.content.Carrier} {slots : Slots rest} {value : field.content.Carrier}
    {values : Values rest} :
    (slots.push slot).close = .ok (value, values) ↔
      slot.or field.content.absent? = some value ∧ slots.close = .ok values := by
  rw [Slots.close_push]
  cases slot.or field.content.absent? with
  | none => simp
  | some other =>
    refine map_eq_ok_iff.trans ⟨?_, ?_⟩
    · rintro ⟨others, hothers, heq⟩
      cases heq
      exact ⟨rfl, hothers⟩
    · rintro ⟨hvalue, hothers⟩
      cases hvalue
      exact ⟨values, hothers, rfl⟩

namespace RecordType

theorem read_eq_ok_iff {type : RecordType α} {invalid : BuildError → ε}
    {record : (title : String) → (fields : List Field) → ν → Except ε (Values fields)} {item : ν}
    {a : α} :
    type.read invalid record item = .ok a ↔
      ∃ values, record type.title type.fields item = .ok values ∧ type.build values = .ok a := by
  unfold read
  simp only [bind_eq_ok_iff, mapError_eq_ok_iff]

theorem nodup_condition : (condition.fields.map Field.key).Nodup := by decide

theorem nodup_fields {tag : String} {type : RecordType Expr}
    (htag : NodeShape.ofTag? tag = some (.record type)) : (type.fields.map Field.key).Nodup := by
  have hmem := mem_of_ofTag? htag
  simp only [List.mem_cons, List.not_mem_nil, or_false] at hmem
  rcases hmem with rfl | rfl | rfl | rfl | rfl | rfl | rfl <;> decide

end RecordType

namespace Json

variable {read : (content : Content) → Json → Except DecodeError content.Carrier}
  {fields : List Field}

theorem leastError_eq_none_iff (errors : List (String × DecodeError)) :
    leastError errors = none ↔ errors = [] := by
  cases errors with
  | nil => simp [leastError]
  | cons error rest =>
    unfold leastError
    grind

theorem leastError_eq {errors : List (String × DecodeError)} {bad : DecodeError}
    (hne : errors ≠ []) (hbad : ∀ error ∈ errors, error.2 = bad) :
    ∃ key, leastError errors = some (key, bad) := by
  induction errors with
  | nil => exact absurd rfl hne
  | cons error rest ih =>
    obtain ⟨key, found⟩ := error
    have hfound : found = bad := hbad (key, found) (by simp)
    cases rest with
    | nil => exact ⟨key, by simp [leastError, hfound]⟩
    | cons other rest =>
      obtain ⟨least, hleast⟩ := ih (by simp) fun error herror => hbad error (by simp [herror])
      unfold leastError
      rw [hleast, hfound]
      by_cases hlt : least < key
      · exact ⟨least, if_pos hlt⟩
      · exact ⟨key, if_neg hlt⟩

theorem readFields_cons (members : List (String × Json)) (field : Field) (rest : List Field) :
    readFields read members (field :: rest) =
      match (members.lookup field.key).map (read field.content) with
      | none => ((readFields read members rest).1.push none, (readFields read members rest).2)
      | some (.ok value) =>
          ((readFields read members rest).1.push (some value), (readFields read members rest).2)
      | some (.error error) =>
          ((readFields read members rest).1.push none,
            (field.key, error) :: (readFields read members rest).2) := rfl

theorem readFields_iff (members : List (String × Json)) {values : Values fields} :
    (readFields read members fields).2 = [] ∧
        (readFields read members fields).1.close = .ok values ↔
      values.Given (Reads read) (members.lookup ·) := by
  induction fields with
  | nil => exact ⟨fun _ => trivial, fun _ => ⟨rfl, rfl⟩⟩
  | cons field rest ih =>
    obtain ⟨value, values⟩ := values
    have hgiven : Values.Given (Reads read) (members.lookup ·) (field :: rest) (value, values) ↔
        ((∃ json, members.lookup field.key = some json ∧ read field.content json = .ok value) ∨
          members.lookup field.key = none ∧ field.content.absent? = some value) ∧
          Values.Given (Reads read) (members.lookup ·) rest values := Iff.rfl
    rw [hgiven, ← ih, readFields_cons]
    cases members.lookup field.key with
    | none =>
      simp only [Option.map_none, Slots.close_push_eq_ok_iff, Option.none_or]
      simp only [reduceCtorEq, false_and, exists_false, false_or, true_and]
      exact and_left_comm
    | some json =>
      simp only [Option.map_some]
      cases hread : read field.content json with
      | error error => simp [hread]
      | ok found =>
        simp only [Slots.close_push_eq_ok_iff, Option.some_or]
        simp only [Option.some.injEq, exists_eq_left', hread, Except.ok.injEq, reduceCtorEq,
          false_and, or_false]
        exact and_left_comm

theorem decodeMembers_eq_ok_iff {members : List (String × Json)} {values : Values fields} :
    decodeMembers read fields members = .ok values ↔
      values.Given (Reads read) (members.lookup ·) := by
  rw [← readFields_iff]
  unfold decodeMembers
  simp only
  cases herrors : leastError (readFields read members fields).2 with
  | none =>
    rw [leastError_eq_none_iff] at herrors
    simp only [mapError_eq_ok_iff, herrors, true_and]
  | some error =>
    have hne : (readFields read members fields).2 ≠ [] := by
      rw [ne_eq, ← leastError_eq_none_iff, herrors]
      simp
    simp [hne]

theorem decodeItems_eq_ok_iff {title : String} {items : List Json} {values : Values fields} :
    decodeItems read title fields items = .ok values ↔
      Values.Listed (Reads read) items fields values :=
  Values.ofItems_isEmpty_eq_ok_iff read _ _

end Json

namespace Json.ParseTree

section Members

variable {read : (content : Content) → ParseTree → Except SourceError content.Carrier}
  {members : List (Option String × ParseTree)} {fields : List Field}

/-- A member passes a field that has another key. -/
theorem readMember_push {field : Field} (slot : Option field.content.Carrier) (slots : Slots fields)
    {member : Option String × ParseTree} (h : member.1 ≠ some field.key) :
    readMember read (field :: fields) (slots.push slot) member =
      (readMember read fields slots member).map (Slots.push slot) := by
  obtain ⟨none | key, tree⟩ := member
  · rfl
  · have hkey : field.key ≠ key := fun heq => h (by rw [heq])
    simp only [readMember, Slots.fill_push, if_neg hkey]
    cases Slots.fill (read · tree) .rejected key fields slots with
    | some filled => rfl
    | none =>
      simp only [Option.map_none]
      split <;> rfl

theorem foldlM_readMember_push {field : Field} (slot : Option field.content.Carrier)
    (slots : Slots fields) (h : ∀ member ∈ members, member.1 ≠ some field.key) :
    members.foldlM (readMember read (field :: fields)) (slots.push slot) =
      (members.foldlM (readMember read fields) slots).map (Slots.push slot) := by
  induction members generalizing slots with
  | nil => rfl
  | cons member members ih =>
    rw [List.foldlM_cons, List.foldlM_cons, readMember_push slot slots (h member (by simp))]
    cases readMember read fields slots member with
    | error e => rfl
    | ok slots => exact ih slots fun member hmember => h member (by simp [hmember])

end Members

end Json.ParseTree

end Reckoner
