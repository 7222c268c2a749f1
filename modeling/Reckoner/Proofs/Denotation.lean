import Mathlib.Data.List.Perm.Basic
import Mathlib.Logic.Relation
import Reckoner.Proofs.Grammar
import Reckoner.Proofs.JsonSyntax

/-! The values that the trees of a text stand for. Members of an object may come in any order, so one
value is denoted by many trees; a tree denotes a value if no object repeats a key and every number is
read as a double. -/

namespace Reckoner.Json

/-! Numbers -/

namespace Numeral

theorem appendDigits_lt {significand : Nat} (h : significand < UInt64.size) (digits : List Char) :
    (appendDigits significand digits).1 < UInt64.size := by
  induction digits generalizing significand with
  | nil => exact h
  | cons c rest ih =>
    rw [appendDigits]
    split
    next hlonger => exact ih hlonger
    next => exact h

theorem decimal_digits_lt (n : Numeral) : n.decimal.digits < UInt64.size :=
  appendDigits_lt (appendDigits_lt (by decide) n.whole) n.fraction

end Numeral

theorem product_powerOfTen_zero {bits : Nat} (h : bits ≤ Number.infinity) :
    Number.product bits (Number.powerOfTen 0) = bits := by
  have hone := Number.Decimal.value_powerOfTen (Nat.zero_le 22)
  rw [pow_zero] at hone
  generalize Number.powerOfTen 0 = one at hone
  calc Number.product bits one
      = Number.nearest ((Number.toFraction bits).mul (Number.toFraction one)) := rfl
    _ = Number.nearest (Number.toFraction bits) := by
        apply Number.nearest_congr
          (Nat.mul_pos (Number.toFraction_den_pos _) (Number.toFraction_den_pos _))
          (Number.toFraction_den_pos _)
        rw [Number.Fraction.value_mul, hone, mul_one]
    _ = bits := Number.nearest_toFraction h

/-- Digits that are not scaled are rounded once. -/
theorem scaled_of_power_zero {d : Number.Decimal} (h : d.power = 0) :
    d.scaled = Number.nearest ⟨d.digits, 1⟩ := by
  have hzero : ¬ (0 : ℤ) < 0 := by decide
  have hsmall : (0 : ℤ).natAbs ≤ Number.largestPower := Nat.zero_le _
  unfold Number.Decimal.scaled
  rw [h]
  simp only [if_neg hzero, if_pos hsmall]
  exact product_powerOfTen_zero (Number.nearest_le_infinity _)

/-- A number that is kept as an integer is the same double as without this. -/
theorem toFloat?_of_toJson? {n : Numeral} {json : Json} (h : n.toJson? = some json) :
    json.toFloat? = n.toFloat? := by
  have hfloat (hpower : n.decimal.power = 0) : n.toFloat? =
      some (Number.ofMagnitude n.negative (Number.nearest ⟨n.decimal.digits, 1⟩)) := by
    have hfinite : Number.nearest ⟨n.decimal.digits, 1⟩ < Number.infinity :=
      lt_of_le_of_lt (Number.Decimal.nearest_digits_le n.decimal_digits_lt) (by decide)
    simp only [Numeral.toFloat?, scaled_of_power_zero hpower, if_pos hfinite]
  unfold Numeral.toJson? at h
  simp only at h
  split at h
  next hcase =>
    obtain ⟨-, hpower, hsign⟩ := hcase
    cases h
    have hnegative : n.negative = false := by simpa using hsign
    have hpositive : ¬ (n.decimal.digits : ℤ) < 0 := by omega
    simp only [hfloat hpower, toFloat?, hnegative, hpositive, decide_false, Int.natAbs_natCast]
  next hcase =>
    split at h
    next hnegatives =>
      obtain ⟨hintegral, hpower, hpos, -⟩ := hnegatives
      cases h
      have hnegative : n.negative = true := by
        by_contra hpositive
        exact hcase ⟨hintegral, hpower, by simpa using hpositive⟩
      have hsign : -(n.decimal.digits : ℤ) < 0 := by omega
      simp only [hfloat hpower, toFloat?, hnegative, hsign, decide_true, Int.natAbs_neg,
        Int.natAbs_natCast]
    next =>
      obtain ⟨x, hx, rfl⟩ := Option.map_eq_some_iff.mp h
      exact hx.symm

theorem exists_toJson? {n : Numeral} (h : n.toFloat?.isSome) : ∃ json, n.toJson? = some json := by
  obtain ⟨x, hx⟩ := Option.isSome_iff_exists.mp h
  unfold Numeral.toJson?
  simp only [hx, Option.map_some]
  split
  · exact ⟨_, rfl⟩
  · split <;> exact ⟨_, rfl⟩

theorem number_of_toJson? {n : Numeral} {json : Json} (h : n.toJson? = some json) :
    (∃ value, json = .integer value) ∨ ∃ x, json = .float x := by
  unfold Numeral.toJson? at h
  simp only at h
  split at h
  · cases h
    exact .inl ⟨_, rfl⟩
  · split at h
    · cases h
      exact .inl ⟨_, rfl⟩
    · obtain ⟨x, -, rfl⟩ := Option.map_eq_some_iff.mp h
      exact .inr ⟨x, rfl⟩

namespace ParseTree

/-! The parts of a tree -/

@[simp] def parts : ParseTree → List ParseTree
  | array items => items
  | object members => members.map Prod.snd
  | _ => []

def Within : ParseTree → ParseTree → Prop := Relation.ReflTransGen fun part tree => part ∈ tree.parts

def DistinctKeys (tree : ParseTree) : Prop :=
  ∀ members, Within (.object members) tree → (members.map Prod.fst).Nodup

def EveryNumber (P : Numeral → Prop) (tree : ParseTree) : Prop :=
  ∀ n, Within (.numeral n) tree → P n

theorem DistinctKeys.part {tree part : ParseTree} (h : tree.DistinctKeys) (hpart : part ∈ tree.parts) :
    part.DistinctKeys := fun members hwithin => h members (hwithin.tail hpart)

theorem EveryNumber.part {P : Numeral → Prop} {tree part : ParseTree} (h : tree.EveryNumber P)
    (hpart : part ∈ tree.parts) : part.EveryNumber P := fun n hwithin => h n (hwithin.tail hpart)

theorem within_iff {part tree : ParseTree} :
    Within part tree ↔ part = tree ∨ ∃ child ∈ tree.parts, Within part child := by
  unfold Within
  rw [Relation.ReflTransGen.cases_tail_iff, eq_comm]
  simp only [and_comm]

@[simp] theorem distinctKeys_object {members : List (Option String × ParseTree)} :
    (object members).DistinctKeys ↔
      (members.map Prod.fst).Nodup ∧ ∀ member ∈ members, member.2.DistinctKeys := by
  constructor
  · intro h
    exact ⟨h members .refl, fun member hmember => h.part (List.mem_map_of_mem hmember)⟩
  · rintro ⟨hnodup, hmembers⟩ inner hwithin
    rcases within_iff.mp hwithin with hsame | ⟨child, hchild, hinner⟩
    · cases hsame
      exact hnodup
    · obtain ⟨member, hmember, rfl⟩ := List.mem_map.mp hchild
      exact hmembers member hmember inner hinner

@[simp] theorem everyNumber_object {P : Numeral → Prop} {members : List (Option String × ParseTree)} :
    (object members).EveryNumber P ↔ ∀ member ∈ members, member.2.EveryNumber P := by
  constructor
  · exact fun h member hmember => h.part (List.mem_map_of_mem hmember)
  · intro h n hwithin
    rcases within_iff.mp hwithin with hsame | ⟨child, hchild, hinner⟩
    · cases hsame
    · obtain ⟨member, hmember, rfl⟩ := List.mem_map.mp hchild
      exact h member hmember n hinner

@[simp] theorem everyNumber_numeral {P : Numeral → Prop} {n : Numeral} :
    (numeral n).EveryNumber P ↔ P n := by
  refine ⟨fun h => h n .refl, fun h other hwithin => ?_⟩
  rcases within_iff.mp hwithin with hsame | ⟨child, hchild, -⟩
  · cases hsame
    exact h
  · cases hchild

@[simp] theorem distinctKeys_numeral (n : Numeral) : (numeral n).DistinctKeys := by
  intro members hwithin
  rcases within_iff.mp hwithin with hsame | ⟨child, hchild, -⟩
  · cases hsame
  · cases hchild

@[simp] theorem distinctKeys_string (content : Option String) : (string content).DistinctKeys := by
  intro members hwithin
  rcases within_iff.mp hwithin with hsame | ⟨child, hchild, -⟩
  · cases hsame
  · cases hchild

@[simp] theorem everyNumber_string {P : Numeral → Prop} (content : Option String) :
    (string content).EveryNumber P := by
  intro n hwithin
  rcases within_iff.mp hwithin with hsame | ⟨child, hchild, -⟩
  · cases hsame
  · cases hchild

theorem nestingItems_le_iff {items : List ParseTree} {levels : Nat} :
    nestingItems items ≤ levels ↔ ∀ item ∈ items, item.nesting ≤ levels := by
  induction items with
  | nil => simp [nestingItems]
  | cons item items ih => simp [nestingItems, ih]

theorem nestingMembers_le_iff {members : List (Option String × ParseTree)} {levels : Nat} :
    nestingMembers members ≤ levels ↔ ∀ member ∈ members, member.2.nesting ≤ levels := by
  induction members with
  | nil => simp [nestingMembers]
  | cons member members ih => simp [nestingMembers, ih]

theorem nesting_lt_of_mem_parts {tree part : ParseTree} (h : part ∈ tree.parts) :
    part.nesting < tree.nesting := by
  cases tree with
  | array items => exact Nat.lt_succ_of_le (nestingItems_le_iff.mp (Nat.le_refl _) part h)
  | object members =>
    obtain ⟨member, hmember, rfl⟩ := List.mem_map.mp h
    exact Nat.lt_succ_of_le (nestingMembers_le_iff.mp (Nat.le_refl _) member hmember)
  | _ => cases h

theorem induction_parts {P : ParseTree → Prop} (h : ∀ tree, (∀ part ∈ tree.parts, P part) → P tree)
    (tree : ParseTree) : P tree :=
  h tree fun part _ => induction_parts h part
termination_by tree.nesting
decreasing_by exact nesting_lt_of_mem_parts ‹_›

/-- A tree stands for a value. The members of an object may come in another order than its pairs. -/
inductive Denotes : ParseTree → Json → Prop
  | null : Denotes .null .null
  | bool (value : Bool) : Denotes (.bool value) (.bool value)
  | numeral {n : Numeral} {json : Json} : n.toJson? = some json → Denotes (.numeral n) json
  | string (content : String) : Denotes (.string (some content)) (.string content)
  | array {items : List ParseTree} {values : List Json} : List.Forall₂ Denotes items values →
      Denotes (.array items) (.array values)
  | object {members sorted : List (Option String × ParseTree)} {pairs : List (String × Json)} :
      members.Perm sorted → (pairs.map Prod.fst).Nodup →
      sorted.map Prod.fst = pairs.map (fun pair => some pair.1) →
      List.Forall₂ Denotes (sorted.map Prod.snd) (pairs.map Prod.snd) →
      Denotes (.object members) (.object pairs)

/-- Trees that differ in the order of members only, at any depth. -/
inductive Reordered : ParseTree → ParseTree → Prop
  | refl (tree : ParseTree) : Reordered tree tree
  | array {items items' : List ParseTree} : List.Forall₂ Reordered items items' →
      Reordered (.array items) (.array items')
  | object {members between members' : List (Option String × ParseTree)} : members.Perm between →
      between.map Prod.fst = members'.map Prod.fst →
      List.Forall₂ Reordered (between.map Prod.snd) (members'.map Prod.snd) →
      Reordered (.object members) (.object members')

theorem forall₂_entries_iff {κ κ' α β : Type} {f : κ' → κ} {R : α → β → Prop} {l : List (κ × α)}
    {l' : List (κ' × β)} :
    List.Forall₂ (fun a b => a.1 = f b.1 ∧ R a.2 b.2) l l' ↔
      l.map Prod.fst = l'.map (fun b => f b.1) ∧
        List.Forall₂ R (l.map Prod.snd) (l'.map Prod.snd) := by
  induction l generalizing l' with
  | nil => cases l' <;> simp
  | cons a l ih =>
    cases l' with
    | nil => simp
    | cons b l' =>
      simp only [List.forall₂_cons, List.map_cons, List.cons.injEq, ih]
      exact and_and_and_comm

theorem denotes_object_iff {members : List (Option String × ParseTree)}
    {pairs : List (String × Json)} :
    Denotes (.object members) (.object pairs) ↔
      (pairs.map Prod.fst).Nodup ∧ ∃ sorted, members.Perm sorted ∧
        List.Forall₂ (fun member pair => member.1 = some pair.1 ∧ Denotes member.2 pair.2) sorted
          pairs := by
  constructor
  · intro h
    cases h with
    | object hperm hnodup hkeys hvalues =>
      exact ⟨hnodup, _, hperm, forall₂_entries_iff.mpr ⟨hkeys, hvalues⟩⟩
  · rintro ⟨hnodup, sorted, hperm, hentries⟩
    obtain ⟨hkeys, hvalues⟩ := forall₂_entries_iff.mp hentries
    exact .object hperm hnodup hkeys hvalues

section Related

variable {α β : Type} {R S : α → β → Prop} {l : List α} {l' : List β}

theorem forall₂_imp_of_mem (h : List.Forall₂ R l l') (himp : ∀ a ∈ l, ∀ b, R a b → S a b) :
    List.Forall₂ S l l' := by
  have hmem : List.Forall₂ (fun a b => a ∈ l ∧ R a b) l l' :=
    (List.forall₂_and_left _ _).mpr ⟨fun _ ha => ha, h⟩
  exact hmem.imp fun a b hab => himp a hab.1 b hab.2

theorem forall_mem_of_forall₂ {P : α → Prop} (h : List.Forall₂ R l l')
    (himp : ∀ a b, R a b → P a) : ∀ a ∈ l, P a :=
  ((List.forall₂_and_left _ _).mp (h.imp fun a b hab => ⟨himp a b hab, hab⟩)).1

theorem exists_mem_of_forall₂ (h : List.Forall₂ R l l') {b : β} (hb : b ∈ l') :
    ∃ a ∈ l, R a b := by
  induction h with
  | nil => cases hb
  | @cons a c l l' hac _ ih =>
    rcases List.mem_cons.mp hb with rfl | hin
    · exact ⟨a, by simp, hac⟩
    · obtain ⟨d, hd, hdb⟩ := ih hin
      exact ⟨d, by simp [hd], hdb⟩

theorem forall₂_join {γ : Type} {Q : α → γ → Prop} {T : β → γ → Prop} {u : List γ}
    (h : List.Forall₂ R l l') (hu : List.Forall₂ Q l u) (himp : ∀ a b c, R a b → Q a c → T b c) :
    List.Forall₂ T l' u := by
  induction h generalizing u with
  | nil =>
    cases hu
    exact .nil
  | cons hab _ ih =>
    cases hu with
    | cons hac hrest => exact .cons (himp _ _ _ hab hac) (ih hrest)

theorem exists_forall₂ (h : ∀ a ∈ l, ∃ b, R a b) : ∃ l', List.Forall₂ R l l' := by
  induction l with
  | nil => exact ⟨[], .nil⟩
  | cons a l ih =>
    obtain ⟨b, hb⟩ := h a (by simp)
    obtain ⟨l', hl'⟩ := ih fun c hc => h c (by simp [hc])
    exact ⟨b :: l', .cons hb hl'⟩

end Related

theorem nodup_keys {members : List (Option String × ParseTree)} {pairs : List (String × Json)}
    (h : (members.map Prod.fst).Perm (pairs.map fun pair => some pair.1)) :
    (members.map Prod.fst).Nodup ↔ (pairs.map Prod.fst).Nodup := by
  have hkeys : pairs.map (fun pair => some pair.1) = (pairs.map Prod.fst).map some := by simp
  rw [h.nodup_iff, hkeys, List.nodup_map_iff (Option.some_injective _)]

/-- What holds of the parts of an array and an object and is handed on to the whole holds of all that
is denoted. -/
theorem Denotes.induct {motive : (tree : ParseTree) → (json : Json) → Denotes tree json → Prop}
    (null : motive .null .null .null)
    (bool : ∀ value, motive (.bool value) (.bool value) (.bool value))
    (numeral : ∀ n json, (h : n.toJson? = some json) → motive (.numeral n) json (.numeral h))
    (string : ∀ content, motive (.string (some content)) (.string content) (.string content))
    (array : ∀ items values,
      List.Forall₂ (fun item value => ∃ h, motive item value h) items values →
      (h : Denotes (.array items) (.array values)) → motive (.array items) (.array values) h)
    (object : ∀ members sorted pairs, members.Perm sorted → (pairs.map Prod.fst).Nodup →
      List.Forall₂ (fun member pair => member.1 = some pair.1 ∧ ∃ h, motive member.2 pair.2 h) sorted
        pairs →
      (h : Denotes (.object members) (.object pairs)) → motive (.object members) (.object pairs) h)
    {tree : ParseTree} {json : Json} (h : Denotes tree json) : motive tree json h := by
  induction tree using induction_parts generalizing json with
  | _ tree ih =>
    cases h with
    | null => exact null
    | bool value => exact bool value
    | numeral hnumeral => exact numeral _ _ hnumeral
    | string content => exact string content
    | array hitems =>
      apply array
      exact forall₂_imp_of_mem hitems fun item hitem value hvalue => ⟨hvalue, ih item hitem hvalue⟩
    | object hperm hnodup hkeys hvalues =>
      apply object _ _ _ hperm hnodup
      apply forall₂_imp_of_mem (forall₂_entries_iff.mpr ⟨hkeys, hvalues⟩)
      intro member hmember pair hpair
      have hpart : member.2 ∈ (ParseTree.object _).parts :=
        List.mem_map_of_mem (hperm.mem_iff.mpr hmember)
      exact ⟨hpair.1, hpair.2, ih member.2 hpart hpair.2⟩

section Denoted

variable {tree : ParseTree} {json : Json}

theorem wellFormedItems_iff {items : List ParseTree} :
    wellFormedItems items = true ↔ ∀ item ∈ items, item.wellFormed = true := by
  induction items with
  | nil => simp [wellFormedItems]
  | cons item items ih => simp [wellFormedItems, ih]

theorem wellFormedMembers_iff {members : List (Option String × ParseTree)} :
    wellFormedMembers members = true ↔ ∀ member ∈ members, member.2.wellFormed = true := by
  induction members with
  | nil => simp [wellFormedMembers]
  | cons member members ih => simp [wellFormedMembers, ih]

theorem Denotes.wellFormed (h : Denotes tree json) : tree.wellFormed = true := by
  induction h using Denotes.induct with
  | null | bool | numeral | string => rfl
  | array items values hitems =>
    rw [ParseTree.wellFormed, wellFormedItems_iff]
    exact forall_mem_of_forall₂ hitems fun item value ⟨_, hitem⟩ => hitem
  | object members sorted pairs hperm hnodup hentries =>
    rw [ParseTree.wellFormed, wellFormedMembers_iff]
    intro member hmember
    exact forall_mem_of_forall₂ hentries (fun member pair ⟨_, _, hpair⟩ => hpair) member
      (hperm.mem_iff.mp hmember)

theorem depthItems_le_iff {values : List Json} {levels : Nat} :
    depthItems values ≤ levels ↔ ∀ value ∈ values, value.depth ≤ levels := by
  induction values with
  | nil => simp [depthItems]
  | cons value values ih => simp [depthItems, ih]

theorem depthMembers_le_iff {pairs : List (String × Json)} {levels : Nat} :
    depthMembers pairs ≤ levels ↔ ∀ pair ∈ pairs, pair.2.depth ≤ levels := by
  induction pairs with
  | nil => simp [depthMembers]
  | cons pair pairs ih => simp [depthMembers, ih]

theorem Denotes.depth_le (h : Denotes tree json) : json.depth ≤ tree.nesting + 1 := by
  induction h using Denotes.induct with
  | null | bool | string => exact Nat.le_refl 1
  | numeral n json hnumeral =>
    rcases number_of_toJson? hnumeral with ⟨value, rfl⟩ | ⟨x, rfl⟩ <;> exact Nat.le_refl 1
  | array items values hitems =>
    rw [depth, Nat.succ_le_succ_iff, depthItems_le_iff]
    intro value hvalue
    obtain ⟨item, hitem, _, hdepth⟩ := exists_mem_of_forall₂ hitems hvalue
    have hlt : item.nesting < (ParseTree.array items).nesting := nesting_lt_of_mem_parts hitem
    exact hdepth.trans hlt
  | object members sorted pairs hperm hnodup hentries =>
    rw [depth, Nat.succ_le_succ_iff, depthMembers_le_iff]
    intro pair hpair
    obtain ⟨member, hmember, _, _, hdepth⟩ := exists_mem_of_forall₂ hentries hpair
    have hlt : member.2.nesting < (ParseTree.object members).nesting :=
      nesting_lt_of_mem_parts (List.mem_map_of_mem (hperm.mem_iff.mpr hmember))
    exact hdepth.trans hlt

end Denoted

/-! The value that a tree has as such -/

theorem put_of_not_mem {α : Type} {name : String} {value : α} {entries : List (String × α)}
    (h : name ∉ entries.map Prod.fst) : Table.put name value entries = entries ++ [(name, value)] := by
  induction entries with
  | nil => rfl
  | cons entry rest ih =>
    simp only [List.map_cons, List.mem_cons, not_or] at h
    rw [Table.put, if_neg (Ne.symm h.1), ih h.2]
    rfl

theorem entries_ofList {α : Type} {pairs : List (String × α)} (h : (pairs.map Prod.fst).Nodup) :
    (Table.ofList pairs).entries = pairs := by
  have hfold (before after : List (String × α)) (h : ((before ++ after).map Prod.fst).Nodup) :
      (after.foldl (fun table pair => table.insert pair.1 pair.2) (Table.mk before)).entries =
        before ++ after := by
    induction after generalizing before with
    | nil => simp
    | cons pair after ih =>
      have hnew : pair.1 ∉ before.map Prod.fst := by
        simp only [List.map_append, List.map_cons, List.nodup_append, List.mem_cons] at h
        grind
      rw [List.foldl_cons, Table.insert, put_of_not_mem hnew, ih _ (by simpa using h)]
      simp
  exact hfold [] pairs h

theorem toJsonItems?_eq {items : List ParseTree} {values : List Json}
    (h : List.Forall₂ (fun item value => item.toJson? = some value) items values) :
    toJsonItems? items = some values := by
  induction h with
  | nil => rfl
  | cons hitem _ ih =>
    rw [toJsonItems?, hitem, ih]
    rfl

theorem toJsonMembers?_eq {members : List (Option String × ParseTree)} {pairs : List (String × Json)}
    (h : List.Forall₂ (fun member pair => member.1 = some pair.1 ∧ member.2.toJson? = some pair.2)
      members pairs) : toJsonMembers? members = some pairs := by
  induction h with
  | nil => rfl
  | @cons member pair members pairs hmember _ ih =>
    obtain ⟨key, value⟩ := member
    obtain ⟨rfl, hvalue⟩ := hmember
    rw [toJsonMembers?, hvalue, ih]
    rfl

/-- What denotes a value has a value, which it denotes too. -/
theorem Denotes.exists_toJson? {tree : ParseTree} {json : Json} (h : Denotes tree json) :
    ∃ value, tree.toJson? = some value ∧ Denotes tree value := by
  induction h using Denotes.induct with
  | null => exact ⟨_, rfl, .null⟩
  | bool value => exact ⟨_, rfl, .bool value⟩
  | numeral n json hnumeral => exact ⟨json, hnumeral, .numeral hnumeral⟩
  | string content => exact ⟨_, rfl, .string content⟩
  | array items values hitems =>
    obtain ⟨found, hfound⟩ := exists_forall₂ (forall_mem_of_forall₂ hitems fun _ _ ⟨_, hitem⟩ => hitem)
    refine ⟨.array found, ?_, .array (hfound.imp fun _ _ h => h.2)⟩
    rw [toJson?, toJsonItems?_eq (hfound.imp fun _ _ h => h.1)]
    rfl
  | object members sorted pairs hperm hnodup hentries =>
    have hmembers : ∀ member ∈ members, ∃ pair : String × Json, member.1 = some pair.1 ∧
        member.2.toJson? = some pair.2 ∧ Denotes member.2 pair.2 := by
      intro member hmember
      obtain ⟨key, hkey, value, hvalue⟩ := forall_mem_of_forall₂ hentries
        (fun member pair h => (⟨pair.1, h.1, h.2.2⟩ : ∃ key, member.1 = some key ∧
          ∃ value, member.2.toJson? = some value ∧ Denotes member.2 value)) member
        (hperm.mem_iff.mp hmember)
      exact ⟨(key, value), hkey, hvalue⟩
    obtain ⟨found, hfound⟩ := exists_forall₂ hmembers
    obtain ⟨hsame, hdenoted⟩ := forall₂_entries_iff.mp
      (hfound.imp fun _ _ h => ⟨h.1, h.2.2⟩)
    have hdistinct : (found.map Prod.fst).Nodup := by
      have hsorted := (forall₂_entries_iff.mp
        (hentries.imp fun _ _ ⟨hkey, hvalue, _⟩ => ⟨hkey, hvalue⟩)).1
      rw [← nodup_keys (List.Perm.of_eq hsame), nodup_keys (hsorted ▸ hperm.map Prod.fst)]
      exact hnodup
    refine ⟨.object found, ?_, .object (.refl _) hdistinct hsame hdenoted⟩
    rw [toJson?, toJsonMembers?_eq (hfound.imp fun _ _ h => ⟨h.1, h.2.1⟩), Option.map_some,
      entries_ofList hdistinct]

end ParseTree

open ParseTree

/-! The value of a text -/

theorem ElementText.exists_valueText {text : List Char} {tree : ParseTree} (h : ElementText text tree) :
    ∃ part, ValueText part tree := by
  obtain ⟨-, hvalue, -⟩ := h
  exact ⟨_, hvalue⟩

theorem ElementsText.exists_valueText {text : List Char} {items : List ParseTree}
    (h : ElementsText text items) : ∀ item ∈ items, ∃ part, ValueText part item := by
  induction items generalizing text with
  | nil => simp
  | cons item items ih =>
    rw [List.forall_mem_cons]
    cases h with
    | last hitem => exact ⟨hitem.exists_valueText, by simp⟩
    | cons hitem hmore => exact ⟨hitem.exists_valueText, ih hmore⟩

theorem MemberText.exists_valueText {text : List Char} {key : String} {value : ParseTree}
    (h : MemberText text key value) : ∃ part, ValueText part value := by
  obtain ⟨-, -, -, hvalue⟩ := h
  exact hvalue.exists_valueText

theorem MembersText.exists_valueText {text : List Char} {members : List (Option String × ParseTree)}
    (h : MembersText text members) :
    ∀ member ∈ members, ∃ key part, member.1 = some key ∧ ValueText part member.2 := by
  induction members generalizing text with
  | nil => simp
  | cons member members ih =>
    rw [List.forall_mem_cons]
    cases h with
    | @last _ key value hmember =>
      obtain ⟨part, hvalue⟩ := hmember.exists_valueText
      exact ⟨⟨key, part, rfl, hvalue⟩, by simp⟩
    | @cons _ _ key value _ hmember hmore =>
      obtain ⟨part, hvalue⟩ := hmember.exists_valueText
      exact ⟨⟨key, part, rfl, hvalue⟩, ih hmore⟩

/-- A text of the grammar denotes a value if its keys are distinct and its numbers are read. -/
theorem ValueText.exists_denotes {text : List Char} {tree : ParseTree} (h : ValueText text tree)
    (hkeys : tree.DistinctKeys) (hnumbers : tree.EveryNumber fun n => n.toFloat?.isSome) :
    ∃ json, Denotes tree json := by
  induction tree using induction_parts generalizing text with
  | _ tree ih =>
    have part {text : List Char} {part : ParseTree} (hpart : part ∈ tree.parts)
        (h : ValueText text part) : ∃ json, Denotes part json :=
      ih part hpart h (hkeys.part hpart) (hnumbers.part hpart)
    cases h with
    | null => exact ⟨_, .null⟩
    | true => exact ⟨_, .bool _⟩
    | false => exact ⟨_, .bool _⟩
    | numeral =>
      obtain ⟨json, hjson⟩ := exists_toJson? (hnumbers _ .refl)
      exact ⟨json, .numeral hjson⟩
    | string => exact ⟨_, .string _⟩
    | emptyArray => exact ⟨_, .array .nil⟩
    | @array text items helements =>
      have hitems : ∀ item ∈ items, ∃ json, Denotes item json := by
        intro item hitem
        obtain ⟨text, hvalue⟩ := helements.exists_valueText item hitem
        exact part hitem hvalue
      obtain ⟨values, hvalues⟩ := exists_forall₂ hitems
      exact ⟨_, .array hvalues⟩
    | emptyObject => exact ⟨.object [], denotes_object_iff.mpr ⟨List.nodup_nil, [], .refl _, .nil⟩⟩
    | @object text members htexts =>
      have hmembers : ∀ member ∈ members, ∃ pair : String × Json, member.1 = some pair.1 ∧
          Denotes member.2 pair.2 := by
        intro member hmember
        obtain ⟨key, text, hkey, hvalue⟩ := htexts.exists_valueText member hmember
        obtain ⟨json, hjson⟩ := part (List.mem_map_of_mem hmember) hvalue
        exact ⟨(key, json), hkey, hjson⟩
      obtain ⟨pairs, hpairs⟩ := exists_forall₂ hmembers
      have hsame := (forall₂_entries_iff.mp hpairs).1
      have hdistinct := (nodup_keys (.of_eq hsame)).mp (hkeys members .refl)
      exact ⟨.object pairs, denotes_object_iff.mpr ⟨hdistinct, members, .refl _, hpairs⟩⟩

theorem IsText.exists_denotes {text : String} {tree : ParseTree} (h : IsText text tree)
    (hkeys : tree.DistinctKeys) (hnumbers : tree.EveryNumber fun n => n.toFloat?.isSome) :
    ∃ json, Denotes tree json := by
  obtain ⟨part, hvalue⟩ := ElementText.exists_valueText h
  exact hvalue.exists_denotes hkeys hnumbers

namespace ParseTree

/-! The order of members -/

theorem reordered_entries {members members' : List (Option String × ParseTree)}
    (hkeys : members.map Prod.fst = members'.map Prod.fst)
    (hvalues : List.Forall₂ Reordered (members.map Prod.snd) (members'.map Prod.snd)) :
    List.Forall₂ (fun member member' => member.1 = member'.1 ∧ Reordered member.2 member'.2) members
      members' :=
  (forall₂_entries_iff (f := id)).mpr ⟨hkeys, hvalues⟩

/-- Another order of members denotes the same values. -/
theorem Reordered.denotes {tree tree' : ParseTree} (h : Reordered tree tree') {json : Json}
    (hdenotes : Denotes tree json) : Denotes tree' json := by
  induction hdenotes using Denotes.induct generalizing tree' with
  | null | bool | numeral | string =>
    cases h
    constructor <;> assumption
  | array items values hitems hdenotes =>
    cases h with
    | refl => exact hdenotes
    | array hreordered =>
      apply Denotes.array
      exact forall₂_join hreordered hitems fun item item' value hsame ⟨_, hitem⟩ => hitem hsame
  | object members sorted pairs hperm hnodup hentries hdenotes =>
    cases h with
    | refl => exact hdenotes
    | object hbetween hkeys hvalues =>
      -- the order of the pairs is carried over to the members of the other tree
      obtain ⟨sorted', hsorted', hmembers'⟩ :=
        List.perm_comp_forall₂ (hperm.symm.trans hbetween) (reordered_entries hkeys hvalues)
      rw [denotes_object_iff]
      refine ⟨hnodup, sorted', hmembers'.symm, forall₂_join hsorted' hentries ?_⟩
      intro member member' pair ⟨hkey, hsame⟩ ⟨hpair, _, hvalue⟩
      exact ⟨hkey.symm.trans hpair, hvalue hsame⟩

theorem Reordered.nesting_le {tree tree' : ParseTree} (h : Reordered tree tree') :
    tree'.nesting ≤ tree.nesting := by
  induction tree using induction_parts generalizing tree' with
  | _ tree ih =>
    cases h with
    | refl => exact Nat.le_refl _
    | array hitems =>
      refine Nat.succ_le_succ (nestingItems_le_iff.mpr ?_)
      intro item' hitem'
      obtain ⟨item, hitem, hreordered⟩ := exists_mem_of_forall₂ hitems hitem'
      have hle := ih item hitem hreordered
      exact hle.trans (nestingItems_le_iff.mp (Nat.le_refl _) item hitem)
    | object hperm hkeys hvalues =>
      refine Nat.succ_le_succ (nestingMembers_le_iff.mpr ?_)
      intro member' hmember'
      obtain ⟨member, hmember, -, hreordered⟩ :=
        exists_mem_of_forall₂ (reordered_entries hkeys hvalues) hmember'
      have hmember := hperm.mem_iff.mpr hmember
      have hle := ih member.2 (List.mem_map_of_mem hmember) hreordered
      exact hle.trans (nestingMembers_le_iff.mp (Nat.le_refl _) member hmember)

end ParseTree

end Reckoner.Json
