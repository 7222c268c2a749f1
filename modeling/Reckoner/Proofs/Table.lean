import Mathlib.Data.List.Count
import Reckoner.Table

/-! Tables after any number of writes. What was bound stays bound, names keep their places, and new
names come after the old ones, each of them once. -/

namespace Reckoner.Table

variable {α : Type}

theorem lookup_isSome_iff (entries : List (String × α)) (name : String) :
    (lookup name entries).isSome ↔ name ∈ entries.map Prod.fst := by
  induction entries with
  | nil => simp [lookup]
  | cons entry rest ih =>
    obtain ⟨key, value⟩ := entry
    by_cases hkey : key = name
    · simp [lookup, hkey]
    · simp only [lookup, hkey, if_false, ih, List.map_cons, List.mem_cons, Ne.symm hkey, false_or]

theorem contains_iff (table : Table α) (name : String) :
    table.contains name ↔ name ∈ table.names :=
  lookup_isSome_iff table.entries name

theorem contains_insert (table : Table α) (name other : String) (value : α) :
    (table.insert name value).contains other = true ↔
      name = other ∨ table.contains other = true := by
  unfold contains
  rw [get?_insert]
  by_cases hname : name = other <;> simp [hname]

theorem forall_get?_insert {good : String → α → Prop} {table : Table α}
    (h : ∀ name value, table.get? name = some value → good name value) {name : String} {value : α}
    (hnew : good name value) :
    ∀ other found, (table.insert name value).get? other = some found → good other found := by
  intro other found hget
  rw [get?_insert] at hget
  split at hget
  next hname =>
    cases hget
    exact hname ▸ hnew
  next => exact h other found hget

theorem nodup_names_insert {table : Table α} (h : table.names.Nodup) (name : String) (value : α) :
    (table.insert name value).names.Nodup := by
  rw [names_insert]
  split
  · exact h
  next hnew =>
    rw [contains_iff] at hnew
    apply List.nodup_append.mpr
    refine ⟨h, by simp, fun other hother last hlast => ?_⟩
    rw [List.mem_singleton.mp hlast]
    exact fun heq => hnew (heq ▸ hother)

/-- `after` comes from `before` by writes that `allowed` accepts. -/
inductive Written (allowed : String → α → Prop) (before : Table α) : Table α → Prop
  | refl : Written allowed before before
  | insert {table : Table α} {name : String} {value : α} : Written allowed before table →
      allowed name value → Written allowed before (table.insert name value)

namespace Written

variable {allowed : String → α → Prop} {before after : Table α}

theorem get?_eq (h : Written allowed before after) {name : String}
    (hname : ∀ value, ¬ allowed name value) : after.get? name = before.get? name := by
  induction h with
  | refl => rfl
  | @insert table other value _ hallowed ih =>
    have hne : other ≠ name := by
      rintro rfl
      exact hname value hallowed
    rw [get?_insert, if_neg hne, ih]

theorem get?_eq_some (h : Written allowed before after) {name : String} {value : α}
    (hget : after.get? name = some value) :
    before.get? name = some value ∨ allowed name value := by
  induction h with
  | refl => exact .inl hget
  | insert _ hallowed ih =>
    rw [get?_insert] at hget
    split at hget
    next hname =>
      cases hget
      exact .inr (hname ▸ hallowed)
    next => exact ih hget

theorem names_eq (h : Written allowed before after) :
    ∃ added, after.names = before.names ++ added ∧
      ∀ name ∈ added, (∃ value, allowed name value) ∧ after.names.count name = 1 := by
  induction h with
  | refl => exact ⟨[], by simp, by simp⟩
  | @insert table other value _ hallowed ih =>
    obtain ⟨added, hnames, hadded⟩ := ih
    rw [names_insert]
    by_cases hbound : table.contains other
    · rw [if_pos hbound]
      exact ⟨added, hnames, hadded⟩
    · rw [if_neg hbound]
      have hnew : other ∉ table.names := fun hmem => hbound ((contains_iff table other).mpr hmem)
      refine ⟨added ++ [other], by rw [hnames, List.append_assoc], ?_⟩
      intro name hname
      rcases List.mem_append.mp hname with hold | hlast
      · have hne : other ≠ name := by
          rintro rfl
          exact hnew (hnames ▸ List.mem_append_right _ hold)
        refine ⟨(hadded name hold).1, ?_⟩
        rw [List.count_append, (hadded name hold).2, List.count_singleton,
          if_neg (by simpa using hne)]
      · cases List.mem_singleton.mp hlast
        refine ⟨⟨value, hallowed⟩, ?_⟩
        rw [List.count_append, List.count_eq_zero_of_not_mem hnew, List.count_singleton_self]

theorem nodup_names (h : Written allowed before after) (hbefore : before.names.Nodup) :
    after.names.Nodup := by
  induction h with
  | refl => exact hbefore
  | insert _ _ ih => exact nodup_names_insert ih _ _

theorem contains (h : Written allowed before after) {name : String}
    (hbound : before.contains name) : after.contains name := by
  obtain ⟨added, hnames, _⟩ := h.names_eq
  rw [contains_iff] at hbound ⊢
  rw [hnames]
  exact List.mem_append_left _ hbound

theorem eq_of_forall_not (h : Written allowed before after)
    (hnone : ∀ name value, ¬ allowed name value) : after = before := by
  cases h with
  | refl => rfl
  | insert _ hallowed => exact absurd hallowed (hnone _ _)

theorem foldl_insert (pairs : List (String × α)) (h : Written allowed before after)
    (hpairs : ∀ pair ∈ pairs, allowed pair.1 pair.2) :
    Written allowed before
      (pairs.foldl (fun table pair => table.insert pair.1 pair.2) after) := by
  induction pairs generalizing after with
  | nil => exact h
  | cons pair rest ih =>
    exact ih (h.insert (hpairs pair (by simp))) fun other hother => hpairs other (by simp [hother])

end Written

theorem nodup_names_ofList (pairs : List (String × α)) : (ofList pairs).names.Nodup := by
  have hwritten : Written (fun _ _ => True) ∅ (ofList pairs) :=
    Written.refl.foldl_insert pairs fun _ _ => trivial
  apply hwritten.nodup_names
  simp

theorem mem_of_get?_ofList {pairs : List (String × α)} {name : String} {value : α}
    (h : (ofList pairs).get? name = some value) : (name, value) ∈ pairs := by
  have hwritten : Written (fun name value => (name, value) ∈ pairs) ∅ (ofList pairs) :=
    Written.refl.foldl_insert pairs fun pair hpair => hpair
  rcases hwritten.get?_eq_some h with hnone | hmem
  · simp at hnone
  · exact hmem

theorem get?_eq_some_iff {table : Table α} (h : table.names.Nodup) {name : String} {value : α} :
    table.get? name = some value ↔ (name, value) ∈ table.entries := by
  obtain ⟨entries⟩ := table
  unfold get? names at *
  induction entries with
  | nil => simp [lookup]
  | cons entry rest ih =>
    obtain ⟨key, first⟩ := entry
    rw [List.map_cons, List.nodup_cons] at h
    by_cases hkey : key = name
    · subst hkey
      have hrest : (key, value) ∉ rest := fun hmem => h.1 (List.mem_map.mpr ⟨_, hmem, rfl⟩)
      simp [lookup, hrest, eq_comm]
    · simp [lookup, hkey, ih h.2, Ne.symm hkey]

/-- Each name is bound once in both tables, and a name that one of them binds is bound in the other to
a value that `same` accepts. -/
structure Corresponds (same : α → α → Bool) (left right : Table α) : Prop where
  left_nodup : left.names.Nodup
  right_nodup : right.names.Nodup
  get?_rel : ∀ name, Option.Rel (fun a b => same a b = true) (left.get? name) (right.get? name)

namespace Corresponds

variable {same : α → α → Bool} {left right : Table α}

theorem contains_eq (h : Corresponds same left right) (name : String) :
    left.contains name = right.contains name := by
  have hrel := h.get?_rel name
  unfold contains
  generalize left.get? name = first at hrel ⊢
  generalize right.get? name = second at hrel ⊢
  cases hrel <;> rfl

theorem names_perm (h : Corresponds same left right) : left.names.Perm right.names := by
  rw [List.perm_ext_iff_of_nodup h.left_nodup h.right_nodup]
  intro name
  rw [← contains_iff, ← contains_iff, h.contains_eq]

theorem empty : Corresponds same (∅ : Table α) ∅ where
  left_nodup := List.nodup_nil
  right_nodup := List.nodup_nil
  get?_rel _ := .none

theorem insert (h : Corresponds same left right) (name : String) {value value' : α}
    (hvalue : same value value' = true) :
    Corresponds same (left.insert name value) (right.insert name value') where
  left_nodup := nodup_names_insert h.left_nodup name value
  right_nodup := nodup_names_insert h.right_nodup name value'
  get?_rel other := by
    rw [get?_insert, get?_insert]
    split
    · exact .some hvalue
    · exact h.get?_rel other

theorem ofList_zip (params : List String) {values values' : List α}
    (h : List.Forall₂ (fun a b => same a b = true) values values') :
    Corresponds same (ofList (params.zip values)) (ofList (params.zip values')) := by
  have hfold {left right : Table α} (htables : Corresponds same left right) :
      Corresponds same
        ((params.zip values).foldl (fun table pair => table.insert pair.1 pair.2) left)
        ((params.zip values').foldl (fun table pair => table.insert pair.1 pair.2) right) := by
    induction h generalizing params left right with
    | nil =>
      rw [List.zip_nil_right]
      exact htables
    | cons hvalue _ ih =>
      cases params with
      | nil => exact htables
      | cons param params => exact ih params (htables.insert param hvalue)
  exact hfold empty

end Corresponds

/-- Where names are bound once, tables agree just if they correspond. -/
theorem agrees_iff {same : α → α → Bool} {left right : Table α} (h : left.names.Nodup) :
    left.agrees same right = true ↔ Corresponds same left right := by
  simp only [agrees, Bool.and_eq_true, beq_iff_eq, List.all_eq_true, Option.any_eq_true]
  constructor
  · rintro ⟨hsize, hall⟩
    have hfound {name : String} {value : α} (hget : left.get? name = some value) :
        ∃ value', right.get? name = some value' ∧ same value value' = true := by
      rw [get?_eq_some_iff h] at hget
      simpa using hall (name, value) hget
    have hsubset : left.names ⊆ right.names := by
      intro name hname
      rw [← contains_iff] at hname ⊢
      obtain ⟨value, hvalue⟩ := Option.isSome_iff_exists.mp hname
      obtain ⟨value', hvalue', -⟩ := hfound hvalue
      simp [contains, hvalue']
    have hlength : right.names.length ≤ left.names.length := by
      simp only [names, List.length_map]
      exact Nat.le_of_eq hsize.symm
    have hperm : left.names.Perm right.names :=
      (List.subperm_of_subset h hsubset).perm_of_length_le hlength
    refine ⟨h, hperm.nodup_iff.mp h, fun name => ?_⟩
    cases hleft : left.get? name with
    | some value =>
      obtain ⟨value', hright, hsame⟩ := hfound hleft
      rw [hright]
      exact .some hsame
    | none =>
      have hright : right.contains name = false := by
        rw [← Bool.not_eq_true, contains_iff, ← hperm.mem_iff, ← contains_iff]
        simp [contains, hleft]
      rw [contains, Option.isSome_eq_false_iff, Option.isNone_iff_eq_none] at hright
      rw [hright]
      exact .none
  · intro htables
    have hlength := htables.names_perm.length_eq
    simp only [names, List.length_map] at hlength
    refine ⟨hlength, fun entry hentry => ?_⟩
    have hrel := htables.get?_rel entry.1
    rw [(get?_eq_some_iff h).mpr hentry] at hrel
    generalize right.get? entry.1 = found at hrel ⊢
    cases hrel with
    | some hsame => exact ⟨_, rfl, hsame⟩

end Reckoner.Table
