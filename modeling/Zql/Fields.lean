/-
The fields of a row whose names end in `_ope`. `OnRequestAdd` takes the
first of them and `OnRequestAddContinue` the last; a row with one such
field leaves no choice (`OneOpe`).

Writing a code over a field that is there changes no field's name, so
looking for the field again finds the same.
-/
import Zql.Worker

namespace Zql

/-- The fields whose names end in `_ope`, in the order of their names. -/
def opeEntries (row : Row) : List (Str × Str) := row.toList.filter fun entry => hasEnding entry.1 opeEnding

/-- The row has one such field. -/
def OneOpe (row : Row) (opeField opeValue : Str) : Prop := opeEntries row = [(opeField, opeValue)]

instance (row : Row) (opeField opeValue : Str) : Decidable (OneOpe row opeField opeValue) :=
  inferInstanceAs (Decidable (opeEntries row = [(opeField, opeValue)]))

theorem opeEntry_eq (row : Row) : opeEntry row = (opeEntries row).head? := List.head?_filter.symm

theorem foldl_last {α : Type} (p : α → Bool) (l : List α) (x : α) :
    l.foldl (fun last y => if p y then y else last) x = (l.filter p).getLast?.getD x := by
  induction l generalizing x with
  | nil => rfl
  | cons y l ih =>
    rw [List.foldl_cons, ih, List.filter_cons]
    by_cases hp : p y
    · rw [if_pos hp, if_pos hp]
      cases hl : l.filter p with
      | nil => rfl
      | cons z zs => simp [List.getLast?_eq_some_getLast]
    · rw [if_neg hp, if_neg hp]

theorem opeFieldName_eq (row : Row) :
    opeFieldName row = ((opeEntries row).map (·.1)).getLast?.getD [] := by
  rw [opeFieldName, foldl_last, ← Std.ExtTreeMap.map_fst_toList_eq_keys, List.filter_map]
  rfl

theorem OneOpe.entry {row : Row} {opeField opeValue : Str} (h : OneOpe row opeField opeValue) :
    opeEntry row = some (opeField, opeValue) := by
  rw [opeEntry_eq, show opeEntries row = _ from h]
  rfl

theorem OneOpe.name {row : Row} {opeField opeValue : Str} (h : OneOpe row opeField opeValue) :
    opeFieldName row = opeField := by
  rw [opeFieldName_eq, show opeEntries row = _ from h]
  rfl

theorem mem_opeEntries {row : Row} {entry : Str × Str} :
    entry ∈ opeEntries row ↔ row[entry.1]? = some entry.2 ∧ hasEnding entry.1 opeEnding = true := by
  rw [opeEntries, List.mem_filter, Std.ExtTreeMap.mem_toList_iff_getElem?_eq_some]

theorem opeEntry_some {row : Row} {entry : Str × Str} (h : opeEntry row = some entry) :
    row[entry.1]? = some entry.2 ∧ hasEnding entry.1 opeEnding = true := by
  rw [opeEntry_eq] at h
  exact mem_opeEntries.mp (List.mem_of_mem_head? h)

/-! ## Writing over a field -/

theorem getElem?_insert_self (row : Row) (key value : Str) : (row.insert key value)[key]? = some value := by
  simp

theorem getElem?_insert_of_ne {row : Row} {key k value : Str} (h : k ≠ key) :
    (row.insert key value)[k]? = row[k]? := by
  rw [getElem?_insert_if, if_neg h]

theorem insert_insert (row : Row) (key value value' : Str) :
    (row.insert key value).insert key value' = row.insert key value' := by
  refine Std.ExtTreeMap.ext_getElem? fun k => ?_
  by_cases hk : k = key
  · rw [hk, getElem?_insert_self, getElem?_insert_self]
  · rw [getElem?_insert_of_ne hk, getElem?_insert_of_ne hk, getElem?_insert_of_ne hk]

theorem insert_same {row : Row} {key value : Str} (h : row[key]? = some value) : row.insert key value = row := by
  refine Std.ExtTreeMap.ext_getElem? fun k => ?_
  by_cases hk : k = key
  · rw [hk, getElem?_insert_self, h]
  · rw [getElem?_insert_of_ne hk]

theorem keys_insert {row : Row} {key value : Str} (h : key ∈ row) : (row.insert key value).keys = row.keys := by
  have hmem : ∀ k, k ∈ (row.insert key value).keys ↔ k ∈ row.keys := by
    intro k
    rw [Std.ExtTreeMap.mem_keys, Std.ExtTreeMap.mem_keys, Std.ExtTreeMap.mem_insert, Std.compare_eq_iff_eq]
    constructor
    · rintro (rfl | hk)
      · exact h
      · exact hk
    · exact .inr
  have hperm : (row.insert key value).keys.Perm row.keys :=
    (List.perm_ext_iff_of_nodup Std.ExtTreeMap.nodup_keys Std.ExtTreeMap.nodup_keys).mpr hmem
  refine hperm.eq_of_pairwise ?_ Std.ExtTreeMap.ordered_keys Std.ExtTreeMap.ordered_keys
  intro a b _ _ hab hba
  have := Std.OrientedCmp.gt_of_lt hab
  rw [hba] at this
  cases this

theorem opeFieldName_mem {row : Row} (h : opeEntry row ≠ none) :
    opeFieldName row ∈ row ∧ hasEnding (opeFieldName row) opeEnding = true := by
  have hne : opeEntries row ≠ [] := by
    intro hnil
    rw [opeEntry_eq, hnil] at h
    exact h rfl
  have hname : opeFieldName row = ((opeEntries row).getLast hne).1 := by
    rw [opeFieldName_eq, List.getLast?_map, List.getLast?_eq_some_getLast hne]
    rfl
  obtain ⟨hget, hend⟩ := mem_opeEntries.mp (List.getLast_mem hne)
  rw [hname]
  exact ⟨Std.ExtTreeMap.mem_iff_isSome_getElem?.mpr (by rw [hget]; rfl), hend⟩

theorem opeFieldName_insert {row : Row} {key value : Str} (h : key ∈ row) :
    opeFieldName (row.insert key value) = opeFieldName row := by
  rw [opeFieldName, opeFieldName, keys_insert h]

end Zql
