import FilterClause.Resolver
import Mathlib.Data.List.Dedup
import Mathlib.Data.List.Perm.Basic

/-!
# Column maps

A map that pairs are inserted into gives a property the column of the last pair with its display
form, and has as many entries as the pairs have different keys. It makes no difference whether the
pairs are inserted one by one, added in a chain of maps or put into a map that is kept as a state.
-/

namespace FilterClause.ColumnMap

/-- Entries of other keys do not matter to a key. -/
theorem lookup_filter_ne {property key : String} (h : property ≠ key)
    (entries : List (String × String)) :
    (entries.filter fun entry => entry.1 ≠ property).lookup key = entries.lookup key := by
  induction entries with
  | nil => rfl
  | cons entry entries ih =>
    by_cases hentry : entry.1 = property
    · have hkey : key ≠ entry.1 := fun he => h (hentry.symm.trans he.symm)
      rw [List.filter_cons_of_neg (by simpa using hentry), ih, List.lookup_cons,
        beq_false_of_ne hkey]
    · rw [List.filter_cons_of_pos (by simpa using hentry), List.lookup_cons, List.lookup_cons, ih]

/-- The last pair of a property decides on its column. -/
theorem column?_insert (m : ColumnMap) (property column : String) (p : Property) :
    (m.insert property column).column? p =
      if property = p.display then some column else m.column? p := by
  rw [column?, insert, List.lookup_cons]
  by_cases h : property = p.display
  · rw [if_pos h, h, beq_self_eq_true]
  · rw [if_neg h, beq_false_of_ne (Ne.symm h)]
    exact lookup_filter_ne h m.entries

theorem column?_foldl_insert (pairs : List (String × String)) (m : ColumnMap) (p : Property) :
    (pairs.foldl (fun m pair => m.insert pair.1 pair.2) m).column? p =
      (((pairs.filter fun pair => pair.1 = p.display).getLast?).map Prod.snd).or (m.column? p) := by
  induction pairs generalizing m with
  | nil => rfl
  | cons pair pairs ih =>
    rw [List.foldl_cons, ih, column?_insert, List.filter_cons]
    by_cases h : pair.1 = p.display
    · rw [if_pos h, if_pos (decide_eq_true h), List.getLast?_cons]
      cases (pairs.filter fun pair => pair.1 = p.display).getLast? <;> rfl
    · rw [if_neg h, if_neg (by simpa using h)]

theorem column?_ofList (pairs : List (String × String)) (p : Property) :
    (ofList pairs).column? p =
      ((pairs.filter fun pair => pair.1 = p.display).getLast?).map Prod.snd := by
  rw [ofList, column?_foldl_insert]
  exact Option.or_none

/-- A column that is found is one of the pairs. -/
theorem exists_mem_of_column?_ofList {pairs : List (String × String)} {p : Property}
    {column : String} (h : (ofList pairs).column? p = some column) :
    ∃ pair ∈ pairs, pair.2 = column := by
  rw [column?_ofList, Option.map_eq_some_iff] at h
  obtain ⟨pair, hpair, hcolumn⟩ := h
  exact ⟨pair, (List.mem_filter.mp (List.mem_of_getLast? hpair)).1, hcolumn⟩

theorem mem_keys_insert {m : ColumnMap} {property column key : String} :
    key ∈ (m.insert property column).entries.map Prod.fst ↔
      key = property ∨ key ∈ m.entries.map Prod.fst := by
  by_cases h : key = property <;> simp [insert, h]

theorem mem_keys_foldl_insert {pairs : List (String × String)} {m : ColumnMap} {key : String} :
    key ∈ (pairs.foldl (fun m pair => m.insert pair.1 pair.2) m).entries.map Prod.fst ↔
      key ∈ pairs.map Prod.fst ∨ key ∈ m.entries.map Prod.fst := by
  induction pairs generalizing m with
  | nil => simp
  | cons pair pairs ih =>
    rw [List.foldl_cons, ih, mem_keys_insert, List.map_cons, List.mem_cons]
    exact or_left_comm.trans or_assoc.symm

/-- A key counts once, however often it is mapped. -/
theorem size_ofList (pairs : List (String × String)) :
    (ofList pairs).size = (pairs.map Prod.fst).dedup.length := by
  have hperm : ((ofList pairs).entries.map Prod.fst).Perm (pairs.map Prod.fst).dedup := by
    rw [List.perm_ext_iff_of_nodup (ofList pairs).nodup (List.nodup_dedup _)]
    intro key
    rw [ofList, mem_keys_foldl_insert, List.mem_dedup]
    exact or_iff_left List.not_mem_nil
  rw [size, ← hperm.length_eq, List.length_map]

theorem adding_eq_insert (m : ColumnMap) (property column : String) :
    m.adding property column = m.insert property column := rfl

theorem foldl_adding (pairs : List (String × String)) (m : ColumnMap) :
    pairs.foldl (fun m pair => m.adding pair.1 pair.2) m =
      pairs.foldl (fun m pair => m.insert pair.1 pair.2) m := by
  induction pairs generalizing m with
  | nil => rfl
  | cons pair pairs ih => rw [List.foldl_cons, List.foldl_cons, ih, adding_eq_insert]

theorem run_forM_put (pairs : List (String × String)) (m : ColumnMap) :
    ((pairs.forM fun pair => put pair.1 pair.2).run m).2 =
      pairs.foldl (fun m pair => m.insert pair.1 pair.2) m := by
  induction pairs generalizing m with
  | nil => rfl
  | cons pair pairs ih => exact ih (m.insert pair.1 pair.2)

end FilterClause.ColumnMap
