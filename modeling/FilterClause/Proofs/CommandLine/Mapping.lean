import FilterClause.CommandLine.Arguments
import FilterClause.Proofs.Resolver.ColumnMap
import Mathlib.Data.List.TakeWhile

/-!
# Column mappings

A mapping is a property and a column with an equals sign between them; the first one counts, others
belong to the column. The columns that a list of mappings gives to the properties, the last mapping
of a property first, are those of the map of the settings that the list is parsed to.
-/

namespace FilterClause.CommandLine

/-- The first mark is the one that nothing like it stands in front of. -/
theorem splitFirst_eq_some_iff {mark : Char} {s before after : List Char} :
    splitFirst mark s = some (before, after) ↔ mark ∉ before ∧ s = before ++ mark :: after := by
  induction s generalizing before with
  | nil => simp [splitFirst]
  | cons c s ih =>
    rw [splitFirst]
    split
    · next hc =>
      constructor
      · rintro ⟨⟩
        exact ⟨List.not_mem_nil, by rw [hc, List.nil_append]⟩
      · rintro ⟨hbefore, hs⟩
        cases before with
        | nil =>
          cases hs
          rfl
        | cons b before =>
          cases hs
          exact absurd (hc ▸ List.mem_cons_self) hbefore
    · next hc =>
      rw [Option.map_eq_some_iff]
      constructor
      · rintro ⟨⟨before, after⟩, hr, ⟨⟩⟩
        obtain ⟨hbefore, rfl⟩ := ih.mp hr
        exact ⟨List.not_mem_cons_of_ne_of_not_mem (Ne.symm hc) hbefore, rfl⟩
      · rintro ⟨hbefore, hs⟩
        cases before with
        | nil =>
          cases hs
          exact absurd rfl hc
        | cons b before =>
          cases hs
          exact ⟨(before, after), ih.mpr ⟨List.not_mem_of_not_mem_cons hbefore, rfl⟩, rfl⟩

/-- What stands before the first equals sign. -/
def mappedProperty (spec : String) : String := .ofList (spec.toList.takeWhile (· ≠ '='))

/-- What stands after the first equals sign. -/
def mappedColumn (spec : String) : String := .ofList ((spec.toList.dropWhile (· ≠ '=')).drop 1)

/-- A text with at least one character before and after its first equals sign. -/
def IsMapping (spec : String) : Prop :=
  ∃ property column, property ≠ "" ∧ column ≠ "" ∧ '=' ∉ property.toList ∧
    spec = property ++ "=" ++ column

section

variable {property : String} (h : '=' ∉ property.toList) (column : String)

include h

theorem mappedProperty_append : mappedProperty (property ++ "=" ++ column) = property := by
  have hproperty : ∀ c ∈ property.toList, decide (c ≠ '=') = true := fun c hc =>
    decide_eq_true fun he => h (he ▸ hc)
  rw [mappedProperty, String.toList_append, String.toList_append, List.append_assoc,
    List.takeWhile_append_of_pos hproperty]
  simp

theorem mappedColumn_append : mappedColumn (property ++ "=" ++ column) = column := by
  have hproperty : ∀ c ∈ property.toList, decide (c ≠ '=') = true := fun c hc =>
    decide_eq_true fun he => h (he ▸ hc)
  rw [mappedColumn, String.toList_append, String.toList_append, List.append_assoc,
    List.dropWhile_append_of_pos hproperty]
  simp

end

theorem parseMapping?_eq_some_iff {spec : String} {pair : String × String} :
    parseMapping? spec = some pair ↔
      IsMapping spec ∧ pair = (mappedProperty spec, mappedColumn spec) := by
  constructor
  · intro h
    unfold parseMapping? at h
    split at h
    · next before after hsplit =>
      split at h
      · cases h
      · next hempty =>
        cases h
        obtain ⟨hbefore, hspec⟩ := splitFirst_eq_some_iff.mp hsplit
        have hproperty : '=' ∉ (String.ofList before).toList := by rwa [String.toList_ofList]
        have hspec : spec = String.ofList before ++ "=" ++ String.ofList after :=
          String.toList_injective (by simpa using hspec)
        refine ⟨⟨_, _, ?_, ?_, hproperty, hspec⟩, ?_⟩
        · simp_all
        · simp_all
        · rw [hspec, mappedProperty_append hproperty, mappedColumn_append hproperty]
    · cases h
  · rintro ⟨⟨property, column, hproperty, hcolumn, hmark, rfl⟩, rfl⟩
    have hsplit : splitFirst '=' (property ++ "=" ++ column).toList =
        some (property.toList, column.toList) :=
      splitFirst_eq_some_iff.mpr ⟨hmark, by simp⟩
    rw [mappedProperty_append hmark, mappedColumn_append hmark, parseMapping?, hsplit]
    simp [hproperty, hcolumn]

theorem mapM_parseMapping?_eq_some_iff {specs : List String} {pairs : List (String × String)} :
    specs.mapM parseMapping? = some pairs ↔
      (∀ spec ∈ specs, IsMapping spec) ∧
        pairs = specs.map fun spec => (mappedProperty spec, mappedColumn spec) := by
  induction specs generalizing pairs with
  | nil => simp [eq_comm]
  | cons spec specs ih =>
    rw [List.mapM_cons, List.forall_mem_cons, List.map_cons]
    constructor
    · intro h
      obtain ⟨pair, hpair, h⟩ := Option.bind_eq_some_iff.mp h
      obtain ⟨rest, hrest, ⟨⟩⟩ := Option.bind_eq_some_iff.mp h
      obtain ⟨hspec, rfl⟩ := parseMapping?_eq_some_iff.mp hpair
      obtain ⟨hspecs, rfl⟩ := ih.mp hrest
      exact ⟨⟨hspec, hspecs⟩, rfl⟩
    · rintro ⟨⟨hspec, hspecs⟩, rfl⟩
      rw [parseMapping?_eq_some_iff.mpr ⟨hspec, rfl⟩, ih.mpr ⟨hspecs, rfl⟩]
      rfl

/-- Nothing has been met but mappings. -/
def Progress.ofColumns (pairs : List (String × String)) : Progress :=
  { Progress.start with draft := { Draft.empty with columns := pairs } }

/-- The settings of a run for which nothing is chosen but columns. -/
def Settings.ofColumns (pairs : List (String × String)) : Settings where
  input := none
  keyword := "where"
  placeholder := .atP
  columns := pairs
  explain := false
  verbose := false

namespace Progress

theorem take_column (pairs : List (String × String)) (spec : String) :
    (ofColumns pairs).take ("--column=" ++ spec) =
      match parseMapping? spec with
      | some pair => .ok (.proceed (ofColumns (pairs ++ [pair])))
      | none => .error (.mapping spec) := by
  have hargument : ("--column=" ++ spec).toList =
      '-' :: '-' :: ("column".toList ++ '=' :: spec.toList) := by simp
  have hsplit : splitFirst '=' ("column".toList ++ '=' :: spec.toList) =
      some ("column".toList, spec.toList) :=
    splitFirst_eq_some_iff.mpr ⟨by decide, rfl⟩
  have hname : OptionKind.ofLong? "column" = some (.valued .column) := rfl
  have htake : (ofColumns pairs).take ("--column=" ++ spec) =
      (ofColumns pairs).takeLong ("column".toList ++ '=' :: spec.toList) := by
    rw [take, hargument]
    rfl
  rw [htake, takeLong, hsplit]
  simp only [String.ofList_toList, hname]
  unfold takeValued settle
  cases hspec : parseMapping? spec <;> simp [ofColumns, Draft.setValue, hspec] <;> rfl

/-- Mappings are all taken or one is refused, and those taken are the columns, in their order. -/
theorem takeAll_columns {specs : List String} {pairs : List (String × String)} {s : Settings} :
    (ofColumns pairs).takeAll none (specs.map ("--column=" ++ ·)) = .ok (.run s) ↔
      ∃ more, specs.mapM parseMapping? = some more ∧ s = .ofColumns (pairs ++ more) := by
  induction specs generalizing pairs with
  | nil =>
    have hend : (ofColumns pairs).takeAll none [] = .ok (.run (.ofColumns pairs)) := rfl
    rw [List.map_nil, hend]
    simp [eq_comm]
  | cons spec specs ih =>
    rw [List.map_cons, takeAll, take_column, List.mapM_cons]
    cases hspec : parseMapping? spec with
    | none => exact ⟨nofun, nofun⟩
    | some pair =>
      have hmore := @ih (pairs ++ [pair])
      simp only [List.append_assoc, List.singleton_append] at hmore
      refine hmore.trans ?_
      cases specs.mapM parseMapping? <;> simp

end Progress

theorem parse_columns {specs : List String} {pairs : List (String × String)}
    (h : specs.mapM parseMapping? = some pairs) :
    parse (specs.map ("--column=" ++ ·)) none = .ok (.run (.ofColumns pairs)) :=
  (@Progress.takeAll_columns specs [] _).mpr ⟨pairs, h, rfl⟩

/-- A list of mappings is accepted if each has a character before and one after its first equals
sign. The map collected from it gives a property the column of its last mapping and has an entry for
each mapped property, and the maps that the mappings are inserted into one by one give the same
columns. -/
theorem mappings_resolve (specs : List String) :
    ((∃ pairs, specs.mapM parseMapping? = some pairs) ↔ ∀ spec ∈ specs, IsMapping spec) ∧
    ∀ pairs, specs.mapM parseMapping? = some pairs →
      let collected := ColumnMap.ofList pairs
      let chained := pairs.foldl (fun m pair => m.adding pair.1 pair.2) ColumnMap.empty
      let filled := ((pairs.forM fun pair => ColumnMap.put pair.1 pair.2).run ColumnMap.empty).2
      parse (specs.map ("--column=" ++ ·)) none = .ok (.run (.ofColumns pairs)) ∧
      (∀ p : Property, collected.column? p =
        ((specs.filter fun spec => mappedProperty spec = p.display).getLast?).map mappedColumn) ∧
      collected.size = (specs.map mappedProperty).dedup.length ∧
      ∀ p, chained.column? p = collected.column? p ∧ filled.column? p = collected.column? p := by
  refine ⟨?_, fun pairs hpairs => ⟨parse_columns hpairs, fun p => ?_, ?_, fun p => ⟨?_, ?_⟩⟩⟩
  · simp only [mapM_parseMapping?_eq_some_iff, exists_and_left, exists_eq, and_true]
  · obtain ⟨-, rfl⟩ := mapM_parseMapping?_eq_some_iff.mp hpairs
    rw [ColumnMap.column?_ofList, List.filter_map, List.getLast?_map, Option.map_map]
    rfl
  · obtain ⟨-, rfl⟩ := mapM_parseMapping?_eq_some_iff.mp hpairs
    rw [ColumnMap.size_ofList, List.map_map]
    rfl
  · rw [ColumnMap.foldl_adding]
    rfl
  · rw [ColumnMap.run_forM_put]
    rfl

theorem mappings_resolve_last :
    let specs := ["Name=a=b", "o/Total=t", "Name=c"]
    let pairs := [("Name", "a=b"), ("o/Total", "t"), ("Name", "c")]
    specs.mapM parseMapping? = some pairs ∧
      (ColumnMap.ofList pairs).column? ⟨none, "Name"⟩ = some "c" ∧
      (ColumnMap.ofList pairs).column? ⟨some "o", "Total"⟩ = some "t" ∧
      (ColumnMap.ofList pairs).column? ⟨none, "Total"⟩ = none ∧
      (ColumnMap.ofList pairs).size = 2 := by
  intro specs pairs
  have hpairs : specs.mapM parseMapping? = some pairs := by decide
  obtain ⟨-, hcolumn, hsize, -⟩ := (mappings_resolve specs).2 pairs hpairs
  exact ⟨hpairs, (hcolumn _).trans (by decide), (hcolumn _).trans (by decide),
    (hcolumn _).trans (by decide), hsize.trans (by decide)⟩

end FilterClause.CommandLine
