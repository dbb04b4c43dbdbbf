import FilterClause.CommandLine.Run
import FilterClause.Proofs.Emission.Rendering
import FilterClause.Proofs.Expression.Normalising

/-!
# What a run prints

A run prints the clause of the options that it is given and the values bound for it, and these can
be read back. If the options cannot be read, or have no clause, nothing is printed. An empty clause
is noted in the log; the clause is empty for options without a filter, and for no others.
-/

namespace FilterClause

open Json

namespace Value

theorem depth_toJson_le (v : Value) : v.toJson.depth ≤ 2 := by
  cases v with
  | null => exact Nat.zero_le 2
  | blob bytes =>
    rw [toJson, depth_tagged, depth]
    refine Nat.succ_le_succ (Nat.succ_le_succ (itemDepth_le_iff.mpr ?_))
    rintro _ hj
    obtain ⟨b, -, rfl⟩ := List.mem_map.mp hj
    exact Nat.zero_le 0
  | float x =>
    rw [toJson, depth_tagged, floatJson]
    split <;> simp [depth]
  | _ => rw [toJson, depth_tagged, depth]; decide

/-- A list of values that are not infinities or NaNs reads back. -/
theorem readText_compact_list {values : List Value} (hfinite : ∀ v ∈ values, v.IsFinite)
    (hdigits : ∀ x, .float x ∈ values → x.DigitsReadBack) :
    readText (readList Value.read) (Json.array (values.map toJson)).compact = .ok values := by
  have hvalue : ∀ v ∈ values, Reads nestingLimit Value.read v.toJson v.IsFinite v :=
    fun v hv => reads nestingLimit fun x hx _ => hdigits x (hx ▸ hv)
  have hdepth : (Json.array (values.map toJson)).depth ≤ nestingLimit := by
    have hitems : itemDepth (values.map toJson) ≤ 2 :=
      itemDepth_le_iff.mpr (by simpa using fun v _ => v.depth_toJson_le)
    rw [depth]
    exact Nat.le_trans (Nat.succ_le_succ hitems) (by decide)
  have hwell : (Json.array (values.map toJson)).IsWellFormed :=
    .array _ (by simpa using fun v _ => v.toJson_isWellFormed)
  exact ((Reads.list hvalue).readText hwell values).mpr ⟨⟨hfinite, hdepth⟩, rfl⟩

end Value

namespace Expression

theorem hasNode_of_mem_constants {e : Expression} {v : Value} (h : v ∈ e.constants) :
    HasNode e (.constant v) := by
  induction e with
  | convert source target ih => exact .child (by simp [children]) (ih h)
  | constant v' =>
    rw [constants] at h
    split at h
    · cases h
    · cases List.mem_singleton.mp h
      exact .root _
  | binary operator left right ihl ihr =>
    rcases List.mem_append.mp h with h | h
    · exact .child (by simp [children]) (ihl h)
    · exact .child (by simp [children]) (ihr h)
  | unary operator operand ih => exact .child (by simp [children]) (ih h)
  | call name arguments ih =>
    rw [constants, argumentConstants_eq_map, ← Call.map_inEmissionOrder] at h
    obtain ⟨values, hm, hv⟩ := List.mem_flatten.mp h
    obtain ⟨a, ha, rfl⟩ := List.mem_map.mp hm
    have ha := Call.mem_inEmissionOrder.mp ha
    exact .child ha (ih a ha hv)
  | property p | collection items | lambda q s x p | rangeVariable x => simp [constants] at h

theorem ForallFloats.isFinite_of_mem_constants {e : Expression}
    (h : e.ForallFloats fun x => x.isFinite) {v : Value} (hv : v ∈ e.constants) : v.IsFinite := by
  cases v with
  | float x => exact h x (hasNode_of_mem_constants hv)
  | _ => trivial

end Expression

/-- The content is a text that reads as these options. -/
def QueryOptions.DenotedBy (o : QueryOptions) (content : Option ByteArray) : Prop :=
  ∃ text, content.bind String.fromUTF8? = some text ∧ readText QueryOptions.read text = .ok o

theorem QueryOptions.denotedBy_toUTF8 {o : QueryOptions} {text : String}
    (h : readText QueryOptions.read text = .ok o) : o.DenotedBy (some text.toUTF8) :=
  ⟨text, dif_pos text.isValidUTF8, h⟩

theorem QueryOptions.DenotedBy.unique {o o' : QueryOptions} {content : Option ByteArray}
    (h : o.DenotedBy content) (h' : o'.DenotedBy content) : o = o' := by
  obtain ⟨text, ht, ho⟩ := h
  obtain ⟨text', ht', ho'⟩ := h'
  cases ht.symm.trans ht'
  cases ho.symm.trans ho'
  rfl

namespace Clause

/-- The clause of the options, with the columns that are mapped or, if none is, with those of plain
identifiers. -/
def ofMappings (keyword : String) (columns : List (String × String)) (o : QueryOptions) :
    Clause Unit where
  keyword := keyword
  options := o
  resolve := .ofFunction <|
    if columns = [] then Property.plainColumn? else (ColumnMap.ofList columns).column?

variable {σ : Type}

theorem build_of_filter_eq_none {c : Clause σ} (h : c.options.filter = none) (state : σ)
    (parameters : Parameters) : c.build state parameters = ⟨.ok "", parameters, state⟩ := by
  rw [build, h]

/-- A clause is empty if there is no filter, and only then. -/
theorem eq_empty_iff_of_build_ok {c : Clause σ} {state : σ} {parameters : Parameters}
    {sql : String} (h : (c.build state parameters).result = .ok sql) :
    sql = "" ↔ c.options.filter = none := by
  constructor
  · rintro rfl
    rw [build] at h
    cases hf : c.options.filter with
    | none => rfl
    | some filter =>
      rw [hf] at h
      obtain ⟨rest, -, hempty⟩ := Outcome.result_precede_eq_ok_iff.mp h
      simp at hempty
  · intro hf
    rw [build_of_filter_eq_none hf] at h
    exact (Except.ok.inj h).symm

/-- No infinity and no NaN is bound for options that were read from a text. -/
theorem isFinite_of_build_ok {column? : Property → Option String} {keyword text : String}
    {o : QueryOptions} (ho : readText QueryOptions.read text = .ok o) {style : PlaceholderStyle}
    {state : σ} {sql : String}
    (h : ((Clause.mk keyword o (.ofFunction column?)).build state (.empty style)).result =
      .ok sql) :
    ∀ v ∈ ((Clause.mk keyword o (.ofFunction column?)).build state
      (.empty style)).parameters.values, v.IsFinite := by
  obtain ⟨filter⟩ := o
  cases filter with
  | none =>
    rw [build_of_filter_eq_none rfl]
    simp [Parameters.empty]
  | some e =>
    obtain ⟨rest, hrest, -⟩ := Outcome.result_precede_eq_ok_iff.mp h
    have hvalues : ((Clause.mk keyword ⟨some e⟩ (.ofFunction column?)).build state
        (.empty style)).parameters.values = e.constants :=
      congrArg Parameters.values (Expression.parameters_of_emit_ok hrest)
    rw [hvalues]
    exact fun v hv =>
      (Expression.fits_of_readText_options ho rfl).forallFloats.isFinite_of_mem_constants hv

end Clause

namespace CommandLine

namespace LogEntry

theorem level_ofEvent (event : ClauseEvent) : (ofEvent event).level ≠ .info := by
  cases event <;> exact nofun

end LogEntry

namespace Settings

theorem clause_eq (s : Settings) (o : QueryOptions) :
    s.clause o = .ofMappings s.keyword s.columns o := by
  unfold clause Clause.ofMappings columns?
  cases s.columns <;> rfl

/-- The clause that a run builds. -/
def built (s : Settings) (o : QueryOptions) : Outcome Unit :=
  (Clause.ofMappings s.keyword s.columns o).build () (.empty s.placeholder)

/-- The note of an empty clause is none of the other entries. -/
theorem noFilter_notMem (s : Settings) (o : QueryOptions) (event : ClauseEvent) :
    LogEntry.noFilter ∉ LogEntry.loaded o :: (s.columns?.map LogEntry.mapped).toList ++
      [LogEntry.ofEvent event] := by
  have hevent : LogEntry.noFilter ≠ LogEntry.ofEvent event := fun h =>
    LogEntry.level_ofEvent event (h ▸ rfl)
  cases s.columns? <;> simp [LogEntry.noFilter, LogEntry.loaded, LogEntry.mapped] at hevent ⊢ <;>
    exact hevent

theorem noFilter_mem_shown_iff {s : Settings} {log : List LogEntry} :
    LogEntry.noFilter ∈ s.shown log ↔ LogEntry.noFilter ∈ log := by
  have hlevel : (s.verbose || LogEntry.noFilter.level != .debug) = true := by
    rw [LogEntry.noFilter]
    simp
  rw [shown, List.mem_filter]
  exact and_iff_left hlevel

/-- A clause that is built is printed, and the empty one is noted. -/
theorem runOptions_of_ok {s : Settings} {o : QueryOptions} {sql : String}
    (h : (s.built o).result = .ok sql) :
    (s.runOptions o).output = .ok (s.printed sql (s.built o).parameters) ∧
      (LogEntry.noFilter ∈ (s.runOptions o).log ↔ sql = "") := by
  unfold built at *
  rw [runOptions, clause_eq]
  simp only [h, noFilter_mem_shown_iff, true_and]
  have hnotMem := s.noFilter_notMem o
  split
  · next hempty => simp [String.isEmpty_iff.mp hempty]
  · next hempty =>
    rw [String.isEmpty_iff] at hempty
    simp only [hempty, iff_false]
    exact hnotMem _

/-- Without a clause nothing is printed or noted. -/
theorem runOptions_of_error {s : Settings} {o : QueryOptions} {error : EmissionError}
    (h : (s.built o).result = .error error) :
    (s.runOptions o).output = .error (.unsupported error) ∧
      LogEntry.noFilter ∉ (s.runOptions o).log := by
  unfold built at *
  rw [runOptions, clause_eq]
  simp only [h, noFilter_mem_shown_iff, true_and]
  exact s.noFilter_notMem o _

theorem run_of_denotedBy {s : Settings} {o : QueryOptions} {content : Option ByteArray}
    (h : o.DenotedBy content) : s.run content = s.runOptions o := by
  obtain ⟨text, htext, ho⟩ := h
  rw [run, htext]
  simp only [runText, ho]

theorem run_of_not_denotedBy {s : Settings} {content : Option ByteArray}
    (h : ∀ o : QueryOptions, ¬o.DenotedBy content) :
    ∃ failure, s.run content = ⟨.error failure, []⟩ := by
  unfold run
  split
  · next text htext =>
    unfold runText
    split
    · next o ho => exact absurd ⟨text, htext, ho⟩ (h o)
    · exact ⟨_, rfl⟩
  · exact ⟨_, rfl⟩

/-- The content reads as these options, the clause that is built of them with fresh parameters is
`sql`, and these values are bound for it. -/
structure Builds (s : Settings) (content : Option ByteArray) (o : QueryOptions) (sql : String)
    (values : List Value) : Prop where
  denoted : o.DenotedBy content
  result_eq : (s.built o).result = .ok sql
  values_eq : (s.built o).parameters.values = values

/-- What is printed reads back to what was bound. -/
theorem Builds.readText_values {s : Settings} {content : Option ByteArray} {o : QueryOptions}
    {sql : String} {values : List Value} (h : s.Builds content o sql values)
    (hdigits : ∀ x, .float x ∈ values → x.DigitsReadBack) :
    readText (readList Value.read) (Json.array (values.map Value.toJson)).compact = .ok values := by
  obtain ⟨⟨text, -, ho⟩, hsql, rfl⟩ := h
  exact Value.readText_compact_list (Clause.isFinite_of_build_ok ho hsql) hdigits

theorem Builds.stdout_eq {s : Settings} {content : Option ByteArray} {o : QueryOptions}
    {sql : String} {values : List Value} (h : s.Builds content o sql values)
    (hs : s.explain = false) :
    (s.run content).stdout =
        sql ++ "\n" ++ (Json.array (values.map Value.toJson)).compact ++ "\n" ∧
      (s.run content).exitCode = 0 := by
  obtain ⟨ho, hsql, rfl⟩ := h
  have houtput := (runOptions_of_ok hsql).1
  rw [run_of_denotedBy ho, Report.stdout, Report.exitCode, houtput]
  refine ⟨?_, rfl⟩
  simp [printed, hs, Parameters.toJson]

/-- In all other cases nothing is printed. -/
theorem stdout_eq_empty {s : Settings} {content : Option ByteArray}
    (h : ¬∃ o sql values, s.Builds content o sql values) :
    (s.run content).stdout = "" ∧ (s.run content).exitCode = 1 := by
  obtain ⟨failure, houtput⟩ : ∃ failure, (s.run content).output = .error failure := by
    by_cases hdenoted : ∃ o : QueryOptions, o.DenotedBy content
    · obtain ⟨o, ho⟩ := hdenoted
      rw [run_of_denotedBy ho]
      cases hr : (s.built o).result with
      | ok sql => exact absurd ⟨o, sql, _, ho, hr, rfl⟩ h
      | error error => exact ⟨_, (runOptions_of_error hr).1⟩
    · obtain ⟨failure, hrun⟩ := s.run_of_not_denotedBy (not_exists.mp hdenoted)
      exact ⟨failure, by rw [hrun]⟩
  rw [Report.stdout, Report.exitCode, houtput]
  exact ⟨rfl, rfl⟩

/-- It is noted that there is no filter if there is none, and only then. -/
theorem noFilter_mem_log_iff (s : Settings) (content : Option ByteArray) :
    LogEntry.noFilter ∈ (s.run content).log ↔
      ∃ o : QueryOptions, o.DenotedBy content ∧ o.filter = none := by
  by_cases hdenoted : ∃ o : QueryOptions, o.DenotedBy content
  · obtain ⟨o, ho⟩ := hdenoted
    have hfilter : (∃ o : QueryOptions, o.DenotedBy content ∧ o.filter = none) ↔
        o.filter = none :=
      ⟨fun ⟨_, ho', hf⟩ => ho.unique ho' ▸ hf, fun hf => ⟨o, ho, hf⟩⟩
    rw [run_of_denotedBy ho, hfilter]
    cases hr : (s.built o).result with
    | ok sql => exact (runOptions_of_ok hr).2.trans (Clause.eq_empty_iff_of_build_ok hr)
    | error error =>
      refine iff_of_false (runOptions_of_error hr).2 fun hf => ?_
      rw [built, Clause.build_of_filter_eq_none hf] at hr
      cases hr
  · obtain ⟨failure, hrun⟩ := s.run_of_not_denotedBy (not_exists.mp hdenoted)
    rw [hrun]
    exact iff_of_false (List.not_mem_nil) fun ⟨o, ho, _⟩ => hdenoted ⟨o, ho⟩

/-- A run prints a clause and the values bound for it just if there is such a clause, and fails if
there is none. The values read back if the digits of the doubles among them do, and there is no
filter just if the clause is empty, which is then noted. -/
theorem run_prints (s : Settings) (content : Option ByteArray) (hs : s.explain = false) :
    ((s.run content).stdout ≠ "" ↔ ∃ o sql values, s.Builds content o sql values) ∧
      (∀ o sql values, s.Builds content o sql values →
        let array := (Json.array (values.map Value.toJson)).compact
        (s.run content).stdout = sql ++ "\n" ++ array ++ "\n" ∧ (s.run content).exitCode = 0 ∧
          ((∀ x, .float x ∈ values → x.DigitsReadBack) →
            readText (readList Value.read) array = .ok values) ∧
          (sql = "" ↔ o.filter = none)) ∧
      ((s.run content).stdout = "" → (s.run content).exitCode ≠ 0) ∧
      (LogEntry.noFilter ∈ (s.run content).log ↔
        ∃ o : QueryOptions, o.DenotedBy content ∧ o.filter = none) := by
  have hprinted {o : QueryOptions} {sql : String} {values : List Value}
      (h : s.Builds content o sql values) : (s.run content).stdout ≠ "" := by
    rw [(h.stdout_eq hs).1]
    simp
  refine ⟨⟨fun h => ?_, fun ⟨o, sql, values, h⟩ => hprinted h⟩, fun o sql values h => ?_,
    fun hempty => ?_, s.noFilter_mem_log_iff content⟩
  · by_contra hnone
    exact h (stdout_eq_empty hnone).1
  · obtain ⟨hstdout, hexit⟩ := h.stdout_eq hs
    exact ⟨hstdout, hexit, h.readText_values, Clause.eq_empty_iff_of_build_ok h.result_eq⟩
  · have hnone : ¬∃ o sql values, s.Builds content o sql values :=
      fun ⟨o, sql, values, h⟩ => hprinted h hempty
    rw [(stdout_eq_empty hnone).2]
    decide

theorem run_prints_float :
    let x : Binary64 := ⟨0x3FF8000000000000⟩
    let o : QueryOptions :=
      ⟨some (.binary .lessThan (.property ⟨none, "Price"⟩) (.constant (.float x)))⟩
    let s : Settings := ⟨none, "having", .question, [("Price", "o.price")], false, false⟩
    let content : Option ByteArray := some o.toJson.compact.toUTF8
    let array := (Json.array [Value.toJson (.float x)]).compact
    s.Builds content o "HAVING (o.price < ?)" [.float x] ∧
      (s.run content).stdout = "HAVING (o.price < ?)" ++ "\n" ++ array ++ "\n" ∧
      readText (readList Value.read) array = .ok [.float x] := by
  intro x o s content array
  have hfloats {Q : Binary64 → Prop} (hQ : Q x) : ∀ e, o.filter = some e → e.ForallFloats Q := by
    rintro _ ⟨⟩
    rw [Expression.forallFloats_iff_children (by rintro _ ⟨⟩)]
    simp [Expression.children, Expression.forallFloats_constant, hQ,
      Expression.forallFloats_iff_children (e := .property _) (by rintro _ ⟨⟩)]
  have hdigits : x.DigitsReadBack := Binary64.digitsReadBack_three_halves
  have hread : readText QueryOptions.read o.toJson.compact = .ok o :=
    (QueryOptions.readText_compact_iff (hfloats fun _ => hdigits) o).mpr
      ⟨⟨hfloats (by decide), by decide⟩, rfl⟩
  have hbuilds : s.Builds content o "HAVING (o.price < ?)" [.float x] :=
    ⟨QueryOptions.denotedBy_toUTF8 hread, by decide, by decide⟩
  obtain ⟨-, hprints, -, -⟩ := run_prints s content rfl
  obtain ⟨hstdout, -, hvalues, -⟩ := hprints o _ _ hbuilds
  refine ⟨hbuilds, hstdout, hvalues fun y hy => ?_⟩
  cases List.mem_singleton.mp hy
  exact hdigits

end Settings

end CommandLine

end FilterClause
