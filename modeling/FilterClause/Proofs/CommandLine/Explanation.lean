import FilterClause.Proofs.CommandLine.Run
import FilterClause.Proofs.Emission.Safety
import FilterClause.Proofs.Resolver.ColumnMap
import FilterClause.Proofs.Text.Line
import FilterClause.Proofs.Value.Inline

/-!
# What a run explains

A run that is asked to explains its placeholders, each in a line that is a comment. Neither the
clause nor the array of the values has a line break of its own, so everything behind the second line
is explanation. But the literal of a text has the line breaks of the text: an explanation has one
line more for each of them, and what stands in such a line need not be a comment.
-/

namespace FilterClause

open Json

namespace Json

theorem newline_notMem_stringChars (s : String) : '\n' ∉ stringChars s := by
  have hcontrol : ∀ n : Fin 0x20, '\n' ∉
      ['\\', 'u', '0', '0', Digit.hexChar 'a' (n.val / 16), Digit.hexChar 'a' (n.val % 16)] := by
    decide
  have hescape (c : Char) : '\n' ∉ escape c := by
    unfold escape
    split
    iterate 7 decide
    · next hnewline _ _ =>
      split
      · next hc => exact hcontrol ⟨c.toNat, hc⟩
      · exact fun hm => hnewline (List.mem_singleton.mp hm).symm
  simp [stringChars, hescape]

theorem newline_notMem_numeralChars (n : Numeral) : '\n' ∉ n.chars := by
  have hdigits := Digit.newline_notMem_map_char
  have hexponent (e : Option (Bool × List Digit)) : '\n' ∉ Numeral.exponentChars e := by
    rcases e with _ | ⟨negative, digits⟩
    · exact List.not_mem_nil
    · cases negative <;> simpa [Numeral.exponentChars] using hdigits digits
  have hfraction : '\n' ∉ if n.fraction.isEmpty then [] else '.' :: n.fraction.map Digit.char := by
    split
    · exact List.not_mem_nil
    · exact List.not_mem_cons_of_ne_of_not_mem (by decide) (hdigits _)
  have hsign : '\n' ∉ if n.negative then ['-'] else [] := by split <;> decide
  simp only [Numeral.chars, List.mem_append, hsign, hdigits, hfraction, hexponent, or_self,
    not_false_eq_true]

theorem newline_notMem_commaSeparated {parts : List (List Char)} (h : ∀ p ∈ parts, '\n' ∉ p) :
    '\n' ∉ commaSeparated parts := by
  induction parts with
  | nil => exact List.not_mem_nil
  | cons p parts ih =>
    obtain ⟨hp, hparts⟩ := List.forall_mem_cons.mp h
    cases parts with
    | nil => exact hp
    | cons q parts => simpa [commaSeparated, hp] using ih hparts

/-- What is in a value, the line breaks of its strings are escaped. -/
theorem newline_notMem_chars (j : Json) : '\n' ∉ j.chars := by
  induction j with
  | null => decide
  | bool b => cases b <;> decide
  | number n => exact newline_notMem_numeralChars n
  | string s => exact newline_notMem_stringChars s
  | array items ih =>
    have hparts : ∀ p ∈ itemChars items, '\n' ∉ p := by
      rw [itemChars_eq_map, List.forall_mem_map]
      exact ih
    simpa [chars] using newline_notMem_commaSeparated hparts
  | object members ih =>
    have hparts : ∀ p ∈ memberChars members, '\n' ∉ p := by
      rw [memberChars_eq_map, List.forall_mem_map]
      intro m hm
      simpa [newline_notMem_stringChars] using ih m hm
    simpa [chars] using newline_notMem_commaSeparated hparts

end Json

theorem Harmless.newline_notMem {s : List Char} (h : Harmless s) : '\n' ∉ s := fun hm =>
  absurd (h.isStatementChar _ hm).1 (by decide)

theorem PlaceholderStyle.newline_notMem_render (style : PlaceholderStyle) (n : ℕ) :
    '\n' ∉ (style.render n).toList :=
  (safe_render style n).toHarmless.newline_notMem

namespace Call

theorem newline_notMem_intercalate {texts : List String} (h : ∀ t ∈ texts, '\n' ∉ t.toList) :
    '\n' ∉ (", ".intercalate texts).toList := by
  induction texts with
  | nil => exact List.not_mem_nil
  | cons t texts ih =>
    obtain ⟨ht, htexts⟩ := List.forall_mem_cons.mp h
    cases texts with
    | nil => rwa [String.intercalate_singleton]
    | cons u texts =>
      rw [String.intercalate_cons_cons]
      simpa [ht] using ih htexts

theorem newline_notMem_text {name : String} {arguments : List String}
    (hk : IsKnown name arguments.length) (h : ∀ a ∈ arguments, '\n' ∉ a.toList) :
    '\n' ∉ (text name arguments).toList := by
  by_cases hn : name ∈ predicates
  · obtain ⟨hl, d, hd, rfl, ht⟩ := exists_pattern hk hn
    obtain ⟨subject, argument, rfl⟩ := List.length_eq_two.mp hl
    obtain ⟨-, ho, hc, -⟩ := safe_delimiters (List.mem_append_right _ hd)
    rw [ht]
    simp [h, ho.newline_notMem, hc.newline_notMem]
  · obtain ⟨d, hd, rfl⟩ := mem_brackets_of_isKnown hk hn
    obtain ⟨hw, ho, hc, -⟩ := safe_delimiters (List.mem_append_left _ hd)
    have ha : '\n' ∉ (", ".intercalate (inEmissionOrder d.name arguments)).toList :=
      newline_notMem_intercalate fun a ha => h a (mem_inEmissionOrder.mp ha)
    rw [text_of_mem_brackets hd hk]
    simp only [String.toList_append, List.mem_append, hw.toHarmless.newline_notMem,
      ho.newline_notMem, ha, hc.newline_notMem, or_self, not_false_eq_true]

end Call

namespace Expression

variable {column? : Property → Option String}
  (hcolumns : ∀ p c, column? p = some c → '\n' ∉ c.toList)

include hcolumns

/-- A line break in the text of an expression is one of a column. -/
theorem newline_notMem_text_of_skeleton? {e : Expression} {k : Skeleton}
    (h : e.skeleton? column? = some k) (style : PlaceholderStyle) (n : ℕ) :
    '\n' ∉ (k.text style.render n).toList := by
  induction e generalizing k n with
  | convert source target ih => exact ih h n
  | constant v =>
    cases h
    split
    · rw [Skeleton.text]
      decide
    · rw [Skeleton.text]
      exact style.newline_notMem_render n
  | binary operator left right ihl ihr =>
    obtain ⟨word, l, r, hw, hl, hr, rfl⟩ := skeleton?_binary_eq_some_iff.mp h
    have hw := (Skeleton.safe_word (BinaryOperator.ofWord?_of_word? hw).2).toHarmless.newline_notMem
    have hl := ihl hl n
    have hr := ihr hr (n + l.holes)
    rw [Skeleton.text]
    simp_all
  | unary operator operand ih =>
    obtain ⟨_, x, hx, rfl⟩ := skeleton?_unary_eq_some_iff.mp h
    rw [Skeleton.text, String.toList_append, List.mem_append, not_or]
    exact ⟨by decide, ih hx n⟩
  | property p =>
    obtain ⟨c, hc, rfl⟩ := skeleton?_property_eq_some_iff.mp h
    rw [Skeleton.text]
    exact hcolumns p c hc
  | call name arguments ih =>
    obtain ⟨hk, ks, hks, rfl⟩ := skeleton?_call_eq_some_iff.mp h
    rw [Skeleton.text]
    apply Call.newline_notMem_text
    · rw [Skeleton.length_argumentTexts, ← hks.length_eq]
      exact hk
    · intro t ht
      obtain ⟨k, hm, m, rfl⟩ := Skeleton.exists_of_mem_argumentTexts ht
      obtain ⟨a, ha, hak⟩ := exists_mem_of_forall₂ hks hm
      exact ih a ha hak m
  | collection items | lambda q s x p | rangeVariable x => cases h

end Expression

/-- A line break in a clause is one of the keyword or of a column. -/
theorem Clause.newline_notMem_build {σ : Type} {column? : Property → Option String}
    (hcolumns : ∀ p c, column? p = some c → '\n' ∉ c.toList) {keyword : String}
    (hkeyword : '\n' ∉ keyword.toList) {o : QueryOptions} {state : σ} {parameters : Parameters}
    {sql : String}
    (h : ((Clause.mk keyword o (.ofFunction column?)).build state parameters).result = .ok sql) :
    '\n' ∉ sql.toList := by
  obtain ⟨filter⟩ := o
  cases filter with
  | none =>
    rw [build_of_filter_eq_none rfl] at h
    cases h
    exact List.not_mem_nil
  | some e =>
    obtain ⟨text, ht, rfl⟩ := Outcome.result_precede_eq_ok_iff.mp h
    obtain ⟨k, hk, rfl⟩ := Expression.text_of_emit_ok ht
    have hword := Text.newline_notMem_upperCase hkeyword
    have htext := Expression.newline_notMem_text_of_skeleton? hcolumns hk parameters.style
      parameters.size
    simp [hword, htext]

/-- Building a clause does not change how placeholders are spelt. -/
theorem Clause.style_build {σ : Type} {column? : Property → Option String} {keyword : String}
    {o : QueryOptions} {state : σ} {parameters : Parameters} {sql : String}
    (h : ((Clause.mk keyword o (.ofFunction column?)).build state parameters).result = .ok sql) :
    ((Clause.mk keyword o (.ofFunction column?)).build state parameters).parameters.style =
      parameters.style := by
  obtain ⟨filter⟩ := o
  cases filter with
  | none => rw [build_of_filter_eq_none rfl]
  | some e =>
    obtain ⟨text, ht, -⟩ := Outcome.result_precede_eq_ok_iff.mp h
    have hparameters := Expression.parameters_of_emit_ok ht
    simp only [build, Outcome.precede, hparameters]

/-- Options without doubles read back from their text. -/
theorem QueryOptions.denotedBy_compact {o : QueryOptions}
    (h : ∀ Q, ∀ e, o.filter = some e → e.ForallFloats Q) (hdepth : o.toJson.depth ≤ nestingLimit) :
    o.DenotedBy (some o.toJson.compact.toUTF8) :=
  denotedBy_toUTF8 ((readText_compact_iff (h _) o).mpr ⟨⟨h _, hdepth⟩, rfl⟩)

namespace CommandLine.Settings

/-- The columns of a run have no line breaks if the mapped ones have none. -/
theorem newline_notMem_column {columns : List (String × String)}
    (hcolumns : ∀ m ∈ columns, '\n' ∉ m.2.toList) {p : Property} {c : String}
    (h : (if columns = [] then Property.plainColumn? else (ColumnMap.ofList columns).column?) p =
      some c) : '\n' ∉ c.toList := by
  split at h
  · exact (Property.safe_plainColumn? h).toHarmless.newline_notMem
  · obtain ⟨m, hm, rfl⟩ := ColumnMap.exists_mem_of_column?_ofList h
    exact hcolumns m hm

/-- What a run that is asked to says of the value at an index. -/
def explanation (s : Settings) (v : Value) (index : ℕ) : String :=
  "-- " ++ s.placeholder.render index ++ " = " ++ v.inline

theorem count_newline_explanation (s : Settings) (v : Value) (index : ℕ) :
    (s.explanation v index).toList.count '\n' = v.lineBreaks := by
  have hrender := List.count_eq_zero_of_not_mem (s.placeholder.newline_notMem_render index)
  rw [explanation]
  simp [Value.count_newline_inline, hrender]

theorem Builds.exitCode_eq {s : Settings} {content : Option ByteArray} {o : QueryOptions}
    {sql : String} {values : List Value} (h : s.Builds content o sql values) :
    (s.run content).exitCode = 0 := by
  rw [run_of_denotedBy h.denoted, Report.exitCode, (runOptions_of_ok h.result_eq).1]

/-- The text of a run: two lines, and behind them the explanations. -/
theorem Builds.stdout_explain {s : Settings} {content : Option ByteArray} {o : QueryOptions}
    {sql : String} {values : List Value} (h : s.Builds content o sql values)
    (hs : s.explain = true) :
    (s.run content).stdout.toList =
      sql.toList ++ '\n' :: ((Json.array (values.map Value.toJson)).compact.toList ++ '\n' ::
        values.zipIdx.flatMap fun v => (s.explanation v.1 v.2).toList ++ ['\n']) := by
  obtain ⟨ho, hsql, rfl⟩ := h
  have hstyle : (s.built o).parameters.style = s.placeholder := Clause.style_build hsql
  rw [run_of_denotedBy ho, Report.stdout, (runOptions_of_ok hsql).1]
  simp only [printed, hs, if_true, Parameters.toJson, Parameters.explanations, hstyle]
  simp [List.flatMap, Function.comp_def, explanation, String.toList_join]

section

variable {s : Settings} {content : Option ByteArray} {o : QueryOptions} {sql : String}
  {values : List Value} (h : s.Builds content o sql values) (hs : s.explain = true)
  (hkeyword : '\n' ∉ s.keyword.toList) (hcolumns : ∀ m ∈ s.columns, '\n' ∉ m.2.toList)

include h hs hkeyword hcolumns

/-- The lines of a run: the clause, the array of the values, and those of the explanations. -/
theorem Builds.lines_stdout :
    Text.lines (s.run content).stdout.toList =
      sql.toList :: (Json.array (values.map Value.toJson)).compact.toList ::
        values.zipIdx.flatMap fun v => Text.lines ((s.explanation v.1 v.2).toList ++ ['\n']) := by
  have hsql : '\n' ∉ sql.toList :=
    Clause.newline_notMem_build (fun _ _ => newline_notMem_column hcolumns) hkeyword h.result_eq
  have harray : '\n' ∉ (Json.array (values.map Value.toJson)).compact.toList := by
    rw [Json.compact, String.toList_ofList]
    exact Json.newline_notMem_chars _
  rw [h.stdout_explain hs, Text.lines_append_newline_cons hsql,
    Text.lines_append_newline_cons harray, Text.lines_flatMap]

/-- An explanation takes a line, and one more for each line break of its value. -/
theorem Builds.length_lines_stdout :
    (Text.lines (s.run content).stdout.toList).length =
      2 + values.length + (values.map Value.lineBreaks).sum := by
  have hexplained (values : List Value) (index : ℕ) :
      ((values.zipIdx index).flatMap fun v =>
        Text.lines ((s.explanation v.1 v.2).toList ++ ['\n'])).length =
        values.length + (values.map Value.lineBreaks).sum := by
    induction values generalizing index with
    | nil => rfl
    | cons v values ih =>
      rw [List.zipIdx_cons, List.flatMap_cons, List.length_append, ih, Text.length_lines,
        s.count_newline_explanation v index, List.map_cons, List.sum_cons, List.length_cons]
      omega
  rw [h.lines_stdout hs hkeyword hcolumns, List.length_cons, List.length_cons, hexplained]
  omega

/-- If no value has a line break then each of the others is one line, and a comment. -/
theorem Builds.lines_stdout_of_lineBreaks (hvalues : ∀ v ∈ values, v.lineBreaks = 0) :
    Text.lines (s.run content).stdout.toList =
      sql.toList :: (Json.array (values.map Value.toJson)).compact.toList ::
        values.zipIdx.map fun v => (s.explanation v.1 v.2).toList := by
  have hexplanation : ∀ v ∈ values.zipIdx,
      Text.lines ((s.explanation v.1 v.2).toList ++ ['\n']) = [(s.explanation v.1 v.2).toList] := by
    rintro ⟨v, index⟩ hv
    have hcount := s.count_newline_explanation v index
    rw [hvalues v (List.fst_mem_of_mem_zipIdx hv), List.count_eq_zero] at hcount
    exact Text.lines_append_newline_cons hcount []
  rw [h.lines_stdout hs hkeyword hcolumns, List.flatMap_congr hexplanation, ← List.map_eq_flatMap]

end

/-- A run that succeeds and is asked to explain prints the clause, the array of the values, and for
each value its placeholder and its literal behind the sign of a comment. That makes one line for
each value, a comment as a whole, just if no value has a line break; each line break makes one
more. -/
theorem run_explains (s : Settings) (content : Option ByteArray) (hs : s.explain = true)
    (hsuccess : (s.run content).exitCode = 0) (hkeyword : '\n' ∉ s.keyword.toList)
    (hcolumns : ∀ m ∈ s.columns, '\n' ∉ m.2.toList) :
    ∃ o sql values, s.Builds content o sql values ∧
      let array := (Json.array (values.map Value.toJson)).compact
      let printed := Text.lines (s.run content).stdout.toList
      printed = sql.toList :: array.toList ::
          values.zipIdx.flatMap (fun v => Text.lines ((s.explanation v.1 v.2).toList ++ ['\n'])) ∧
        printed.length = 2 + values.length + (values.map Value.lineBreaks).sum ∧
        (printed.length = 2 + values.length ↔ ∀ v ∈ values, v.lineBreaks = 0) ∧
        ((∀ v ∈ values, v.lineBreaks = 0) →
          printed = sql.toList :: array.toList ::
              values.zipIdx.map (fun v => (s.explanation v.1 v.2).toList) ∧
            ∀ line ∈ printed.drop 2, "-- ".toList <+: line) := by
  obtain ⟨o, sql, values, h⟩ : ∃ o sql values, s.Builds content o sql values := by
    by_contra hnone
    rw [(stdout_eq_empty hnone).2] at hsuccess
    exact absurd hsuccess (by decide)
  have hlength := h.length_lines_stdout hs hkeyword hcolumns
  refine ⟨o, sql, values, h, h.lines_stdout hs hkeyword hcolumns, hlength, ?_, fun hvalues => ?_⟩
  · rw [hlength, Nat.add_eq_left, List.sum_eq_zero_iff_forall_eq_nat, List.forall_mem_map]
  · have hlines := h.lines_stdout_of_lineBreaks hs hkeyword hcolumns hvalues
    refine ⟨hlines, fun line hline => ?_⟩
    rw [hlines, List.drop_succ_cons, List.drop_succ_cons, List.drop_zero] at hline
    obtain ⟨v, -, rfl⟩ := List.mem_map.mp hline
    rw [explanation, String.append_assoc, String.append_assoc, String.toList_append]
    exact List.prefix_append _ _

theorem run_explains_quote :
    let v : Value := .text "O'Brien"
    let o : QueryOptions := ⟨some (.binary .equal (.property ⟨none, "Name"⟩) (.constant v))⟩
    let s : Settings := ⟨none, "having", .dollar, [("Name", "n")], true, false⟩
    let content : Option ByteArray := some o.toJson.compact.toUTF8
    (s.explain = true ∧ (s.run content).exitCode = 0 ∧ '\n' ∉ s.keyword.toList ∧
      ∀ m ∈ s.columns, '\n' ∉ m.2.toList) ∧
    ∃ o sql values, s.Builds content o sql values ∧
      (Text.lines (s.run content).stdout.toList).length =
        2 + values.length + (values.map Value.lineBreaks).sum := by
  intro v o s content
  have hfloats : ∀ Q, ∀ e, o.filter = some e → e.ForallFloats Q := by
    rintro Q _ ⟨⟩
    rw [Expression.forallFloats_iff_children (by rintro _ ⟨⟩)]
    simp [Expression.children, Expression.forallFloats_constant, v,
      Expression.forallFloats_iff_children (e := .property _) (by rintro _ ⟨⟩)]
  have hbuilds : s.Builds content o "HAVING (n = $1)" [v] :=
    ⟨QueryOptions.denotedBy_compact hfloats (by decide), by decide, by decide⟩
  have hcolumns : ∀ m ∈ s.columns, '\n' ∉ m.2.toList :=
    List.forall_mem_singleton.mpr (by decide)
  obtain ⟨o, sql, values, h, -, hlength, -⟩ :=
    run_explains s content rfl hbuilds.exitCode_eq (by decide) hcolumns
  exact ⟨⟨rfl, hbuilds.exitCode_eq, by decide, hcolumns⟩, o, sql, values, h, hlength⟩

/-- A line break in a text ends the comment in which the text is explained. -/
theorem run_breaks_comment :
    let v : Value := .text "x\n; DROP TABLE t"
    let o : QueryOptions := ⟨some (.constant v)⟩
    let s : Settings := ⟨none, "where", .atP, [], true, false⟩
    let content : Option ByteArray := some o.toJson.compact.toUTF8
    let printed := Text.lines (s.run content).stdout.toList
    (s.explain = true ∧ (s.run content).exitCode = 0 ∧ '\n' ∉ s.keyword.toList ∧ s.columns = []) ∧
      s.Builds content o "WHERE @p0" [v] ∧
      printed = ["WHERE @p0".toList, (Json.array [v.toJson]).compact.toList, "-- @p0 = N'x".toList,
        "; DROP TABLE t'".toList] ∧
      printed.length ≠ 2 + [v].length ∧ ¬∀ line ∈ printed.drop 2, "-- ".toList <+: line := by
  intro v o s content printed
  have hfloats : ∀ Q, ∀ e, o.filter = some e → e.ForallFloats Q := by
    rintro Q _ ⟨⟩
    exact Expression.forallFloats_constant.mpr nofun
  have hbuilds : s.Builds content o "WHERE @p0" [v] :=
    ⟨QueryOptions.denotedBy_compact hfloats (by decide), by decide, by decide⟩
  have hprinted : printed = ["WHERE @p0".toList, (Json.array [v.toJson]).compact.toList,
      "-- @p0 = N'x".toList, "; DROP TABLE t'".toList] := by
    have hexplained : Text.lines ((s.explanation v 0).toList ++ ['\n']) =
        ["-- @p0 = N'x".toList, "; DROP TABLE t'".toList] := by decide
    refine (hbuilds.lines_stdout rfl (by decide) nofun).trans ?_
    rw [List.zipIdx_singleton, List.flatMap_singleton, hexplained]
    rfl
  refine ⟨⟨rfl, hbuilds.exitCode_eq, by decide, rfl⟩, hbuilds, hprinted, ?_, ?_⟩
  · rw [hprinted]
    exact nofun
  · rw [hprinted]
    decide

end CommandLine.Settings

end FilterClause
