import FilterClause.Proofs.Expression.Nesting

/-!
# Writing what was read

Whatever was read is written with the same levels around each node, except that a call always has
its list of arguments. So the text written for it reads back, unless a call without arguments stands
where just two more levels may be opened: the shorter text of such a call can be read there, but not
the text that is written for it.
-/

namespace FilterClause

open Json

namespace Expression

theorem itemDepth_listJson_le_iff {es : List Expression} {n : ℕ} :
    itemDepth (listJson es) ≤ n ↔ ∀ e ∈ es, e.toJson.depth ≤ n := by
  rw [listJson_eq_map, itemDepth_le_iff, List.forall_mem_map]

/-- The text of a node opens its own levels around the texts of its children. -/
theorem depth_toJson_le_iff {e : Expression} (he : ∀ v, e ≠ constant v) {n : ℕ} :
    e.toJson.depth ≤ n + e.levels ↔ ∀ c ∈ e.children, c.toJson.depth ≤ n := by
  cases e with
  | constant v => exact absurd rfl (he v)
  | convert source target =>
    cases target <;>
      simp [toJson, optionalMember, Value.depth_tagged, depth, memberDepth, levels, children]
  | binary operator left right =>
    simp [toJson, BinaryOperator.toJson, Value.depth_tagged, depth, memberDepth, levels, children]
  | unary operator operand =>
    simp [toJson, UnaryOperator.toJson, Value.depth_tagged, depth, memberDepth, levels, children]
  | property p =>
    obtain ⟨entity, name⟩ := p
    cases entity <;>
      simp [toJson, Property.toJson, optionalMember, Value.depth_tagged, depth, memberDepth, levels,
        children]
  | call name arguments =>
    rw [children, ← itemDepth_listJson_le_iff]
    simp [toJson, Value.depth_tagged, depth, memberDepth, levels]
  | collection items =>
    rw [children, ← itemDepth_listJson_le_iff]
    simp [toJson, Value.depth_tagged, depth, levels]
  | lambda quantifier source parameter predicate =>
    simp [toJson, Quantifier.toJson, Value.depth_tagged, depth, memberDepth, levels, children]
  | rangeVariable name => simp [toJson, Value.depth_tagged, depth, levels, children]

/-- A call without arguments stands inside just `n` arrays and objects of the text. -/
inductive HasBareCall : ℕ → Expression → Prop where
  | root (name) : HasBareCall 0 (.call name [])
  | child {e c n} (hc : c ∈ e.children) (h : HasBareCall n c) : HasBareCall (n + e.levels) e

theorem HasBareCall.depth_le {n : ℕ} {e : Expression} (h : HasBareCall n e) :
    n + 3 ≤ e.toJson.depth := by
  induction h with
  | root name => simp [toJson, Value.depth_tagged, depth, memberDepth, listJson, itemDepth]
  | @child e c n hc h ih =>
    by_contra hlt
    have hconstant : ∀ v, e ≠ constant v := by
      rintro v rfl
      cases hc
    have hle : e.toJson.depth ≤ n + 2 + e.levels := by omega
    have hc := (depth_toJson_le_iff hconstant).mp hle c hc
    omega

/-- Only for a call without arguments the text written may be deeper than a text that was read. -/
theorem Fits.depth_le_or {n : ℕ} {e : Expression} (h : e.Fits n) :
    e.toJson.depth ≤ n ∨ ∃ k, n = k + 2 ∧ e.HasBareCall k := by
  induction h with
  | constant h =>
    left
    rw [toJson, Value.depth_tagged]
    exact Nat.succ_le_succ h.depth_le
  | bareCall name n =>
    cases n with
    | zero => exact .inr ⟨0, rfl, .root name⟩
    | succ n =>
      left
      simp [toJson, Value.depth_tagged, depth, memberDepth, listJson, itemDepth]
  | @node e n he h ih =>
    by_cases hall : ∀ c ∈ e.children, c.toJson.depth ≤ n
    · exact .inl ((depth_toJson_le_iff he).mpr hall)
    · push Not at hall
      obtain ⟨c, hc, hdeep⟩ := hall
      rcases ih c hc with hle | ⟨k, rfl, hk⟩
      · omega
      · exact .inr ⟨k + e.levels, by omega, .child hc hk⟩

theorem Fits.depth_le_iff {n : ℕ} {e : Expression} (h : e.Fits (n + 2)) :
    e.toJson.depth ≤ n + 2 ↔ ¬e.HasBareCall n := by
  constructor
  · intro hle hbare
    have hdepth := hbare.depth_le
    omega
  · intro hbare
    rcases h.depth_le_or with hle | ⟨k, hk, hk'⟩
    · exact hle
    · obtain rfl : n = k := by omega
      exact absurd hk' hbare

theorem Fits.forallFloats {n : ℕ} {e : Expression} (h : e.Fits n) :
    e.ForallFloats fun x => x.isFinite := by
  induction h with
  | constant h => exact forallFloats_isFinite_constant.mpr h.isFinite
  | bareCall name n =>
    rw [forallFloats_iff_children (by rintro _ ⟨⟩)]
    simp [children]
  | node he h ih => exact (forallFloats_iff_children he).mpr ih

theorem not_hasBareCall_call {name : String} {n : ℕ} : ¬HasBareCall (n + 1) (call name []) := by
  intro h
  generalize hn : n + 1 = m at h
  cases h with
  | root => cases hn
  | child hc h => cases hc

/-- A call without arguments, written without the list of them. -/
def bareCallJson (name : String) : Json :=
  Value.tagged "function_call" (.object [("name", .string name)])

theorem reads_bareCall (name : String) (height : ℕ) :
    Reads height (readBelow height) (bareCallJson name) True (call name []) := by
  cases height with
  | zero => exact .zero _ _ _ _
  | succ height =>
    have hmembers : ReadsMembers height (CallDraft.fields (readBelow height)) .empty
        [("name", .string name)] (True ∧ True) ⟨some name, none⟩ :=
      .cons rfl rfl (Value.reads_string height name) (.nil _ _ _)
    exact reads_record hmembers rfl rfl (by simp)

theorem bareCallJson_isWellFormed (name : String) : (bareCallJson name).IsWellFormed :=
  Value.tagged_isWellFormed (.object _ (by simpa using Json.IsWellFormed.string name))

theorem forallFloats_bareCall {Q : Binary64 → Prop} (name : String) :
    (call name []).ForallFloats Q := by
  rw [forallFloats_iff_children (by rintro _ ⟨⟩)]
  simp [children]

/-- Conversions around an expression. -/
def converts : ℕ → Expression → Expression
  | 0, e => e
  | n + 1, e => convert (converts n e) none

/-- Conversions around the text of an expression. -/
def convertJson : ℕ → Json → Json
  | 0, j => j
  | n + 1, j => Value.tagged "convert" (.object [("source", convertJson n j)])

theorem toJson_converts (n : ℕ) (e : Expression) :
    (converts n e).toJson = convertJson n e.toJson := by
  induction n with
  | zero => rfl
  | succ n ih =>
    rw [converts, toJson, ih]
    rfl

theorem reads_converts {j : Json} {e : Expression}
    (h : ∀ height, Reads height (readBelow height) j True e) (n height : ℕ) :
    Reads height (readBelow height) (convertJson n j) True (converts n e) := by
  induction n generalizing height with
  | zero => exact h height
  | succ n ih =>
    cases height with
    | zero => exact .zero _ _ _ _
    | succ height => exact reads_source (ih height)

theorem depth_convertJson (n : ℕ) (j : Json) : (convertJson n j).depth = 2 * n + j.depth := by
  induction n with
  | zero => rw [convertJson, Nat.mul_zero, Nat.zero_add]
  | succ n ih =>
    rw [convertJson, Value.depth_tagged, depth, memberDepth, memberDepth, Nat.max_zero, ih]
    ring

theorem convertJson_isWellFormed {j : Json} (h : j.IsWellFormed) (n : ℕ) :
    (convertJson n j).IsWellFormed := by
  induction n with
  | zero => exact h
  | succ n ih => exact Value.tagged_isWellFormed (.object _ (by simpa using ih))

theorem forallFloats_converts {Q : Binary64 → Prop} {e : Expression} (h : e.ForallFloats Q)
    (n : ℕ) : (converts n e).ForallFloats Q := by
  induction n with
  | zero => exact h
  | succ n ih =>
    rw [converts, forallFloats_iff_children (by rintro _ ⟨⟩)]
    simpa [children] using ih

/-- The text written for what was read from a text is never read as something else, and is read as
the same unless a call without arguments stands where just two more levels may be opened. -/
theorem readText_compact_of_readText (text : String) :
    (∀ e, readText Expression.read text = .ok e →
      (e.ForallFloats fun x => x.DigitsReadBack) →
      (readText Expression.read e.toJson.compact = .ok e ↔ ¬e.HasBareCall 125) ∧
      ∀ e', readText Expression.read e.toJson.compact = .ok e' → e' = e) ∧
    ∀ o, readText QueryOptions.read text = .ok o →
      (∀ e, o.filter = some e → e.ForallFloats fun x => x.DigitsReadBack) →
      (readText QueryOptions.read o.toJson.compact = .ok o ↔
        ∀ e, o.filter = some e → ¬e.HasBareCall 124) ∧
      ∀ o', readText QueryOptions.read o.toJson.compact = .ok o' → o' = o := by
  constructor
  · intro e h hdigits
    have hfits := fits_of_readText h
    have hiff := readText_compact_iff fun x hx _ => hdigits x hx
    refine ⟨?_, fun e' he' => ((hiff e').mp he').2⟩
    have hdepth : e.toJson.depth ≤ nestingLimit ↔ ¬e.HasBareCall 125 := Fits.depth_le_iff hfits
    rw [hiff, hdepth]
    exact ⟨fun h => h.1.2, fun h => ⟨⟨hfits.forallFloats, h⟩, rfl⟩⟩
  · intro o h hdigits
    have hiff := QueryOptions.readText_compact_iff fun e he x hx _ => hdigits e he x hx
    refine ⟨?_, fun o' ho' => ((hiff o').mp ho').2⟩
    obtain ⟨filter⟩ := o
    rw [hiff]
    cases filter with
    | none => simp [QueryOptions.toJson, optionalMember, depth, memberDepth, nestingLimit]
    | some e =>
      have hfits : e.Fits 126 := fits_of_readText_options h rfl
      have hle : e.toJson.depth + 1 ≤ nestingLimit ↔ e.toJson.depth ≤ 126 := Nat.succ_le_succ_iff
      rw [QueryOptions.depth_toJson, hle, Fits.depth_le_iff hfits]
      simp [hfits.forallFloats]

theorem readText_compact_of_readText_now :
    readText Expression.read (bareCallJson "now").compact = .ok (.call "now" []) ∧
      readText Expression.read (Expression.call "now" []).toJson.compact =
        .ok (.call "now" []) := by
  have hreads : Reads (nestingLimit + 1) Expression.read (bareCallJson "now") True
      (.call "now" []) :=
    fun level _ => reads_bareCall "now" (level + 1) level (Nat.lt_succ_self level)
  have hread : readText Expression.read (bareCallJson "now").compact = .ok (.call "now" []) :=
    (hreads.readText (bareCallJson_isWellFormed "now") _).mpr ⟨⟨trivial, by decide⟩, rfl⟩
  obtain ⟨hexpression, -⟩ := readText_compact_of_readText (bareCallJson "now").compact
  exact ⟨hread, (hexpression _ hread (forallFloats_bareCall "now")).1.mpr not_hasBareCall_call⟩

/-- A filter of sixty-two conversions around a call that is written without its list opens as many
levels as a reader may, and the text written for it one more. -/
theorem not_readText_compact_of_readText :
    let text := (Json.object [("filter", convertJson 62 (bareCallJson "now"))]).compact
    let o : QueryOptions := ⟨some (converts 62 (.call "now" []))⟩
    readText QueryOptions.read text = .ok o ∧
      (∀ e, o.filter = some e → e.ForallFloats fun x => x.DigitsReadBack) ∧
      ∀ o', readText QueryOptions.read o.toJson.compact ≠ .ok o' := by
  intro text o
  have hwell : (Json.object [("filter", convertJson 62 (bareCallJson "now"))]).IsWellFormed :=
    .object _ (by simpa using convertJson_isWellFormed (bareCallJson_isWellFormed "now") 62)
  have hfilter : Reads nestingLimit Expression.read (convertJson 62 (bareCallJson "now")) True
      (converts 62 (.call "now" [])) := fun level _ =>
    reads_converts (reads_bareCall "now") 62 (level + 1) level (Nat.lt_succ_self level)
  have hreads := QueryOptions.reads_filter hfilter (by rintro fault ⟨⟩)
  have hshort : (Json.object [("filter", convertJson 62 (bareCallJson "now"))]).depth ≤
      nestingLimit := by
    rw [depth, memberDepth, memberDepth, Nat.max_zero, depth_convertJson]
    decide
  have hfloats {Q : Binary64 → Prop} (e : Expression) (he : o.filter = some e) :
      e.ForallFloats Q := by
    cases he
    exact forallFloats_converts (forallFloats_bareCall "now") 62
  refine ⟨(hreads.readText hwell o).mpr ⟨⟨trivial, hshort⟩, rfl⟩, hfloats, fun o' ho' => ?_⟩
  have hdepth := ((QueryOptions.readText_compact_iff hfloats o').mp ho').1.2
  rw [QueryOptions.depth_toJson, toJson_converts, depth_convertJson] at hdepth
  exact absurd hdepth (by decide)

end Expression

end FilterClause
