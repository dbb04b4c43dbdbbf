import FilterClause.CommandLine.Run
import FilterClause.Proofs.Emission.Domain
import FilterClause.Proofs.Emission.Resolution
import FilterClause.Proofs.Expression.Normalising

/-!
# The depth of expressions that are read

Emission refuses a node below too many others, whatever the resolver answers, only where a path is
too long. The levels that a reader may open keep the paths of an expression far below that: a chain
of conversions is read up to 64 nodes, and nothing that is read has a longer path. So the program,
which takes its filter from a text, never meets this refusal.
-/

namespace FilterClause

open Json

namespace Event

variable {σ : Type} {resolve : Resolver σ}

/-- A walk is stopped by an offence that it meets, or by a property without a column. -/
theorem offence_mem_of_run {xs : List Event} {state : σ} {parameters : Parameters}
    {error : EmissionError} (h : (run resolve xs state parameters).1 = some error)
    (hcolumn : ∀ p, error ≠ .column p) : offence error ∈ xs := by
  induction xs generalizing state parameters with
  | nil => cases h
  | cons x xs ih =>
    cases x with
    | constant v => exact List.mem_cons_of_mem _ (ih h)
    | access p =>
      rw [run] at h
      split at h
      · exact List.mem_cons_of_mem _ (ih h)
      · cases h
        exact absurd rfl (hcolumn p)
    | offence e =>
      cases h
      exact List.mem_cons_self

/-- A walk goes through to the end, if nothing is an offence for a function whose properties have
columns in all states. -/
theorem run_of_clear {column? : Property → Option String}
    (hresolve : ∀ p state, (column? p).isSome → (resolve p state).1.isSome) {xs : List Event}
    (h : Clear column? xs) (state : σ) (parameters : Parameters) :
    (run resolve xs state parameters).1 = none := by
  induction xs generalizing state parameters with
  | nil => rfl
  | cons x xs ih =>
    have hxs : Clear column? xs := fun y hy => h y (List.mem_cons_of_mem _ hy)
    have hx := h x List.mem_cons_self
    cases x with
    | constant v => exact ih hxs state (parameters.append v)
    | access p =>
      have hp : (column? p).isSome := by
        by_contra hp
        rw [offence?, if_neg hp] at hx
        cases hx
      have hr := hresolve p state hp
      rw [run]
      split
      · exact ih hxs _ parameters
      · next heq =>
        rw [heq] at hr
        cases hr
    | offence e => cases hx

end Event

namespace Expression

/-- The nesting is refused at the root or below a child. -/
theorem depth_offence_mem {kind : String} {level : ℕ} {e : Expression}
    (h : Event.offence (.depth kind) ∈ e.events level) :
    256 < level ∨ ∃ c ∈ e.children, Event.offence (.depth kind) ∈ c.events (level + 1) := by
  by_cases hl : 256 < level
  · exact .inl hl
  right
  cases e with
  | convert source target =>
    simpa [events, entryEvents.eq_def, hl, children] using h
  | constant v =>
    simp only [events, entryEvents.eq_def, if_neg hl, List.append_nil, List.nil_append] at h
    split at h <;> simp at h
  | binary operator left right =>
    by_cases ho : operator = .has <;>
      simpa [events, entryEvents.eq_def, hl, children, ho] using h
  | unary operator operand =>
    cases operator <;> simpa [events, entryEvents.eq_def, hl, children] using h
  | call name arguments =>
    by_cases hk : Call.IsKnown name arguments.length <;>
      simpa [events, entryEvents.eq_def, hl, children, hk, argumentEvents_eq_map,
        ← Call.map_inEmissionOrder] using h
  | property p | collection items | lambda q source x predicate | rangeVariable x =>
    simp [events, entryEvents.eq_def, hl] at h

theorem PathsWithin.not_depth_offence {kind : String} {level : ℕ} {e : Expression}
    (h : e.PathsWithin (257 - level)) : Event.offence (.depth kind) ∉ e.events level := by
  induction e using induction_children generalizing level with
  | step e ih =>
    rw [pathsWithin_iff] at h
    intro hmem
    rcases depth_offence_mem hmem with hl | ⟨c, hc, hmem⟩
    · omega
    · refine ih c hc ?_ hmem
      exact (h.2 c hc).mono (by omega)

variable {σ : Type} {e : Expression}

theorem PathsWithin.emit_ne_depth (h : e.PathsWithin 256) (resolve : Resolver σ) (state : σ)
    (parameters : Parameters) (kind : String) :
    (e.emit resolve state parameters).result ≠ .error (.depth kind) := by
  intro hresult
  have hwalk := Outcome.walk_eq_some_iff.mpr ⟨hresult, rfl, rfl⟩
  rw [walk_emit] at hwalk
  exact h.not_depth_offence (Event.offence_mem_of_run (congrArg Prod.fst hwalk) (by simp))

theorem PathsWithin.exists_emit (h : e.PathsWithin 256) {resolve : Resolver σ}
    {column? : Property → Option String}
    (hresolve : ∀ p state, (column? p).isSome → (resolve p state).1.isSome)
    (hnodes : ∀ node, HasNode e node → node.IsExpressible column?) (state : σ)
    (parameters : Parameters) : ∃ sql, (e.emit resolve state parameters).result = .ok sql := by
  have hclear : Event.Clear column? (e.events 1) :=
    (clear_events_iff_isExpressible 1 e).mpr ⟨h, hnodes⟩
  have hrun := Event.run_of_clear hresolve hclear state parameters
  rw [← walk_emit] at hrun
  exact (Outcome.walk_eq_none_iff.mp (Prod.ext hrun rfl)).1

end Expression

theorem Clause.build_ne_depth {σ : Type} (c : Clause σ) (state : σ) (parameters : Parameters)
    (h : ∀ e, c.options.filter = some e → e.PathsWithin 256) (kind : String) :
    (c.build state parameters).result ≠ .error (.depth kind) := by
  unfold build
  split
  · rintro ⟨⟩
  · next filter hfilter =>
    have hne := (h filter hfilter).emit_ne_depth c.resolve state parameters kind
    cases hr : (filter.emit c.resolve state parameters).result with
    | ok sql => simp [Outcome.precede, hr, Except.map]
    | error error =>
      rw [hr] at hne
      simpa [Outcome.precede, hr, Except.map] using hne

namespace CommandLine.Settings

theorem runOptions_ne_depth (s : Settings) {o : QueryOptions}
    (h : ∀ e, o.filter = some e → e.PathsWithin 256) (kind : String) :
    (s.runOptions o).output ≠ .error (.unsupported (.depth kind)) := by
  have hne := (s.clause o).build_ne_depth () (.empty s.placeholder) h kind
  rw [runOptions]
  split
  · rintro ⟨⟩
  · next error hr =>
    rintro ⟨⟩
    exact hne hr

/-- The program never refuses a filter for its depth, whatever it is given. -/
theorem run_ne_depth (s : Settings) (content : Option ByteArray) (kind : String) :
    (s.run content).output ≠ .error (.unsupported (.depth kind)) := by
  unfold run
  split
  · unfold runText
    split
    · next o ho =>
      refine s.runOptions_ne_depth (fun e he => ?_) kind
      exact (Expression.fits_of_readText_options ho he).pathsWithin.mono (by decide)
    · rintro ⟨⟩
  · rintro ⟨⟩

end CommandLine.Settings

namespace Expression

/-- A chain of conversions around a null is read exactly if it has at most 64 nodes: this is as deep
as anything that is read can be. -/
theorem readText_converts_null_iff (n : ℕ) :
    readText Expression.read (converts n (constant .null)).toJson.compact =
      .ok (converts n (constant .null)) ↔ n + 1 ≤ 64 := by
  have hfloats {Q : Binary64 → Prop} : (converts n (constant .null)).ForallFloats Q :=
    forallFloats_converts (forallFloats_constant.mpr (by rintro x ⟨⟩)) n
  have hnull : (constant .null).toJson.depth = 1 := rfl
  have hdepth : 2 * n + 1 ≤ nestingLimit ↔ n + 1 ≤ 64 := by
    rw [nestingLimit]
    omega
  rw [readText_compact_iff hfloats, toJson_converts, depth_convertJson, hnull, hdepth]
  exact ⟨fun h => h.1.2, fun h => ⟨⟨hfloats, h⟩, rfl⟩⟩

/-- No path of an expression that is read from a text is longer than 64 nodes, or than 63 in the
filter of query options. So nothing that is read is ever refused for its depth, by emission or by
the program. If its nodes have forms and its properties columns, it has the text of its skeleton
with the columns that the resolver answers, asked for the accesses in their order. -/
theorem readText_pathsWithin (text : String) (e : Expression) :
    (readText Expression.read text = .ok e → e.PathsWithin 64) ∧
    (readText QueryOptions.read text = .ok ⟨some e⟩ → e.PathsWithin 63) ∧
    (readText Expression.read text = .ok e ∨ readText QueryOptions.read text = .ok ⟨some e⟩ →
      ∀ (σ : Type) (resolve : Resolver σ) (state : σ) (parameters : Parameters),
        (∀ kind, (e.emit resolve state parameters).result ≠ .error (.depth kind)) ∧
        ∀ column? : Property → Option String,
          (∀ p state, (column? p).isSome → (resolve p state).1.isSome) →
          (∀ node, HasNode e node → node.IsExpressible column?) →
          ∃ k : Skeleton, e.skeleton? (fun _ => some "") = some k.outline ∧
            k.columns.map some = (resolve.ask e.accesses state).1 ∧
            (e.emit resolve state parameters).result =
              .ok (k.text parameters.style.render parameters.size)) ∧
    ∀ (s : CommandLine.Settings) (content : Option ByteArray) (kind : String),
      (s.run content).output ≠ .error (.unsupported (.depth kind)) := by
  have hexpression (h : readText Expression.read text = .ok e) : e.PathsWithin 64 :=
    (fits_of_readText h).pathsWithin
  have hoptions (h : readText QueryOptions.read text = .ok ⟨some e⟩) : e.PathsWithin 63 :=
    (fits_of_readText_options h rfl).pathsWithin
  refine ⟨hexpression, hoptions, fun h σ resolve state parameters => ?_,
    fun s content kind => s.run_ne_depth content kind⟩
  have hpaths : e.PathsWithin 256 := by
    rcases h with h | h
    · exact (hexpression h).mono (by decide)
    · exact (hoptions h).mono (by decide)
  refine ⟨hpaths.emit_ne_depth resolve state parameters, fun column? hresolve hnodes => ?_⟩
  obtain ⟨sql, hsql⟩ := hpaths.exists_emit hresolve hnodes state parameters
  obtain ⟨k, houtline, hcolumns, rfl⟩ := exists_text_of_emit hsql
  exact ⟨k, houtline, hcolumns, hsql⟩

theorem readText_pathsWithin_not :
    let e : Expression := .unary .not (.property ⟨none, "a"⟩)
    let resolve : Resolver ℕ := fun p n => (some (p.name ++ toString n), n + 1)
    readText QueryOptions.read (QueryOptions.toJson ⟨some e⟩).compact = .ok ⟨some e⟩ ∧
      e.PathsWithin 63 ∧
      ∃ k : Skeleton, e.skeleton? (fun _ => some "") = some k.outline ∧ k.columns = ["a7"] ∧
        (e.emit resolve 7 (.empty .dollar)).result = .ok (k.text PlaceholderStyle.dollar.render 0) ∧
        k.text PlaceholderStyle.dollar.render 0 = "NOT a7" := by
  intro e resolve
  have hfloats {Q : Binary64 → Prop} : e.ForallFloats Q := by
    change (unary .not (property ⟨none, "a"⟩)).ForallFloats Q
    rw [forallFloats_iff_children (by rintro _ ⟨⟩)]
    simp [children, forallFloats_iff_children (e := property _) (by rintro _ ⟨⟩)]
  have hread : readText QueryOptions.read (QueryOptions.toJson ⟨some e⟩).compact =
      .ok ⟨some e⟩ :=
    (QueryOptions.readText_compact_iff (by rintro _ ⟨⟩; exact hfloats) _).mpr
      ⟨⟨by rintro _ ⟨⟩; exact hfloats, by decide⟩, rfl⟩
  have hnodes : ∀ node, HasNode e node → node.IsExpressible fun p => some p.name := by
    rw [forall_hasNode_iff]
    simp [children, e, IsExpressible, forall_hasNode_iff _ (property _)]
  obtain ⟨-, hpaths, hemit, -⟩ := readText_pathsWithin (QueryOptions.toJson ⟨some e⟩).compact e
  obtain ⟨k, houtline, hcolumns, hresult⟩ := (hemit (.inr hread) ℕ resolve 7 (.empty .dollar)).2
    (fun p => some p.name) (fun _ _ _ => rfl) hnodes
  have hanswers : k.columns.map some = [some "a7"] := hcolumns.trans (by decide)
  have htext : (e.emit resolve 7 (.empty .dollar)).result = .ok "NOT a7" := by decide
  refine ⟨hread, hpaths hread, k, houtline, ?_, hresult, ?_⟩
  · exact List.map_injective_iff.mpr (Option.some_injective String) hanswers
  · exact Except.ok.inj (hresult.symm.trans htext)

end Expression

end FilterClause
