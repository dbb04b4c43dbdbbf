import FilterClause.Proofs.Expression.Json

/-!
# How deep an expression may be that was read

Every node takes levels from the reader, whatever the document looks like: one for the object that
names its kind, and most kinds another one for their content or their list. So the levels bound the
paths of an expression that is read. The one kind whose text may be less deep than it is written is
a call without arguments, whose list need not be there.
-/

namespace FilterClause

open Json

namespace Expression

/-- The arrays and objects that a node opens around each of its children: the one that names its
kind, its content, and the list of a call's arguments. -/
def levels : Expression → ℕ
  | constant _ | rangeVariable _ => 1
  | call _ _ => 3
  | _ => 2

theorem levels_pos (e : Expression) : 0 < e.levels := by cases e <;> simp [levels]

theorem two_le_levels {e c : Expression} (h : c ∈ e.children) : 2 ≤ e.levels := by
  cases e with
  | constant v => cases h
  | rangeVariable name => cases h
  | _ => simp [levels]

/-- What may be read where `n` levels may be opened. -/
inductive Fits : Expression → ℕ → Prop where
  | constant {v n} (h : v.Fits n) : Fits (.constant v) (n + 1)
  | bareCall (name n) : Fits (.call name []) (n + 2)
  | node {e n} (he : ∀ v, e ≠ .constant v) (h : ∀ c ∈ e.children, Fits c n) :
    Fits e (n + e.levels)

section Records

variable {operand : Reader Expression} {level : ℕ} {doc : Document} {e : Expression}
  (hoperand : ∀ ⦃level doc e⦄, operand level doc = .ok e → e.Fits level)

include hoperand

theorem fits_of_mem_some (h : operand level doc = .ok e) : ∀ c ∈ some e, c.Fits level := by
  rintro _ ⟨⟩
  exact hoperand h

theorem fits_convert
    (h : readRecord (ConvertDraft.fields operand) .empty ConvertDraft.finish level doc = .ok e) :
    e.Fits (level + 1) := by
  obtain ⟨n, rfl, hdraft⟩ := exists_draft_of_readRecord h
  obtain ⟨⟨source, target⟩, hs, hfinish⟩ := hdraft (fun d => ∀ s ∈ d.source, s.Fits n)
    (by rintro _ ⟨⟩) (by
      simp only [ConvertDraft.fields, List.forall_mem_cons]
      refine ⟨RecordField.keeps_of ?_, RecordField.keeps_of ?_, by simp⟩
      · exact fun _ _ _ ha _ => fits_of_mem_some hoperand ha
      · exact fun _ _ _ _ hd => hd)
  obtain ⟨s, rfl, hfinish⟩ := Option.bind_eq_some_iff.mp hfinish
  cases hfinish
  exact .node (by rintro _ ⟨⟩) (by simpa [children] using hs)

theorem fits_binary
    (h : readRecord (BinaryDraft.fields operand) .empty BinaryDraft.finish level doc = .ok e) :
    e.Fits (level + 1) := by
  obtain ⟨n, rfl, hdraft⟩ := exists_draft_of_readRecord h
  obtain ⟨⟨operator, left, right⟩, ⟨hl, hr⟩, hfinish⟩ := hdraft
    (fun d => (∀ l ∈ d.left, l.Fits n) ∧ ∀ r ∈ d.right, r.Fits n)
    ⟨by rintro _ ⟨⟩, by rintro _ ⟨⟩⟩ (by
      simp only [BinaryDraft.fields, List.forall_mem_cons]
      refine ⟨RecordField.keeps_of ?_, RecordField.keeps_of ?_, RecordField.keeps_of ?_, by simp⟩
      · exact fun _ _ _ _ hd => hd
      · exact fun _ _ _ ha hd => ⟨fits_of_mem_some hoperand ha, hd.2⟩
      · exact fun _ _ _ ha hd => ⟨hd.1, fits_of_mem_some hoperand ha⟩)
  obtain ⟨o, -, hfinish⟩ := Option.bind_eq_some_iff.mp hfinish
  obtain ⟨l, rfl, hfinish⟩ := Option.bind_eq_some_iff.mp hfinish
  obtain ⟨r, rfl, hfinish⟩ := Option.bind_eq_some_iff.mp hfinish
  cases hfinish
  exact .node (by rintro _ ⟨⟩) (by simpa [children] using ⟨hl l rfl, hr r rfl⟩)

theorem fits_unary
    (h : readRecord (UnaryDraft.fields operand) .empty UnaryDraft.finish level doc = .ok e) :
    e.Fits (level + 1) := by
  obtain ⟨n, rfl, hdraft⟩ := exists_draft_of_readRecord h
  obtain ⟨⟨operator, operand'⟩, ho, hfinish⟩ := hdraft (fun d => ∀ x ∈ d.operand, x.Fits n)
    (by rintro _ ⟨⟩) (by
      simp only [UnaryDraft.fields, List.forall_mem_cons]
      refine ⟨RecordField.keeps_of ?_, RecordField.keeps_of ?_, by simp⟩
      · exact fun _ _ _ _ hd => hd
      · exact fun _ _ _ ha _ => fits_of_mem_some hoperand ha)
  obtain ⟨o, -, hfinish⟩ := Option.bind_eq_some_iff.mp hfinish
  obtain ⟨x, rfl, hfinish⟩ := Option.bind_eq_some_iff.mp hfinish
  cases hfinish
  exact .node (by rintro _ ⟨⟩) (by simpa [children] using ho)

/-- The arguments of a call take a level of their own, if they are there. -/
theorem fits_call
    (h : readRecord (CallDraft.fields operand) .empty CallDraft.finish level doc = .ok e) :
    e.Fits (level + 1) := by
  obtain ⟨n, rfl, hdraft⟩ := exists_draft_of_readRecord h
  obtain ⟨⟨name, arguments⟩, ha, hfinish⟩ := hdraft
    (fun d => ∀ as ∈ d.arguments, ∃ m, n = m + 1 ∧ ∀ a ∈ as, a.Fits m) (by rintro _ ⟨⟩) (by
      simp only [CallDraft.fields, List.forall_mem_cons]
      refine ⟨RecordField.keeps_of ?_, RecordField.keeps_of ?_, by simp⟩
      · exact fun _ _ _ _ hd => hd
      · rintro doc as draft has - _ ⟨⟩
        obtain ⟨m, hm, hitems⟩ := exists_item_of_readList has
        exact ⟨m, hm, fun a ha => (hitems a ha).elim fun _ h => hoperand h⟩)
  obtain ⟨s, -, hfinish⟩ := Option.bind_eq_some_iff.mp hfinish
  cases hfinish
  cases arguments with
  | none => exact .bareCall s n
  | some as =>
    obtain ⟨m, rfl, has⟩ := ha as rfl
    exact .node (by rintro _ ⟨⟩) has

theorem fits_collection {items : List Expression} (h : readList operand level doc = .ok items) :
    (collection items).Fits (level + 1) := by
  obtain ⟨n, rfl, hitems⟩ := exists_item_of_readList h
  exact .node (by rintro _ ⟨⟩) fun a ha => (hitems a ha).elim fun _ h => hoperand h

theorem fits_lambda
    (h : readRecord (LambdaDraft.fields operand) .empty LambdaDraft.finish level doc = .ok e) :
    e.Fits (level + 1) := by
  obtain ⟨n, rfl, hdraft⟩ := exists_draft_of_readRecord h
  obtain ⟨⟨quantifier, source, parameter, predicate⟩, ⟨hs, hp⟩, hfinish⟩ := hdraft
    (fun d => (∀ s ∈ d.source, s.Fits n) ∧ ∀ p ∈ d.predicate, p.Fits n)
    ⟨by rintro _ ⟨⟩, by rintro _ ⟨⟩⟩ (by
      simp only [LambdaDraft.fields, List.forall_mem_cons]
      refine ⟨RecordField.keeps_of ?_, RecordField.keeps_of ?_, RecordField.keeps_of ?_,
        RecordField.keeps_of ?_, by simp⟩
      · exact fun _ _ _ _ hd => hd
      · exact fun _ _ _ ha hd => ⟨fits_of_mem_some hoperand ha, hd.2⟩
      · exact fun _ _ _ _ hd => hd
      · exact fun _ _ _ ha hd => ⟨hd.1, fits_of_mem_some hoperand ha⟩)
  obtain ⟨q, -, hfinish⟩ := Option.bind_eq_some_iff.mp hfinish
  obtain ⟨s, rfl, hfinish⟩ := Option.bind_eq_some_iff.mp hfinish
  obtain ⟨x, -, hfinish⟩ := Option.bind_eq_some_iff.mp hfinish
  obtain ⟨p, rfl, hfinish⟩ := Option.bind_eq_some_iff.mp hfinish
  cases hfinish
  exact .node (by rintro _ ⟨⟩) (by simpa [children] using ⟨hs s rfl, hp p rfl⟩)

end Records

theorem fits_property {level : ℕ} {doc : Document} {p : Property}
    (h : Property.read level doc = .ok p) : (property p).Fits (level + 1) := by
  obtain ⟨n, rfl, -⟩ := exists_draft_of_readRecord h
  exact .node (by rintro _ ⟨⟩) (by simp [children])

/-- What is read from a document, whatever its spelling, fits the levels that may be opened. -/
theorem fits_of_readBelow {height level : ℕ} {doc : Document} {e : Expression}
    (h : readBelow height level doc = .ok e) : e.Fits level := by
  induction height generalizing level doc e with
  | zero => cases h
  | succ height ih =>
    have hoperand : ∀ ⦃level doc e⦄, readBelow height level doc = .ok e → e.Fits level :=
      fun _ _ _ h => ih h
    rcases readUnion_eq_ok_iff.mp h with
      ⟨name, fault, -, hcase⟩ | ⟨n, name, content, unionCase, rfl, -, hcase, h⟩
    · unfold caseOf at hcase
      split at hcase <;> cases hcase
    · unfold caseOf at hcase
      split at hcase <;> cases hcase
      · exact fits_convert hoperand h
      · obtain ⟨v, hv, rfl⟩ := map_eq_ok_iff.mp h
        exact .constant (Value.fits_of_read hv)
      · exact fits_binary hoperand h
      · exact fits_unary hoperand h
      · obtain ⟨p, hp, rfl⟩ := map_eq_ok_iff.mp h
        exact fits_property hp
      · exact fits_call hoperand h
      · obtain ⟨items, hitems, rfl⟩ := map_eq_ok_iff.mp h
        exact fits_collection hoperand hitems
      · exact fits_lambda hoperand h
      · obtain ⟨name, -, rfl⟩ := map_eq_ok_iff.mp h
        exact .node (by rintro _ ⟨⟩) (by simp [children])

theorem fits_of_read {level : ℕ} {doc : Document} {e : Expression}
    (h : read level doc = .ok e) : e.Fits level :=
  fits_of_readBelow h

end Expression

theorem QueryOptions.fits_of_read {level : ℕ} {doc : Document} {o : QueryOptions}
    (h : QueryOptions.read level doc = .ok o) :
    ∃ n, level = n + 1 ∧ ∀ e, o.filter = some e → e.Fits n := by
  obtain ⟨n, rfl, hdraft⟩ := exists_draft_of_readRecord h
  obtain ⟨⟨filter⟩, hf, hfinish⟩ := hdraft (fun d => ∀ e, d.filter = some (some e) → e.Fits n)
    (by rintro _ ⟨⟩) (by
      simp only [Draft.fields, List.forall_mem_cons]
      refine ⟨RecordField.keeps_of ?_, by simp⟩
      rintro doc a draft ha - e ⟨⟩
      exact Expression.fits_of_read (eq_ok_of_readOption ha))
  cases hfinish
  refine ⟨n, rfl, fun e he => hf e ?_⟩
  exact Option.join_eq_some_iff.mp he

namespace Expression

theorem fits_of_readText {text : String} {e : Expression}
    (h : readText Expression.read text = .ok e) : e.Fits nestingLimit := by
  obtain ⟨doc, hdoc⟩ := exists_document_of_readText h
  exact fits_of_read hdoc

/-- The object of query options is one level. -/
theorem fits_of_readText_options {text : String} {o : QueryOptions}
    (h : readText QueryOptions.read text = .ok o) {e : Expression} (he : o.filter = some e) :
    e.Fits (nestingLimit - 1) := by
  obtain ⟨doc, hdoc⟩ := exists_document_of_readText h
  obtain ⟨n, hn, hfits⟩ := QueryOptions.fits_of_read hdoc
  rw [hn]
  exact hfits e he

end Expression

namespace Expression

theorem PathsWithin.mono {m n : ℕ} {e : Expression} (h : e.PathsWithin m) (hmn : m ≤ n) :
    e.PathsWithin n :=
  fun path hp => (h path hp).trans hmn

/-- Each node of a path but the last takes two levels, and the last one at least one. -/
theorem Fits.pathsWithin {e : Expression} {n : ℕ} (h : e.Fits n) : e.PathsWithin ((n + 1) / 2) := by
  induction h with
  | constant h =>
    rw [pathsWithin_iff]
    exact ⟨by omega, by simp [children]⟩
  | bareCall name n =>
    rw [pathsWithin_iff]
    exact ⟨by omega, by simp [children]⟩
  | @node e n he h ih =>
    rw [pathsWithin_iff]
    have hpos := e.levels_pos
    refine ⟨by omega, fun c hc => (ih c hc).mono ?_⟩
    have htwo := two_le_levels hc
    omega

end Expression

end FilterClause
