import FilterClause.Expression.Json
import FilterClause.Proofs.Expression.Structure
import FilterClause.Proofs.Value.Json

/-!
# Written expressions

The JSON of an expression reads as that expression and as no other, exactly if its doubles are
finite and it opens no more arrays and objects than a reader may; this takes that the digits of its
finite doubles read back. The same holds of query options, whose object is one level more.
-/

namespace FilterClause

open Json

theorem BinaryOperator.reads (bound : ℕ) (o : BinaryOperator) :
    Reads bound BinaryOperator.read o.toJson True o :=
  Reads.bare (by cases o <;> rfl) bound

theorem UnaryOperator.reads (bound : ℕ) (o : UnaryOperator) :
    Reads bound UnaryOperator.read o.toJson True o :=
  Reads.bare (by cases o <;> rfl) bound

theorem Quantifier.reads (bound : ℕ) (q : Quantifier) :
    Reads bound Quantifier.read q.toJson True q :=
  Reads.bare (by cases q <;> rfl) bound

theorem Json.reads_optionalString (bound : ℕ) (s : String) :
    Reads bound (readOption readString) (.string s) True (some s) :=
  (Value.reads_string bound s).option (by simp [Document.ofJson])

theorem Property.reads (bound : ℕ) (p : Property) :
    Reads (bound + 1) Property.read p.toJson True p := by
  obtain ⟨entity, name⟩ := p
  have hname := Value.reads_string bound name
  cases entity with
  | none =>
    have hmembers : ReadsMembers bound Draft.fields Draft.empty [("name", .string name)]
        (True ∧ True) ⟨none, some name⟩ := .cons rfl rfl hname (.nil _ _ _)
    have hrecord : Reads (bound + 1) read (toJson ⟨none, name⟩) (True ∧ True) ⟨none, name⟩ :=
      hmembers.record rfl
    exact hrecord.congr (by simp)
  | some entity =>
    have hmembers : ReadsMembers bound Draft.fields Draft.empty
        [("entity", .string entity), ("name", .string name)] (True ∧ True ∧ True)
        ⟨some (some entity), some name⟩ :=
      .cons rfl rfl (reads_optionalString bound entity) (.cons rfl rfl hname (.nil _ _ _))
    have hrecord : Reads (bound + 1) read (toJson ⟨some entity, name⟩) (True ∧ True ∧ True)
        ⟨some entity, name⟩ := hmembers.record rfl
    exact hrecord.congr (by simp)

namespace Expression

/-- All doubles of the expression have the property. -/
def ForallFloats (Q : Binary64 → Prop) (e : Expression) : Prop :=
  ∀ x, HasNode e (.constant (.float x)) → Q x

section

variable {Q : Binary64 → Prop}

theorem forallFloats_constant {v : Value} :
    (constant v).ForallFloats Q ↔ ∀ x, v = .float x → Q x := by
  constructor
  · rintro h x rfl
    exact h x (.root _)
  · intro h x hx
    cases hx with
    | root => exact h x rfl
    | child hc _ => cases hc

theorem forallFloats_iff_children {e : Expression} (he : ∀ v, e ≠ .constant v) :
    e.ForallFloats Q ↔ ∀ c ∈ e.children, c.ForallFloats Q := by
  constructor
  · exact fun h c hc x hx => h x (.child hc hx)
  · intro h x hx
    cases hx with
    | root => exact absurd rfl (he _)
    | child hc hx => exact h _ hc x hx

theorem forallFloats_isFinite_constant {v : Value} :
    (constant v).ForallFloats (fun x => x.isFinite) ↔ v.IsFinite := by
  rw [forallFloats_constant]
  cases v <;> simp [Value.IsFinite]

end

theorem listJson_eq_map (es : List Expression) : listJson es = es.map toJson := by
  induction es with
  | nil => rfl
  | cons e es ih => rw [listJson, ih, List.map_cons]

section Reads

variable {height : ℕ} {good good' : Prop}

/-- A case whose content is a record reads back, where its fields do. -/
theorem reads_record {δ : Type} {tag : String} {fields : List (RecordField δ)} {empty full : δ}
    {finish : δ → Option Expression} {members : List (String × Json)} {e : Expression}
    (h : ReadsMembers height fields empty members good full)
    (hcase : caseOf (readBelow height) tag = some (.carrying (readRecord fields empty finish)))
    (hfinish : finish full = some e) (hgood : good ↔ good') :
    Reads (height + 1) (readBelow (height + 1)) (Value.tagged tag (.object members)) good' e :=
  ((Reads.carrying hcase (h.record hfinish)).mono (Nat.le_succ _)).congr hgood

/-- A conversion without a target reads back, whatever text its source has. -/
theorem reads_source {source : Expression} {j : Json}
    (h : Reads height (readBelow height) j good source) :
    Reads (height + 1) (readBelow (height + 1))
      (Value.tagged "convert" (.object [("source", j)])) good (convert source none) := by
  have hmembers : ReadsMembers height (ConvertDraft.fields (readBelow height)) .empty
      [("source", j)] (good ∧ True) ⟨some source, none⟩ := .cons rfl rfl h (.nil _ _ _)
  exact reads_record hmembers rfl rfl (by simp)

theorem reads_convert {source : Expression} (target : Option String)
    (h : Reads height (readBelow height) source.toJson good source) :
    Reads (height + 1) (readBelow (height + 1)) (convert source target).toJson good
      (convert source target) := by
  cases target with
  | none => exact reads_source h
  | some target =>
    have hmembers : ReadsMembers height (ConvertDraft.fields (readBelow height)) .empty
        [("source", source.toJson), ("target", .string target)] (good ∧ True ∧ True)
        ⟨some source, some (some target)⟩ :=
      .cons rfl rfl h (.cons rfl rfl (reads_optionalString height target) (.nil _ _ _))
    exact reads_record hmembers rfl rfl (by simp)

theorem reads_binary (operator : BinaryOperator) {left right : Expression}
    (hl : Reads height (readBelow height) left.toJson good left)
    (hr : Reads height (readBelow height) right.toJson good' right) :
    Reads (height + 1) (readBelow (height + 1)) (binary operator left right).toJson (good ∧ good')
      (binary operator left right) := by
  have hmembers : ReadsMembers height (BinaryDraft.fields (readBelow height)) .empty
      [("kind", operator.toJson), ("left", left.toJson), ("right", right.toJson)]
      (True ∧ good ∧ good' ∧ True) ⟨some operator, some left, some right⟩ :=
    .cons rfl rfl (operator.reads height) (.cons rfl rfl hl (.cons rfl rfl hr (.nil _ _ _)))
  exact reads_record hmembers rfl rfl (by simp)

theorem reads_unary (operator : UnaryOperator) {operand : Expression}
    (h : Reads height (readBelow height) operand.toJson good operand) :
    Reads (height + 1) (readBelow (height + 1)) (unary operator operand).toJson good
      (unary operator operand) := by
  have hmembers : ReadsMembers height (UnaryDraft.fields (readBelow height)) .empty
      [("kind", operator.toJson), ("operand", operand.toJson)] (True ∧ good ∧ True)
      ⟨some operator, some operand⟩ :=
    .cons rfl rfl (operator.reads height) (.cons rfl rfl h (.nil _ _ _))
  exact reads_record hmembers rfl rfl (by simp)

theorem reads_call (name : String) {arguments : List Expression} {good : Expression → Prop}
    (h : ∀ a ∈ arguments, Reads height (readBelow height) a.toJson (good a) a) :
    Reads (height + 1) (readBelow (height + 1)) (call name arguments).toJson
      (∀ a ∈ arguments, good a) (call name arguments) := by
  have hlist := (Reads.list h).mono (Nat.le_succ height)
  rw [← listJson_eq_map] at hlist
  have hmembers : ReadsMembers height (CallDraft.fields (readBelow height)) .empty
      [("name", .string name), ("parameters", .array (listJson arguments))]
      (True ∧ (∀ a ∈ arguments, good a) ∧ True) ⟨some name, some arguments⟩ :=
    .cons rfl rfl (Value.reads_string height name) (.cons rfl rfl hlist (.nil _ _ _))
  exact reads_record hmembers rfl rfl (by simp)

theorem reads_collection {items : List Expression} {good : Expression → Prop}
    (h : ∀ a ∈ items, Reads height (readBelow height) a.toJson (good a) a) :
    Reads (height + 1) (readBelow (height + 1)) (collection items).toJson
      (∀ a ∈ items, good a) (collection items) := by
  have hlist := ((Reads.list h).mono (Nat.le_succ height)).map collection
  rw [← listJson_eq_map] at hlist
  exact Reads.carrying rfl hlist

theorem reads_lambda (quantifier : Quantifier) (parameter : String)
    {source predicate : Expression}
    (hs : Reads height (readBelow height) source.toJson good source)
    (hp : Reads height (readBelow height) predicate.toJson good' predicate) :
    Reads (height + 1) (readBelow (height + 1))
      (lambda quantifier source parameter predicate).toJson (good ∧ good')
      (lambda quantifier source parameter predicate) := by
  have hmembers : ReadsMembers height (LambdaDraft.fields (readBelow height)) .empty
      [("kind", quantifier.toJson), ("source", source.toJson), ("variable", .string parameter),
        ("predicate", predicate.toJson)] (True ∧ good ∧ True ∧ good' ∧ True)
      ⟨some quantifier, some source, some parameter, some predicate⟩ :=
    .cons rfl rfl (quantifier.reads height) (.cons rfl rfl hs
      (.cons rfl rfl (Value.reads_string height parameter) (.cons rfl rfl hp (.nil _ _ _))))
  exact reads_record hmembers rfl rfl (by simp)

end Reads

/-- An expression reads back, within the height that is looked at. -/
theorem reads {e : Expression} (h : e.ForallFloats fun x => x.isFinite → x.DigitsReadBack)
    (height : ℕ) :
    Reads height (readBelow height) e.toJson (e.ForallFloats fun x => x.isFinite) e := by
  induction height generalizing e with
  | zero => exact .zero _ _ _ _
  | succ height ih =>
    have hchild : ∀ c ∈ e.children, Reads height (readBelow height) c.toJson
        (c.ForallFloats fun x => x.isFinite) c := fun c hc => ih fun x hx => h x (.child hc hx)
    by_cases he : ∀ v, e ≠ constant v
    · rw [forallFloats_iff_children he]
      cases e with
      | constant v => exact absurd rfl (he v)
      | property p =>
        have hproperty := ((p.reads height).mono (Nat.le_succ _)).map property
        exact (Reads.carrying rfl hproperty).congr (by simp [children])
      | rangeVariable name =>
        have hname := (Value.reads_string height name).map rangeVariable
        exact (Reads.carrying rfl hname).congr (by simp [children])
      | convert source target =>
        have hs := hchild source (by simp [children])
        exact (reads_convert target hs).congr (by simp [children])
      | binary operator left right =>
        have hl := hchild left (by simp [children])
        have hr := hchild right (by simp [children])
        exact (reads_binary operator hl hr).congr (by simp [children])
      | unary operator operand =>
        have ho := hchild operand (by simp [children])
        exact (reads_unary operator ho).congr (by simp [children])
      | call name arguments => exact reads_call name hchild
      | collection items => exact reads_collection hchild
      | lambda quantifier source parameter predicate =>
        have hs := hchild source (by simp [children])
        have hp := hchild predicate (by simp [children])
        exact (reads_lambda quantifier parameter hs hp).congr (by simp [children])
    · push Not at he
      obtain ⟨v, rfl⟩ := he
      have hvalue := (Value.reads height (forallFloats_constant.mp h)).map constant
      exact (Reads.carrying rfl hvalue).congr forallFloats_isFinite_constant.symm

theorem reads_read {e : Expression} (h : e.ForallFloats fun x => x.isFinite → x.DigitsReadBack)
    (bound : ℕ) : Reads bound read e.toJson (e.ForallFloats fun x => x.isFinite) e :=
  fun level _ => reads h (level + 1) level (Nat.lt_succ_self level)

end Expression

namespace QueryOptions

/-- Options with a filter read back, whatever text the filter has. -/
theorem reads_filter {bound : ℕ} {j : Json} {good : Prop} {e : Expression}
    (h : Reads bound Expression.read j good e)
    (hj : ∀ fault, Document.ofJson j ≠ .word .null fault) :
    Reads (bound + 1) QueryOptions.read (.object [("filter", j)]) good ⟨some e⟩ := by
  have hmembers : ReadsMembers bound Draft.fields .empty [("filter", j)] (good ∧ True)
      ⟨some (some e)⟩ := .cons rfl rfl (h.option hj) (.nil _ _ _)
  exact (hmembers.congr (by simp)).record rfl

/-- Query options read back, with their own object as one level. -/
theorem reads {o : QueryOptions}
    (h : ∀ e, o.filter = some e → e.ForallFloats fun x => x.isFinite → x.DigitsReadBack)
    (bound : ℕ) :
    Reads (bound + 1) QueryOptions.read o.toJson
      (∀ e, o.filter = some e → e.ForallFloats fun x => x.isFinite) o := by
  obtain ⟨filter⟩ := o
  cases filter with
  | none =>
    have hmembers : ReadsMembers bound Draft.fields .empty [] True ⟨none⟩ := .nil _ _ _
    exact (hmembers.congr (by simp)).record rfl
  | some e =>
    have hfilter := reads_filter (Expression.reads_read (h e rfl) bound)
      (by cases e <;> rintro _ ⟨⟩)
    exact hfilter.congr (by simp)

end QueryOptions

/-- What a reader does with the compact text of a value. -/
theorem Json.Reads.readText {α : Type} {read : Reader α} {j : Json} {good : Prop} {a : α}
    (h : Reads (nestingLimit + 1) read j good a) (hj : j.IsWellFormed) (b : α) :
    readText read j.compact = .ok b ↔ (good ∧ j.depth ≤ nestingLimit) ∧ b = a := by
  rw [readText_compact read hj, h nestingLimit (Nat.lt_succ_self _), and_assoc]

namespace Expression

theorem toJson_isWellFormed (e : Expression) : e.toJson.IsWellFormed := by
  have hstring (s : String) : (Json.string s).IsWellFormed := .string s
  have htagged {tag : String} {members : List (String × Json)}
      (h : ∀ m ∈ members, m.2.IsWellFormed) :
      (Value.tagged tag (.object members)).IsWellFormed :=
    Value.tagged_isWellFormed (.object members h)
  have hlist {es : List Expression} (h : ∀ e ∈ es, e.toJson.IsWellFormed) :
      (Json.array (listJson es)).IsWellFormed := by
    rw [listJson_eq_map]
    exact .array _ (by simpa using h)
  induction e with
  | convert source target ih =>
    cases target <;> exact htagged (by simp [optionalMember, ih, hstring])
  | constant v => exact Value.tagged_isWellFormed v.toJson_isWellFormed
  | binary operator left right ihl ihr =>
    exact htagged (by simp [ihl, ihr, BinaryOperator.toJson, hstring])
  | unary operator operand ih => exact htagged (by simp [ih, UnaryOperator.toJson, hstring])
  | property p =>
    obtain ⟨entity, name⟩ := p
    cases entity <;> exact htagged (by simp [optionalMember, hstring])
  | call name arguments ih => exact htagged (by simp [hstring, hlist ih])
  | collection items ih => exact Value.tagged_isWellFormed (hlist ih)
  | lambda quantifier source parameter predicate ihs ihp =>
    exact htagged (by simp [ihs, ihp, Quantifier.toJson, hstring])
  | rangeVariable name => exact Value.tagged_isWellFormed (.string name)

end Expression

theorem QueryOptions.toJson_isWellFormed (o : QueryOptions) : o.toJson.IsWellFormed := by
  obtain ⟨filter⟩ := o
  refine .object _ ?_
  cases filter <;> simp [optionalMember, Expression.toJson_isWellFormed]

theorem Expression.readText_compact_iff {e : Expression}
    (h : e.ForallFloats fun x => x.isFinite → x.DigitsReadBack) (e' : Expression) :
    readText Expression.read e.toJson.compact = .ok e' ↔
      ((e.ForallFloats fun x => x.isFinite) ∧ e.toJson.depth ≤ nestingLimit) ∧ e' = e :=
  (reads_read h _).readText e.toJson_isWellFormed e'

theorem QueryOptions.readText_compact_iff {o : QueryOptions}
    (h : ∀ e, o.filter = some e → e.ForallFloats fun x => x.isFinite → x.DigitsReadBack)
    (o' : QueryOptions) :
    readText QueryOptions.read o.toJson.compact = .ok o' ↔
      ((∀ e, o.filter = some e → e.ForallFloats fun x => x.isFinite) ∧
        o.toJson.depth ≤ nestingLimit) ∧ o' = o :=
  (reads h nestingLimit).readText o.toJson_isWellFormed o'

theorem QueryOptions.depth_toJson (e : Expression) :
    (QueryOptions.toJson ⟨some e⟩).depth = e.toJson.depth + 1 := by
  simp [toJson, optionalMember, depth, memberDepth]

namespace Expression

/-- The compact text of an expression, alone or as the filter of query options, is read as that
expression and as no other, exactly if its doubles are finite and it does not nest too deep. -/
theorem readText_compact_toJson (e : Expression)
    (h : e.ForallFloats fun x => x.isFinite → x.DigitsReadBack) :
    (∀ e', readText read e.toJson.compact = .ok e' ↔
      ((e.ForallFloats fun x => x.isFinite) ∧ e.toJson.depth ≤ nestingLimit) ∧ e' = e) ∧
    (∀ o, readText QueryOptions.read (QueryOptions.toJson ⟨some e⟩).compact = .ok o ↔
      ((e.ForallFloats fun x => x.isFinite) ∧ e.toJson.depth + 1 ≤ nestingLimit) ∧
        o = ⟨some e⟩) ∧
    readText QueryOptions.read (QueryOptions.toJson ⟨none⟩).compact = .ok ⟨none⟩ := by
  refine ⟨readText_compact_iff h, fun o => ?_, ?_⟩
  · rw [QueryOptions.readText_compact_iff (by rintro _ ⟨⟩; exact h), QueryOptions.depth_toJson]
    simp
  · exact (QueryOptions.readText_compact_iff (by rintro _ ⟨⟩) _).mpr
      ⟨⟨by rintro _ ⟨⟩, by decide⟩, rfl⟩

theorem readText_compact_toJson_float :
    readText read (binary .equal (property ⟨none, "a"⟩)
      (constant (.float ⟨0x3FF8000000000000⟩))).toJson.compact =
        .ok (binary .equal (property ⟨none, "a"⟩) (constant (.float ⟨0x3FF8000000000000⟩))) := by
  have hfloats {Q : Binary64 → Prop} (hQ : Q ⟨0x3FF8000000000000⟩) : (binary .equal
      (property ⟨none, "a"⟩) (constant (.float ⟨0x3FF8000000000000⟩))).ForallFloats Q := by
    rw [forallFloats_iff_children (by rintro _ ⟨⟩)]
    simp [children, forallFloats_iff_children (e := property _) (by rintro _ ⟨⟩),
      forallFloats_constant, hQ]
  exact ((readText_compact_toJson _
    (hfloats fun _ => Binary64.digitsReadBack_three_halves)).1 _).mpr
      ⟨⟨hfloats (by decide), by decide⟩, rfl⟩

end Expression

end FilterClause
