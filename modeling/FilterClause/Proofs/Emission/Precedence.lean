import FilterClause.Proofs.Emission.Readability
import FilterClause.Proofs.Resolver
import FilterClause.Proofs.Skeleton.Grouping
import FilterClause.Proofs.Sql.Reader

/-!
# Precedence

Negations and predicates are written without brackets, so the text of an expression does not always
show what they apply to. Read by precedence, the text gives back the grouping of the expression just
if every node keeps its operands: no negation or predicate that is an operand stands beside an
operation that would take up a part of it.
-/

namespace FilterClause

namespace Property

/-- The column of a property whose parts are plain identifiers, unless it is a keyword. -/
def nameColumn? (p : Property) : Option String :=
  p.plainColumn?.filter fun column => Sql.upper column.toList ∉ Sql.keywords

theorem isName_nameColumn? {p : Property} {column : String} (h : p.nameColumn? = some column) :
    Sql.IsName column := by
  obtain ⟨hp, hk⟩ := Option.filter_eq_some_iff.mp h
  have hs : ∀ d ∈ [' ', '(', ')', ',', '\''] ++ Sql.operatorChars, ¬isIdentifierChar d := by
    simp [Sql.operatorChars, isIdentifierChar]
  obtain ⟨hne, hc⟩ := forall_mem_plainColumn? (P := fun c => Sql.isWordChar c)
    (fun c hc => decide_eq_true fun hm => hs c hm hc) (by decide) hp
  exact ⟨fun he => hne (by rw [he]; rfl), hc, of_decide_eq_true hk⟩

end Property

namespace BinaryOperator

def isLogical : BinaryOperator → Bool
  | or | and => true
  | equal | notEqual | greaterThan | greaterThanOrEqual | lessThan | lessThanOrEqual | add
  | subtract | multiply | divide | modulo | has => false

def isArithmetic : BinaryOperator → Bool
  | add | subtract | multiply | divide | modulo => true
  | or | and | equal | notEqual | greaterThan | greaterThanOrEqual | lessThan | lessThanOrEqual
  | has => false

theorem level_of_word? {operator : BinaryOperator} {left right : Expression} {word : String}
    (h : operator.word? left right = some word) : word ∈ Sql.operations ∧
      (Sql.level word ≤ 3 ↔ operator.isLogical) ∧
      (Sql.level word ≤ 4 ↔ ¬operator.isArithmetic) := by
  cases operator with
  | has => cases h
  | equal | notEqual =>
    obtain rfl := Option.some.inj h
    split <;> decide
  | _ =>
    obtain rfl := Option.some.inj h
    decide

end BinaryOperator

namespace Expression

variable {σ : Type} {column? : Property → Option String}

def isNegation : Expression → Bool
  | unary .not _ => true
  | unary .negate _ | convert _ _ | constant _ | binary _ _ _ | property _ | call _ _
  | collection _ | lambda _ _ _ _ | rangeVariable _ => false

def IsConvertFree (e : Expression) : Prop :=
  ∀ node, HasNode e node → ∀ source target, node ≠ .convert source target

theorem IsConvertFree.child {e c : Expression} (h : e.IsConvertFree) (hc : c ∈ e.children) :
    c.IsConvertFree := fun node hn => h node (.child hc hn)

theorem isConvertFree_of_children {e : Expression}
    (hr : ∀ source target, e ≠ .convert source target)
    (hc : ∀ c ∈ e.children, c.IsConvertFree) : e.IsConvertFree :=
  (forall_hasNode_iff _ e).mpr ⟨hr, hc⟩

/-- Nothing beside an operand without brackets takes up a part of it. A negation in front of a
comparison or an arithmetic operation would apply to the whole operation. A predicate behind one of
them would lose its first argument to it, and in front of an arithmetic one its pattern. The second
argument of a predicate stands between additions, or behind the only one in `endswith`. -/
def KeepsOperands : Expression → Prop
  | binary operator left right =>
    (left.isNegation → operator.isLogical) ∧ (left.isPredicate → ¬operator.isArithmetic) ∧
      (right.isPredicate → operator.isLogical)
  | call name [subject, argument] =>
    name ∈ Call.predicates → ¬subject.isNegation ∧ ¬argument.isPredicate ∧
      (argument.isNegation → name = "endswith")
  | convert _ _ | constant _ | unary _ _ | property _ | call _ _ | collection _ | lambda _ _ _ _
  | rangeVariable _ => True

/-- The levels at the two ends of the term of an expression. -/
structure HasEdges (e : Expression) (t : Sql.Term) : Prop where
  isNot_eq : t.isNot = e.isNegation
  leading_eq : t.leading = if e.isPredicate then 4 else 7
  trailing_eq : t.trailing = if e.isNegation then 3 else if e.isPredicate then 4 else 7

/-- The tokens of the text are those of the term, if the columns are names. -/
theorem lexes_of_skeleton? (hc : ∀ p c, column? p = some c → Sql.IsName c) {e : Expression}
    {k : Skeleton} (h : e.skeleton? column? = some k) (style : PlaceholderStyle) (n : ℕ) :
    Sql.Lexes (k.text style.render n) (k.term style.render n).tokens := by
  induction e using induction_children generalizing k n with
  | step e ih =>
    by_cases hn : ∃ source target, e = .convert source target
    · obtain ⟨source, target, rfl⟩ := hn
      exact ih source (by simp [children]) h n
    cases shape_of_skeleton? h fun source target he => hn ⟨source, target, he⟩ with
    | null =>
      have hnull : Sql.IsName "NULL" := ⟨by decide, List.all_eq_true.mp (by decide), by decide⟩
      rw [Skeleton.text, Skeleton.term]
      exact hnull.lexes
    | hole hv =>
      rw [Skeleton.text, Skeleton.term]
      exact (Sql.isName_render style n).lexes
    | column hp =>
      rw [Skeleton.text, Skeleton.term]
      exact (hc _ _ hp).lexes
    | @binary operator left right word l r hw hl hr =>
      exact Skeleton.lexes_binary (BinaryOperator.ofWord?_of_word? hw).2
        (ih left (by simp [children]) hl n) (ih right (by simp [children]) hr (n + l.holes))
    | @not operand x hx =>
      have hnot : Sql.Closes "NOT " [.keyword "NOT"] := fun _ => rfl
      rw [Skeleton.text, Skeleton.term]
      exact hnot.append_lexes (ih operand (by simp [children]) hx n)
    | @call name arguments ks hk hks =>
      have hl : Call.IsKnown name ks.length := by rwa [← hks.length_eq]
      rw [Skeleton.text, Skeleton.term]
      apply Call.lexes_text (by rwa [Skeleton.length_argumentTexts])
      apply Skeleton.forall₂_argumentTerms
      intro k hm m
      obtain ⟨a, ha, hak⟩ := exists_mem_of_forall₂ hks hm
      exact ih a ha hak m

theorem hasEdges_of_skeleton? {e : Expression} {k : Skeleton} (he : e.IsConvertFree)
    (h : e.skeleton? column? = some k) (write : ℕ → String) (n : ℕ) :
    e.HasEdges (k.term write n) := by
  induction e using induction_children generalizing k n with
  | step e ih =>
    cases shape_of_skeleton? h (he e (.root e)) with
    | null | hole _ | column _ | binary _ _ _ => exact ⟨rfl, rfl, rfl⟩
    | @not operand x hx =>
      have hm : operand ∈ (unary .not operand).children := by simp [children]
      have ht : 3 ≤ (x.term write n).trailing := by
        rw [(ih operand hm (he.child hm) hx n).trailing_eq]
        split <;> [skip; split] <;> decide
      exact ⟨rfl, rfl, Nat.min_eq_left ht⟩
    | @call name arguments ks hk hks =>
      have hl : Call.IsKnown name ks.length := by rwa [← hks.length_eq]
      have hc := Skeleton.callShape_term hl write n
      generalize (Skeleton.call name ks).term write n = t at hc
      cases hc with
      | predicate hn _ =>
        have hp : (call name arguments).isPredicate = true := decide_eq_true hn
        exact ⟨rfl, by rw [hp]; rfl, by rw [hp]; rfl⟩
      | function hn _ =>
        have hp : (call name arguments).isPredicate = false := decide_eq_false hn
        exact ⟨rfl, by rw [hp]; rfl, by rw [hp]; rfl⟩

/-- An operation behind a negation is no tighter than negation, and one behind a predicate is no
tighter than `LIKE`. -/
theorem HasEdges.le_trailing_iff {e : Expression} {t : Sql.Term} (h : e.HasEdges t) {n : ℕ}
    (hn : n ≤ 7) : n ≤ t.trailing ↔
      (e.isNegation → n ≤ 3) ∧ (e.isPredicate → n ≤ 4) := by
  rw [h.trailing_eq]
  cases e.isNegation <;> cases e.isPredicate <;> simp <;> omega

theorem HasEdges.lt_leading_iff {e : Expression} {t : Sql.Term} (h : e.HasEdges t) {n : ℕ}
    (hn : n < 7) : n < t.leading ↔ (e.isPredicate → n ≤ 3) := by
  rw [h.leading_eq]
  cases e.isPredicate <;> simp <;> omega

theorem respects_binary_iff {operator : BinaryOperator} {left right : Expression} {word : String}
    (hw : operator.word? left right = some word) {l r : Sql.Term} (hl : left.HasEdges l)
    (hr : right.HasEdges r) (his : word = "IS" → right.isNegation = false) :
    (Sql.Term.bracket (.operation word l r)).Respects ↔
      (binary operator left right).KeepsOperands ∧ l.Respects ∧ r.Respects := by
  obtain ⟨hm, hlog, har⟩ := BinaryOperator.level_of_word? hw
  have h7 := Sql.level_lt word
  rw [Sql.Term.Respects, Sql.Term.Respects, hl.le_trailing_iff (Nat.le_of_lt h7),
    hr.lt_leading_iff h7, hr.isNot_eq, hlog, har, KeepsOperands]
  tauto

/-- The operands of `LIKE` respect the levels just if the call keeps its operands apart: an addition
stands in front of the second argument or behind it, and only in `endswith` is none behind it. -/
theorem respects_predicate_iff {name : String} (hn : name ∈ Call.predicates)
    {subject argument : Expression} {s t pattern : Sql.Term} (hs : subject.HasEdges s)
    (ht : argument.HasEdges t) (hp : pattern.Respects ↔ t.Respects ∧
      (name ≠ "startswith" → 5 < t.leading) ∧ (name ≠ "endswith" → 5 ≤ t.trailing)) :
    (Sql.Term.operation "LIKE" s (.bracket pattern)).Respects ↔
      (call name [subject, argument]).KeepsOperands ∧ s.Respects ∧ t.Respects := by
  have hlike : (Sql.Term.operation "LIKE" s (.bracket pattern)).Respects ↔
      s.Respects ∧ pattern.Respects ∧ 4 ≤ s.trailing := by
    constructor
    · exact fun ⟨_, hsr, hpr, h4, _⟩ => ⟨hsr, hpr, h4⟩
    · exact fun ⟨hsr, hpr, h4⟩ => ⟨by decide, hsr, hpr, h4, (by decide : 4 < 7), fun _ => rfl⟩
  have hs4 : 4 ≤ s.trailing ↔ ¬subject.isNegation := by
    simp [hs.le_trailing_iff]
  have ht5 : 5 ≤ t.trailing ↔ ¬argument.isNegation ∧ ¬argument.isPredicate := by
    simp [ht.le_trailing_iff]
  have ht6 : 5 < t.leading ↔ ¬argument.isPredicate := by
    simp [ht.lt_leading_iff]
  have hadd : ((name ≠ "startswith" → ¬argument.isPredicate) ∧
      (name ≠ "endswith" → ¬argument.isNegation ∧ ¬argument.isPredicate)) ↔
      ¬argument.isPredicate ∧ (argument.isNegation → name = "endswith") := by
    by_cases he : name = "endswith"
    · simp [he]
    · simp only [ne_eq, he, not_false_iff, true_imp_iff, imp_false]
      exact ⟨fun h => ⟨h.2.2, h.2.1⟩, fun h => ⟨fun _ => h.1, h.2, h.1⟩⟩
  rw [hlike, hp, hs4, ht5, ht6, hadd, KeepsOperands, imp_iff_right hn]
  constructor
  · exact fun ⟨hsr, ⟨htr, hpn, hnn⟩, hsn⟩ => ⟨⟨hsn, hpn, hnn⟩, hsr, htr⟩
  · exact fun ⟨⟨hsn, hpn, hnn⟩, hsr, htr⟩ => ⟨hsr, ⟨htr, hpn, hnn⟩, hsn⟩

theorem respects_arguments_iff {write : ℕ → String} {P : Expression → Prop}
    {es : List Expression} {ks : List Skeleton}
    (h : List.Forall₂ (fun e k => ∀ m, (Skeleton.term write m k).Respects ↔ P e) es ks)
    (fromLast : Bool) (n : ℕ) :
    (∀ t ∈ Skeleton.argumentTerms write fromLast n ks, t.Respects) ↔ ∀ e ∈ es, P e := by
  induction h generalizing n with
  | nil => simp [Skeleton.argumentTerms]
  | cons he _ ih =>
    rw [Skeleton.argumentTerms, List.forall_mem_cons, List.forall_mem_cons, he, ih]

theorem keepsOperands_call {name : String} (hn : name ∉ Call.predicates)
    (arguments : List Expression) : (call name arguments).KeepsOperands := by
  rcases arguments with _ | ⟨a, _ | ⟨b, _ | ⟨c, cs⟩⟩⟩
  · trivial
  · trivial
  · exact fun h => absurd h hn
  · trivial

theorem isNegation_of_isConvertedNull {e : Expression} (h : e.isConvertedNull) :
    e.isNegation = false := by
  cases e with
  | unary operator operand => cases h
  | _ => rfl

theorem respects_term_iff {e : Expression} {k : Skeleton} (he : e.IsConvertFree)
    (h : e.skeleton? column? = some k) (write : ℕ → String) (n : ℕ) :
    (k.term write n).Respects ↔ ∀ node, HasNode e node → node.KeepsOperands := by
  induction e using induction_children generalizing k n with
  | step e ih =>
    rw [forall_hasNode_iff]
    cases shape_of_skeleton? h (he e (.root e)) with
    | null | hole _ | column _ => simp [Skeleton.term, KeepsOperands, children]
    | @binary operator left right word l r hw hl hr =>
      have hml : left ∈ (binary operator left right).children := by simp [children]
      have hmr : right ∈ (binary operator left right).children := by simp [children]
      rw [Skeleton.term, respects_binary_iff hw (hasEdges_of_skeleton? (he.child hml) hl write n)
        (hasEdges_of_skeleton? (he.child hmr) hr write (n + l.holes)) ?_,
        ih left hml (he.child hml) hl, ih right hmr (he.child hmr) hr]
      · simp [children]
      · rintro rfl
        exact isNegation_of_isConvertedNull (BinaryOperator.isConvertedNull_of_word? hw)
    | @not operand x hx =>
      have hm : operand ∈ (unary .not operand).children := by simp [children]
      have hlead : 3 < (x.term write n).leading := by
        rw [(hasEdges_of_skeleton? (he.child hm) hx write n).leading_eq]
        split <;> decide
      rw [Skeleton.term, Sql.Term.Respects, ih operand hm (he.child hm) hx]
      simp [children, KeepsOperands, hlead]
    | @call name arguments ks hk hks =>
      have hl : Call.IsKnown name ks.length := by rwa [← hks.length_eq]
      have hc := Skeleton.callShape_term hl write n
      generalize (Skeleton.call name ks).term write n = t at hc
      have ha : List.Forall₂ (fun e k => ∀ m, (Skeleton.term write m k).Respects ↔
          ∀ node, HasNode e node → node.KeepsOperands) arguments ks := by
        have hm := (List.forall₂_and_left arguments ks).mpr ⟨fun _ ha => ha, hks⟩
        exact hm.imp fun a k h m => ih a h.1 (he.child h.1) h.2 m
      cases hc with
      | @predicate subject argument pattern m hn hp =>
        obtain ⟨a, as, haa, has, rfl⟩ := List.forall₂_cons_right_iff.mp hks
        obtain ⟨b, bs, hbb, hbs, rfl⟩ := List.forall₂_cons_right_iff.mp has
        obtain rfl := List.forall₂_nil_right_iff.mp hbs
        have hma : a ∈ (call name [a, b]).children := by simp [children]
        have hmb : b ∈ (call name [a, b]).children := by simp [children]
        rw [respects_predicate_iff hn (hasEdges_of_skeleton? (he.child hma) haa write n)
          (hasEdges_of_skeleton? (he.child hmb) hbb write m) hp,
          ih a hma (he.child hma) haa, ih b hmb (he.child hmb) hbb]
        simp [children]
      | function hn ht =>
        rw [ht, respects_arguments_iff ha]
        simp [keepsOperands_call hn, children]

/-- If the columns are names, then the text of an expression without conversions is read by
precedence as the expression is grouped just if every node keeps its operands. The columns of plain
identifiers other than keywords are names. -/
theorem emit_grouped (hc : ∀ p c, column? p = some c → Sql.IsName c) {e : Expression}
    (he : e.IsConvertFree) {state : σ} {parameters : Parameters} {sql : String}
    (h : (e.emit (.ofFunction column?) state parameters).result = .ok sql) :
    (∃ k, e.skeleton? column? = some k ∧
      (Sql.read sql = some (k.term parameters.style.render parameters.size) ↔
        ∀ node, HasNode e node → node.KeepsOperands)) ∧
    ∀ p c, Property.nameColumn? p = some c → Sql.IsName c := by
  refine ⟨?_, fun p c => Property.isName_nameColumn?⟩
  obtain ⟨k, hk, rfl⟩ := text_of_emit_ok h
  refine ⟨k, hk, ?_⟩
  rw [Sql.read_eq_some_iff, ← respects_term_iff he hk,
    (lexes_of_skeleton? hc hk parameters.style parameters.size).tokens_toList]
  exact and_iff_right rfl

theorem emit_grouped_and :
    let a : Expression := .property ⟨some "t", "a"⟩
    let e : Expression := .binary .and (.unary .not (.call "contains" [a, .constant (.text "x")]))
      (.binary .notEqual (.binary .add a (.constant (.int 5))) (.constant .null))
    (e.emit (.ofFunction Property.nameColumn?) () ⟨.atP, []⟩).result =
        .ok "(NOT t.a LIKE ('%' + @p0 + '%') AND ((t.a + @p1) IS NOT NULL))" ∧
      (∃ k, e.skeleton? Property.nameColumn? = some k ∧
        Sql.read "(NOT t.a LIKE ('%' + @p0 + '%') AND ((t.a + @p1) IS NOT NULL))" =
          some (k.term PlaceholderStyle.atP.render 0)) ∧
      ∀ node, HasNode e node → node.KeepsOperands := by
  intro a e
  have hconstant : ∀ v, (constant v).IsConvertFree := fun v =>
    isConvertFree_of_children (by simp) (by simp [children])
  have ha : a.IsConvertFree := isConvertFree_of_children (by simp [a]) (by simp [a, children])
  have hcall : (call "contains" [a, .constant (.text "x")]).IsConvertFree :=
    isConvertFree_of_children (by simp) (by simp [children, ha, hconstant])
  have hnot : (unary .not (call "contains" [a, .constant (.text "x")])).IsConvertFree :=
    isConvertFree_of_children (by simp) (by simp [children, hcall])
  have hadd : (binary .add a (constant (.int 5))).IsConvertFree :=
    isConvertFree_of_children (by simp) (by simp [children, ha, hconstant])
  have hne :
      (binary .notEqual (binary .add a (constant (.int 5))) (constant .null)).IsConvertFree :=
    isConvertFree_of_children (by simp) (by simp [children, hadd, hconstant])
  have he : e.IsConvertFree :=
    isConvertFree_of_children (by simp [e]) (by simp [e, children, hnot, hne])
  have h : (e.emit (.ofFunction Property.nameColumn?) () ⟨.atP, []⟩).result =
      .ok "(NOT t.a LIKE ('%' + @p0 + '%') AND ((t.a + @p1) IS NOT NULL))" := rfl
  let k : Skeleton := .binary "AND" (.not (.call "contains" [.column "t.a", .hole]))
    (.binary "IS NOT" (.binary "+" (.column "t.a") .hole) .null)
  have hk : e.skeleton? Property.nameColumn? = some k := rfl
  have hr : Sql.read "(NOT t.a LIKE ('%' + @p0 + '%') AND ((t.a + @p1) IS NOT NULL))" =
      some (k.term PlaceholderStyle.atP.render 0) := rfl
  obtain ⟨k', hk', hiff⟩ := (emit_grouped (fun _ _ => Property.isName_nameColumn?) he h).1
  obtain rfl := Option.some.inj (hk.symm.trans hk')
  exact ⟨h, ⟨k, hk, hr⟩, hiff.mp hr⟩

/-- A negation that is compared is read as the negation of the comparison. -/
theorem emit_not_grouped : ¬∀ (e : Expression) (parameters : Parameters) (sql : String),
    e.IsConvertFree →
    (e.emit (.ofFunction Property.nameColumn?) () parameters).result = .ok sql →
    ∃ k, e.skeleton? Property.nameColumn? = some k ∧
      Sql.read sql = some (k.term parameters.style.render parameters.size) := by
  intro h
  have hcolumn : ∀ p, (property p).IsConvertFree := fun p =>
    isConvertFree_of_children (by simp) (by simp [children])
  have hnot : (unary .not (property ⟨none, "a"⟩)).IsConvertFree :=
    isConvertFree_of_children (by simp) (by simp [children, hcolumn])
  have he : (binary .equal (unary .not (property ⟨none, "a"⟩))
      (property ⟨none, "b"⟩)).IsConvertFree :=
    isConvertFree_of_children (by simp) (by simp [children, hnot, hcolumn])
  have hs : (binary .equal (unary .not (property ⟨none, "a"⟩)) (property ⟨none, "b"⟩)).skeleton?
      Property.nameColumn? = some (.binary "=" (.not (.column "a")) (.column "b")) := rfl
  obtain ⟨k, hk, hr⟩ := h _ ⟨.atP, []⟩ "(NOT a = b)" he rfl
  obtain rfl := Option.some.inj (hs.symm.trans hk)
  have hread : Sql.read "(NOT a = b)" =
      some (.bracket (.not (.operation "=" (.name "a") (.name "b")))) := rfl
  rw [hread] at hr
  cases hr

end Expression

end FilterClause
