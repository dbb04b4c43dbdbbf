import FilterClause.Proofs.Emission.Rendering
import FilterClause.Proofs.Skeleton.Readback

/-!
# Unique readability

The texts of two expressions are equal just if their normal skeletons are, for columns that are
plain. An expression without conversions and without negated first arguments of predicates is
determined by its text and its constants, for columns that are also different.
-/

namespace FilterClause

namespace Skeleton

theorem Reads.unique {m : ℕ} {s : List Char} {out out' : Skeleton × List Char}
    (h : Reads m s out) (h' : Reads m s out') : out = out' := by
  obtain ⟨a, ha⟩ := h
  obtain ⟨b, hb⟩ := h'
  have hab := ha (a + b) (by omega)
  rw [hb (a + b) (by omega)] at hab
  exact (Option.some.inj hab).symm

/-- Legible skeletons have the same text just if they have the same normal form. -/
theorem text_eq_text_iff {k l : Skeleton} (hk : k.Legible) (hl : l.Legible)
    (style : PlaceholderStyle) (n : ℕ) :
    k.text style.render n = l.text style.render n ↔ k.normal = l.normal := by
  constructor
  · intro h
    have hr := hk.read_text style n
    rw [h] at hr
    exact congrArg Prod.fst (hr.unique (hl.read_text style n))
  · intro h
    rw [← hk.sameText_normal.text_eq, h, hl.sameText_normal.text_eq]

theorem hoist_eq_call {name : String} {k : Skeleton} (h : ∀ operand, k ≠ .not operand)
    (ks : List Skeleton) : hoist name k ks = .call name (k :: ks) := by
  cases k with
  | not operand => exact absurd rfl (h operand)
  | _ => rfl

end Skeleton

namespace BinaryOperator

/-- The operator that a word belongs to. -/
def ofWord? : String → Option BinaryOperator
  | "OR" => some or
  | "AND" => some and
  | "=" => some equal
  | "IS" => some equal
  | "<>" => some notEqual
  | "IS NOT" => some notEqual
  | ">" => some greaterThan
  | ">=" => some greaterThanOrEqual
  | "<" => some lessThan
  | "<=" => some lessThanOrEqual
  | "+" => some add
  | "-" => some subtract
  | "*" => some multiply
  | "/" => some divide
  | "%" => some modulo
  | _ => none

theorem ofWord?_of_word? {operator : BinaryOperator} {left right : Expression} {word : String}
    (h : operator.word? left right = some word) :
    ofWord? word = some operator ∧ word ∈ Skeleton.words := by
  cases operator with
  | has => cases h
  | equal | notEqual =>
    obtain rfl := Option.some.inj h
    split <;> exact ⟨rfl, by decide⟩
  | _ =>
    obtain rfl := Option.some.inj h
    exact ⟨rfl, by decide⟩

theorem isConvertedNull_of_word? {operator : BinaryOperator} {left right : Expression}
    (h : operator.word? left right = some "IS") : right.isConvertedNull := by
  by_contra hn
  cases operator <;> simp [word?, hn] at h

end BinaryOperator

namespace Expression

variable {σ : Type} {column? : Property → Option String}

/-- Neither a conversion nor a negated first argument of a predicate occurs. -/
structure IsPlain (e : Expression) : Prop where
  ne_convert : ∀ node, HasNode e node → ∀ source target, node ≠ .convert source target
  ne_call : ∀ node, HasNode e node → ∀ name operand rest, name ∈ Call.predicates →
    node ≠ .call name (.unary .not operand :: rest)

theorem IsPlain.child {e c : Expression} (h : e.IsPlain) (hc : c ∈ e.children) : c.IsPlain :=
  ⟨fun node hn => h.ne_convert node (.child hc hn), fun node hn => h.ne_call node (.child hc hn)⟩

theorem isPlain_of_children {e : Expression} (hr : ∀ source target, e ≠ .convert source target)
    (hn : ∀ name operand rest, name ∈ Call.predicates →
      e ≠ .call name (.unary .not operand :: rest)) (hc : ∀ c ∈ e.children, c.IsPlain) :
    e.IsPlain :=
  ⟨(forall_hasNode_iff _ e).mpr ⟨hr, fun c hm => (hc c hm).ne_convert⟩,
    (forall_hasNode_iff _ e).mpr ⟨hn, fun c hm => (hc c hm).ne_call⟩⟩

/-- What the skeleton shows of the root of an expression without a conversion. -/
inductive Shape (column? : Property → Option String) : Expression → Skeleton → Prop where
  | null : Shape column? (.constant .null) .null
  | hole {v} (hv : v.isNull = false) : Shape column? (.constant v) .hole
  | column {p c} (hc : column? p = some c) : Shape column? (.property p) (.column c)
  | binary {operator left right word l r} (hw : operator.word? left right = some word)
      (hl : left.skeleton? column? = some l) (hr : right.skeleton? column? = some r) :
      Shape column? (.binary operator left right) (.binary word l r)
  | not {operand x} (hx : operand.skeleton? column? = some x) :
      Shape column? (.unary .not operand) (.not x)
  | call {name arguments ks} (hk : Call.IsKnown name arguments.length)
      (hks : List.Forall₂ (fun e k => e.skeleton? column? = some k) arguments ks) :
      Shape column? (.call name arguments) (.call name ks)

theorem shape_of_skeleton? {e : Expression} {k : Skeleton} (h : e.skeleton? column? = some k)
    (hn : ∀ source target, e ≠ .convert source target) : Shape column? e k := by
  cases e with
  | convert source target => exact absurd rfl (hn source target)
  | constant v =>
    obtain rfl := Option.some.inj h
    cases hv : v.isNull with
    | true =>
      obtain rfl : v = .null := by cases v <;> simp_all [Value.isNull]
      exact .null
    | false => exact .hole hv
  | binary operator left right =>
    obtain ⟨word, l, r, hw, hl, hr, rfl⟩ := skeleton?_binary_eq_some_iff.mp h
    exact .binary hw hl hr
  | unary operator operand =>
    obtain ⟨rfl, x, hx, rfl⟩ := skeleton?_unary_eq_some_iff.mp h
    exact .not hx
  | property p =>
    obtain ⟨c, hc, rfl⟩ := skeleton?_property_eq_some_iff.mp h
    exact .column hc
  | call name arguments =>
    obtain ⟨hk, ks, hks, rfl⟩ := skeleton?_call_eq_some_iff.mp h
    exact .call hk hks
  | collection items | lambda q s x p | rangeVariable x => cases h

theorem skeleton?_of_isConvertedNull {e : Expression} (h : e.isConvertedNull) :
    e.skeleton? column? = some .null := by
  induction e with
  | convert source target ih => exact ih h
  | constant v =>
    have hv : v.isNull = true := h
    rw [skeleton?, if_pos hv]
  | _ => cases h

theorem exists_mem_of_forall₂ {α β : Type} {R : α → β → Prop} {xs : List α} {ys : List β}
    (h : List.Forall₂ R xs ys) {y : β} (hy : y ∈ ys) : ∃ x ∈ xs, R x y := by
  induction h with
  | nil => cases hy
  | @cons a b as bs hab _ ih =>
    rcases List.mem_cons.mp hy with rfl | hy
    · exact ⟨a, by simp, hab⟩
    · obtain ⟨x, hx, hR⟩ := ih hy
      exact ⟨x, by simp [hx], hR⟩

/-- With plain columns the skeleton of an expression is legible. -/
theorem legible_of_skeleton? (hc : ∀ p c, column? p = some c → Skeleton.IsPlainColumn c)
    {e : Expression} {k : Skeleton} (h : e.skeleton? column? = some k) : k.Legible := by
  induction e using induction_children generalizing k with
  | step e ih =>
    by_cases hn : ∃ source target, e = .convert source target
    · obtain ⟨source, target, rfl⟩ := hn
      exact ih source (by simp [children]) h
    cases shape_of_skeleton? h fun source target he => hn ⟨source, target, he⟩ with
    | null => exact .null
    | hole hv => exact .hole
    | column hp => exact .column (hc _ _ hp)
    | @binary operator left right word l r hw hl hr =>
      have hll := ih left (by simp [children]) hl
      have hlr := ih right (by simp [children]) hr
      refine .binary (BinaryOperator.ofWord?_of_word? hw).2 ?_ hll hlr
      rintro rfl
      rw [skeleton?_of_isConvertedNull (BinaryOperator.isConvertedNull_of_word? hw)] at hr
      exact (Option.some.inj hr).symm
    | not hx => exact .not (ih _ (by simp [children]) hx)
    | @call name arguments ks hk hks =>
      have hl : Call.IsKnown name ks.length := by rwa [← hks.length_eq]
      apply Skeleton.Legible.call hl
      intro k hm
      obtain ⟨a, ha, hak⟩ := exists_mem_of_forall₂ hks hm
      exact ih a ha hak

/-- The skeleton of a plain expression is normal. -/
theorem normal_eq_of_isPlain {e : Expression} {k : Skeleton} (he : e.IsPlain)
    (h : e.skeleton? column? = some k) : k.normal = k := by
  induction e using induction_children generalizing k with
  | step e ih =>
    cases shape_of_skeleton? h (he.ne_convert e (.root e)) with
    | null | hole _ | column _ => rfl
    | @binary operator left right word l r hw hl hr =>
      have hml : left ∈ (binary operator left right).children := by simp [children]
      have hmr : right ∈ (binary operator left right).children := by simp [children]
      rw [Skeleton.normal, ih left hml (he.child hml) hl, ih right hmr (he.child hmr) hr]
    | @not operand x hx =>
      have hm : operand ∈ (unary .not operand).children := by simp [children]
      rw [Skeleton.normal, ih operand hm (he.child hm) hx]
    | @call name arguments ks hk hks =>
      have hn : ks.map Skeleton.normal = ks.map id := by
        apply List.map_congr_left
        intro k hm
        obtain ⟨a, ha, hak⟩ := exists_mem_of_forall₂ hks hm
        exact ih a ha (he.child ha) hak
      rw [Skeleton.normal_call, hn, List.map_id]
      cases hks with
      | nil => rfl
      | @cons a l as ls ha _ =>
        have hm : a ∈ (call name (a :: as)).children := by simp [children]
        rw [Skeleton.normalCall]
        split
        · next hp =>
          apply Skeleton.hoist_eq_call
          rintro x rfl
          cases shape_of_skeleton? ha ((he.child hm).ne_convert a (.root a)) with
          | not _ => exact he.ne_call _ (.root _) name _ as hp rfl
        · rfl

theorem map_length_constants {es : List Expression} {ks : List Skeleton}
    (h : List.Forall₂ (fun e k => e.skeleton? column? = some k) es ks) :
    (es.map constants).map List.length = ks.map Skeleton.holes := by
  induction h with
  | nil => rfl
  | cons he _ ih => simp [ih, holes_eq he]

theorem eq_of_forall₂ {R : Expression → Skeleton → Prop} {es es' : List Expression}
    {ks : List Skeleton} (h : List.Forall₂ R es ks) (h' : List.Forall₂ R es' ks)
    (hv : es.map constants = es'.map constants)
    (heq : ∀ e ∈ es, ∀ e' ∈ es', ∀ k, R e k → R e' k → e.constants = e'.constants → e = e') :
    es = es' := by
  induction h generalizing es' with
  | nil =>
    cases h'
    rfl
  | @cons e k es ks he hes ih =>
    cases h' with
    | @cons e' _ es' _ he' hes' =>
      obtain ⟨hve, hves⟩ := List.cons.inj hv
      have hee := heq e (by simp) e' (by simp) k he he' hve
      have hees := ih hes' hves fun a ha b hb => heq a (by simp [ha]) b (by simp [hb])
      rw [hee, hees]

/-- Plain expressions with the same skeleton and the same constants are the same. -/
theorem eq_of_skeleton?_eq (hc : ∀ p q c, column? p = some c → column? q = some c → p = q)
    {e e' : Expression} {k : Skeleton} (he : e.IsPlain) (he' : e'.IsPlain)
    (h : e.skeleton? column? = some k) (h' : e'.skeleton? column? = some k)
    (hv : e.constants = e'.constants) : e = e' := by
  induction e using induction_children generalizing e' k with
  | step e ih =>
    have hs := shape_of_skeleton? h (he.ne_convert e (.root e))
    have hs' := shape_of_skeleton? h' (he'.ne_convert e' (.root e'))
    cases hs with
    | null =>
      cases hs' with
      | null => rfl
    | @hole v hn =>
      cases hs' with
      | hole hn' =>
        simpa [constants, hn, hn'] using hv
    | @column p c hp =>
      cases hs' with
      | column hp' => rw [hc _ _ _ hp hp']
    | @binary operator left right word l r hw hl hr =>
      cases hs' with
      | @binary operator' left' right' _ _ _ hw' hl' hr' =>
        have ho : some operator = some operator' := by
          rw [← (BinaryOperator.ofWord?_of_word? hw).1, (BinaryOperator.ofWord?_of_word? hw').1]
        have hlen : left.constants.length = left'.constants.length := by
          rw [← holes_eq hl, ← holes_eq hl']
        obtain ⟨hvl, hvr⟩ := List.append_inj hv hlen
        have hml : left ∈ (binary operator left right).children := by simp [children]
        have hmr : right ∈ (binary operator left right).children := by simp [children]
        have hml' : left' ∈ (binary operator' left' right').children := by simp [children]
        have hmr' : right' ∈ (binary operator' left' right').children := by simp [children]
        have hel := ih left hml (he.child hml) (he'.child hml') hl hl' hvl
        have her := ih right hmr (he.child hmr) (he'.child hmr') hr hr' hvr
        rw [Option.some.inj ho, hel, her]
    | @not operand x hx =>
      cases hs' with
      | @not operand' _ hx' =>
        have hm : operand ∈ (unary .not operand).children := by simp [children]
        have hm' : operand' ∈ (unary .not operand').children := by simp [children]
        have heq := ih operand hm (he.child hm) (he'.child hm') hx hx' hv
        rw [heq]
    | @call name arguments ks hk hks =>
      cases hs' with
      | @call _ arguments' _ _ hks' =>
        simp only [constants, argumentConstants_eq_map] at hv
        have hlen : (Call.inEmissionOrder name (arguments.map constants)).map List.length =
            (Call.inEmissionOrder name (arguments'.map constants)).map List.length := by
          rw [Call.map_inEmissionOrder, Call.map_inEmissionOrder, map_length_constants hks,
            map_length_constants hks']
        have hord := List.eq_iff_flatten_eq.mpr ⟨hv, hlen⟩
        have hmap := congrArg (Call.inEmissionOrder name) hord
        rw [Call.inEmissionOrder_inEmissionOrder, Call.inEmissionOrder_inEmissionOrder] at hmap
        have hargs := eq_of_forall₂ hks hks' hmap fun a ha b hb k hak hbk hab =>
          ih a ha (he.child ha) (he'.child hb) hak hbk hab
        rw [hargs]

/-- For plain columns the texts of two expressions are equal just if their normal skeletons are, for
as many parameters of the same style. If moreover both expressions are plain and the columns of
different properties are different, then the texts and the constants bound determine the
expression. -/
theorem emit_readable (hplain : ∀ p c, column? p = some c → Skeleton.IsPlainColumn c)
    {e e' : Expression} {state state' : σ} {parameters parameters' : Parameters}
    (hstyle : parameters.style = parameters'.style) (hsize : parameters.size = parameters'.size)
    {sql sql' : String} (h : (e.emit (.ofFunction column?) state parameters).result = .ok sql)
    (h' : (e'.emit (.ofFunction column?) state' parameters').result = .ok sql') :
    (∃ k k', e.skeleton? column? = some k ∧ e'.skeleton? column? = some k' ∧
      (sql = sql' ↔ k.normal = k'.normal)) ∧
    (e.IsPlain → e'.IsPlain → (∀ p q c, column? p = some c → column? q = some c → p = q) →
      sql = sql' →
      (e.emit (.ofFunction column?) state parameters).parameters.values.drop parameters.size =
        (e'.emit (.ofFunction column?) state' parameters').parameters.values.drop
          parameters'.size → e = e') := by
  have hp := parameters_of_emit_ok h
  have hp' := parameters_of_emit_ok h'
  obtain ⟨k, hk, rfl⟩ := text_of_emit_ok h
  obtain ⟨k', hk', rfl⟩ := text_of_emit_ok h'
  have hiff : k.text parameters.style.render parameters.size =
      k'.text parameters'.style.render parameters'.size ↔ k.normal = k'.normal := by
    rw [← hstyle, ← hsize]
    exact Skeleton.text_eq_text_iff (legible_of_skeleton? hplain hk)
      (legible_of_skeleton? hplain hk') parameters.style parameters.size
  refine ⟨⟨k, k', hk, hk', hiff⟩, ?_⟩
  intro he he' hc ht hv
  have hn := hiff.mp ht
  rw [normal_eq_of_isPlain he hk, normal_eq_of_isPlain he' hk'] at hn
  rw [hp, hp', Parameters.size, Parameters.size, List.drop_left, List.drop_left] at hv
  rw [← hn] at hk'
  exact eq_of_skeleton?_eq hc he he' hk hk' hv

theorem emit_readable_negation :
    let column? : Property → Option String := fun p => if p = ⟨none, "a"⟩ then some "a" else none
    let a : Expression := .property ⟨none, "a"⟩
    let e : Expression := .unary .not (.call "startswith" [a, .constant (.int 1)])
    let e' : Expression := .call "startswith" [.unary .not a, .constant (.int 2)]
    let f : Expression := .unary .not (.call "startswith" [a, .constant (.int (3 - 2))])
    (e.emit (.ofFunction column?) () ⟨.atP, [.int 7]⟩).result = .ok "NOT a LIKE (@p1 + '%')" ∧
      (e'.emit (.ofFunction column?) () ⟨.atP, [.null]⟩).result = .ok "NOT a LIKE (@p1 + '%')" ∧
      (∃ k k', e.skeleton? column? = some k ∧ e'.skeleton? column? = some k' ∧
        k.normal = k'.normal) ∧
      e.IsPlain ∧ f.IsPlain ∧ e = f := by
  intro column? a e e' f
  have hcol : ∀ p c, column? p = some c → p = ⟨none, "a"⟩ ∧ c = "a" := by
    intro p c h
    simpa [column?, eq_comm] using h
  have hplain : ∀ p c, column? p = some c → Skeleton.IsPlainColumn c := by
    intro p c h
    obtain ⟨_, rfl⟩ := hcol p c h
    exact ⟨by decide, by simp [Skeleton.isColumnChar], by decide, by decide⟩
  have hinj : ∀ p q c, column? p = some c → column? q = some c → p = q := by
    intro p q c hp hq
    rw [(hcol p c hp).1, (hcol q c hq).1]
  have h₁ : (e.emit (.ofFunction column?) () ⟨.atP, [.int 7]⟩).result =
      .ok "NOT a LIKE (@p1 + '%')" := rfl
  have h₂ : (f.emit (.ofFunction column?) () ⟨.atP, [.null]⟩).result =
      .ok "NOT a LIKE (@p1 + '%')" := rfl
  have h₃ : (e'.emit (.ofFunction column?) () ⟨.atP, [.null]⟩).result =
      .ok "NOT a LIKE (@p1 + '%')" := rfl
  have ha : a.IsPlain := isPlain_of_children (by simp [a]) (by simp [a]) (by simp [a, children])
  have hnot : ∀ n, (unary .not (call "startswith" [a, .constant (.int n)])).IsPlain := by
    intro n
    have hn : (constant (.int n)).IsPlain :=
      isPlain_of_children (by simp) (by simp) (by simp [children])
    have hs : (call "startswith" [a, .constant (.int n)]).IsPlain :=
      isPlain_of_children (by simp) (by simp [a]) (by simp [children, ha, hn])
    exact isPlain_of_children (by simp) (by simp) (by simp [children, hs])
  have hstyle : (Parameters.mk .atP [.int 7]).style = (Parameters.mk .atP [.null]).style := rfl
  have hsize : (Parameters.mk .atP [.int 7]).size = (Parameters.mk .atP [.null]).size := rfl
  obtain ⟨k, k', hk, hk', hiff⟩ := (emit_readable hplain hstyle hsize h₁ h₃).1
  exact ⟨h₁, h₃, ⟨k, k', hk, hk', hiff.mp rfl⟩, hnot 1, hnot (3 - 2),
    (emit_readable hplain hstyle hsize h₁ h₂).2 (hnot 1) (hnot (3 - 2)) hinj rfl rfl⟩

end Expression

end FilterClause
