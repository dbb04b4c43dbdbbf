import FilterClause.Clause
import FilterClause.Proofs.Emission.Pieces
import Mathlib.Data.List.Nodup

/-!
# Sessions

All that is written for one statement shares its parameters: values are appended, expressions are
emitted and clauses are built in any order, and some of it may fail. Whatever a step does, it only
adds parameters, and it adds them in the order in which it writes their placeholders. So over a
whole session every placeholder stands for the value that is found at its index in the end, and
numbered placeholders are never used twice.
-/

namespace FilterClause

namespace PlaceholderStyle

theorem toString_injective {m n : ℕ} (h : toString m = toString n) : m = n := by
  have hd : Nat.toDigits 10 m = Nat.toDigits 10 n := by
    simpa using congrArg String.toList h
  have hn := congrArg (Nat.ofDigitChars 10 · 0) hd
  simpa [Nat.ofDigitChars_ten_toDigits] using hn

theorem render_injective {style : PlaceholderStyle} (hs : style ≠ .question) :
    Function.Injective style.render := by
  intro m n h
  cases style with
  | atP => exact toString_injective ((String.append_right_inj _).mp h)
  | question => exact absurd rfl hs
  | dollar => exact Nat.succ.inj (toString_injective ((String.append_right_inj _).mp h))

theorem placeholders_append (style : PlaceholderStyle) (n : ℕ) (vs ws : List Value) :
    style.placeholders n (vs ++ ws) =
      style.placeholders n vs ++ style.placeholders (n + vs.length) ws := by
  rw [placeholders, List.zipIdx_append, List.map_append]
  rfl

theorem nodup_placeholders {style : PlaceholderStyle} (hs : style ≠ .question) (n : ℕ)
    (vs : List Value) : ((style.placeholders n vs).map Prod.fst).Nodup := by
  rw [map_fst_placeholders]
  exact List.Nodup.map (render_injective hs) (List.nodup_range' 1)

theorem mem_placeholders {style : PlaceholderStyle} {n : ℕ} {vs : List Value} {t : String}
    {v : Value} (h : (t, v) ∈ style.placeholders n vs) :
    ∃ i, vs[i]? = some v ∧ t = style.render (n + i) := by
  obtain ⟨⟨w, k⟩, hm, he⟩ := List.mem_map.mp h
  obtain ⟨hk, hw⟩ := List.mk_mem_zipIdx_iff_le_and_getElem?_sub.mp hm
  cases he
  refine ⟨k - n, hw, ?_⟩
  rw [Nat.add_sub_cancel' hk]

end PlaceholderStyle

/-- What may be done with the parameters of a statement. An emission and a build find their resolver
in any state, so the builds of one clause may go on from each other. -/
inductive Step : Type 1 where
  | append (v : Value)
  | emit {σ : Type} (e : Expression) (resolve : Resolver σ) (state : σ)
  | build {σ : Type} (clause : Clause σ) (state : σ)

namespace Step

/-- The placeholder, the text or the clause, or the error. -/
def result (p : Parameters) : Step → Except EmissionError String
  | append _ => .ok p.nextPlaceholder
  | emit e resolve state => (e.emit resolve state p).result
  | build clause state => (clause.build state p).result

/-- The parameters after the step. -/
def after (p : Parameters) : Step → Parameters
  | append v => p.append v
  | emit e resolve state => (e.emit resolve state p).parameters
  | build clause state => (clause.build state p).parameters

/-- What the step writes, up to the first error. -/
def pieces (p : Parameters) : Step → List Piece
  | append v => [.placeholder p.nextPlaceholder v]
  | emit e resolve state => e.pieces resolve state p
  | build clause state =>
    match clause.options.filter with
    | none => []
    | some filter =>
      .text (Text.upperCase clause.keyword ++ " ") :: filter.pieces clause.resolve state p

/-- The placeholders that the step writes, each with the constant that it is written for. -/
def issued (p : Parameters) (s : Step) : List (String × Value) :=
  (s.pieces p).filterMap Piece.placeholder?

theorem join_pieces {p : Parameters} {s : Step} {sql : String} (h : s.result p = .ok sql) :
    sql = Piece.join (s.pieces p) := by
  cases s with
  | append v =>
    cases h
    simp [pieces, Piece.join, Piece.written]
  | emit e resolve state => exact Fragment.join_pieces h
  | build clause state =>
    rw [result, Clause.build] at h
    rw [pieces]
    cases hf : clause.options.filter with
    | none =>
      rw [hf] at h
      cases h
      rfl
    | some filter =>
      rw [hf] at h
      obtain ⟨rest, hr, rfl⟩ := Outcome.result_precede_eq_ok_iff.mp h
      simp only [Piece.join, Piece.written]
      exact congrArg _ (Fragment.join_pieces hr)

/-- A step adds the values that it writes placeholders for; but for a single value that is appended,
none of them is null. -/
theorem after_eq (s : Step) (p : Parameters) :
    ∃ values, s.after p = { p with values := p.values ++ values } ∧
      s.issued p = p.style.placeholders p.size values ∧
      ((∀ v, s ≠ .append v) → Value.null ∉ values) := by
  cases s with
  | append v => exact ⟨[v], rfl, rfl, fun h => absurd rfl (h v)⟩
  | emit e resolve state =>
    obtain ⟨values, hc, hp, hv⟩ := e.parameters_emit resolve state p
    exact ⟨values, hp, hv, fun _ hn => Expression.ne_null_of_mem_constants (hc.subset hn) rfl⟩
  | build clause state =>
    rw [after, Clause.build, issued, pieces]
    cases clause.options.filter with
    | none => exact ⟨[], by simp, rfl, by simp⟩
    | some filter =>
      obtain ⟨values, hc, hp, hv⟩ := filter.parameters_emit clause.resolve state p
      exact ⟨values, hp, hv, fun _ hn => Expression.ne_null_of_mem_constants (hc.subset hn) rfl⟩

end Step

namespace Session

/-- The parameters after a session. -/
def run (p : Parameters) (steps : List Step) : Parameters := steps.foldl Step.after p

/-- The placeholders that a session writes, each with the constant that it is written for. -/
def issued : Parameters → List Step → List (String × Value)
  | _, [] => []
  | p, s :: steps => s.issued p ++ issued (s.after p) steps

/-- What the steps of a session give, one after the other. -/
def results : Parameters → List Step → List (Except EmissionError String)
  | _, [] => []
  | p, s :: steps => s.result p :: results (s.after p) steps

/-- The session of several builds of one clause, each in the state that the one before left. -/
def builds {σ : Type} (c : Clause σ) : ℕ → σ → Parameters → List Step
  | 0, _, _ => []
  | n + 1, state, p =>
    .build c state :: builds c n (c.build state p).state (c.build state p).parameters

theorem buildTimes_eq {σ : Type} (c : Clause σ) (n : ℕ) (state : σ) (p : Parameters) :
    (c.buildTimes n state p).1 = results p (builds c n state p) ∧
      (c.buildTimes n state p).2.1 = run p (builds c n state p) := by
  induction n generalizing state p with
  | zero => exact ⟨rfl, rfl⟩
  | succ n ih =>
    obtain ⟨hr, hp⟩ := ih (c.build state p).state (c.build state p).parameters
    exact ⟨congrArg _ hr, hp⟩

theorem run_eq (steps : List Step) (p : Parameters) :
    ∃ values, run p steps = { p with values := p.values ++ values } ∧
      issued p steps = p.style.placeholders p.size values := by
  induction steps generalizing p with
  | nil => exact ⟨[], by simp [run], rfl⟩
  | cons s steps ih =>
    obtain ⟨values, hp, hv, _⟩ := s.after_eq p
    obtain ⟨values', hp', hv'⟩ := ih (s.after p)
    refine ⟨values ++ values', ?_, ?_⟩
    · rw [run, List.foldl_cons, ← run, hp', hp, List.append_assoc]
    · rw [issued, hv, hv', hp, PlaceholderStyle.placeholders_append, Parameters.size,
        Parameters.size, List.length_append]

end Session

/-- What holds of a step from the parameters `p`, where `final` are those at the end of the
session. -/
structure Step.Sound (s : Step) (p final : Parameters) : Prop where
  style_eq : (s.after p).style = p.style
  values_extend : p.values <+: (s.after p).values
  null_notMem : (∀ v, s ≠ .append v) → Value.null ∉ (s.after p).values.drop p.size
  /-- A clause without a filter is empty and leaves everything as it was. -/
  omitted : ∀ (σ : Type) (keyword : String) (resolve : Resolver σ) (state : σ),
    s = .build ⟨keyword, ⟨none⟩, resolve⟩ state → s.result p = .ok "" ∧ s.after p = p
  /-- The text consists of what was written. -/
  written : ∀ sql, s.result p = .ok sql → sql = Piece.join (s.pieces p)
  /-- The placeholders are numbered from the parameters there are, one for each that is added. -/
  numbered : (s.issued p).map Prod.fst =
    (List.range' p.size ((s.after p).size - p.size)).map p.style.render
  /-- A placeholder stands for the value that is found at its index in the end. -/
  stored : ∀ t v, (t, v) ∈ s.issued p → ∃ i, p.size ≤ i ∧ i < (s.after p).size ∧
    t = p.style.render i ∧ final.values[i]? = some v

theorem Step.sound (s : Step) (p : Parameters) (steps : List Step) :
    s.Sound p (Session.run (s.after p) steps) := by
  obtain ⟨values, hp, hv, hn⟩ := s.after_eq p
  obtain ⟨values', hfinal, _⟩ := Session.run_eq steps (s.after p)
  have hsize : (s.after p).size = p.size + values.length := by
    rw [hp, Parameters.size, Parameters.size, List.length_append]
  constructor
  · rw [hp]
  · rw [hp]
    exact List.prefix_append _ _
  · intro h
    rw [hp, Parameters.size, List.drop_left]
    exact hn h
  · rintro σ keyword resolve state rfl
    exact ⟨rfl, rfl⟩
  · intro sql h
    exact join_pieces h
  · rw [hv, hsize, Nat.add_sub_cancel_left, PlaceholderStyle.map_fst_placeholders]
  · intro t v hm
    rw [hv] at hm
    obtain ⟨i, hi, ht⟩ := PlaceholderStyle.mem_placeholders hm
    have hlt : i < values.length := (List.getElem?_eq_some_iff.mp hi).1
    refine ⟨p.size + i, by omega, by omega, ht, ?_⟩
    have hfinal' : (Session.run (s.after p) steps).values = p.values ++ (values ++ values') := by
      rw [hfinal, hp, List.append_assoc]
    rw [hfinal', Parameters.size, List.getElem?_append_right (Nat.le_add_right _ _),
      Nat.add_sub_cancel_left, List.getElem?_append_left hlt, hi]

namespace Session

/-- In every session each step does to the parameters what it should, and a placeholder with a
number is never written twice. The builds of one clause are such a session. -/
theorem run_sound (start : Parameters) (steps : List Step) :
    (∀ before s after, steps = before ++ s :: after →
      s.Sound (run start before) (run start steps)) ∧
    (start.style ≠ .question → ((issued start steps).map Prod.fst).Nodup) ∧
    ∀ (σ : Type) (c : Clause σ) (n : ℕ) (state : σ),
      (c.buildTimes n state start).1 = results start (builds c n state start) ∧
        (c.buildTimes n state start).2.1 = run start (builds c n state start) := by
  refine ⟨?_, ?_, fun σ c n state => buildTimes_eq c n state start⟩
  · rintro before s after rfl
    have hrun : run start (before ++ s :: after) = run (s.after (run start before)) after := by
      rw [run, List.foldl_append]
      rfl
    rw [hrun]
    exact s.sound _ after
  · intro hs
    obtain ⟨values, _, hv⟩ := run_eq steps start
    rw [hv]
    exact PlaceholderStyle.nodup_placeholders hs _ _

theorem run_sound_after_failure :
    let failing : Expression := .binary .has (.constant (.int 1)) (.constant (.int 2))
    let clause : Clause Unit :=
      ⟨"where", ⟨some (.constant (.text "x"))⟩, .ofFunction fun _ => none⟩
    let before : List Step := [.append .null, .emit failing clause.resolve ()]
    let after : List Step := [.build clause ()]
    let start := Parameters.empty .atP
    let p := run start before
    p = ⟨.atP, [.null, .int 1]⟩ ∧ (Step.build clause ()).result p = .ok "WHERE @p2" ∧
      (Step.build clause ()).Sound p (run start (before ++ .build clause () :: after)) ∧
      issued start (before ++ .build clause () :: after) =
        [("@p0", .null), ("@p1", .int 1), ("@p2", .text "x"), ("@p3", .text "x")] ∧
      ((issued start (before ++ .build clause () :: after)).map Prod.fst).Nodup := by
  intro failing clause before after start p
  have hs : start.style ≠ .question := by decide
  obtain ⟨hsound, hnodup, _⟩ := run_sound start (before ++ .build clause () :: after)
  exact ⟨rfl, by decide, hsound before _ after rfl, by decide, hnodup hs⟩

end Session

end FilterClause
