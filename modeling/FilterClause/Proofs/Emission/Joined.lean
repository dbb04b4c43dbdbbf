import FilterClause.Proofs.Emission.Levels
import FilterClause.Proofs.Skeleton

/-!
# Joined filters

Filters are joined by AND or OR from left to right. Emitting the whole is emitting the filters one
after another, each from the parameters and the state that the one before left, up to the first that
fails: the same values are bound, the error is the same, and the text consists of the texts of the
filters. The filters of the whole stand below others, so it may be refused for its depth where they
are not.
-/

namespace FilterClause

variable {σ : Type}

namespace Outcome

/-- Go on from an outcome that is no failure; the text follows. -/
def andThen (o : Outcome σ) (next : σ → Parameters → Outcome σ) : Outcome σ :=
  match o.result with
  | .ok text => (next o.state o.parameters).precede text
  | .error _ => o

theorem andThen_of_ok {o : Outcome σ} {text : String} (h : o.result = .ok text)
    (next : σ → Parameters → Outcome σ) :
    o.andThen next = (next o.state o.parameters).precede text := by
  rw [andThen, h]

theorem andThen_of_error {o : Outcome σ} {error : EmissionError} (h : o.result = .error error)
    (next : σ → Parameters → Outcome σ) : o.andThen next = o := by
  rw [andThen, h]

@[simp] theorem precede_empty (o : Outcome σ) : o.precede "" = o := by
  rcases o with ⟨_ | text, parameters, state⟩
  · rfl
  · simp [precede, Except.map]

theorem precede_of_error {o : Outcome σ} {error : EmissionError} (h : o.result = .error error)
    (t : String) : o.precede t = o := by
  rcases o with ⟨_ | text, parameters, state⟩
  · rfl
  · cases h

@[simp] theorem precede_precede (o : Outcome σ) (s t : String) :
    (o.precede t).precede s = o.precede (s ++ t) := by
  cases h : o.result <;> simp [precede, Except.map, h, String.append_assoc]

theorem precede_andThen (o : Outcome σ) (t : String) (next : σ → Parameters → Outcome σ) :
    (o.precede t).andThen next = (o.andThen next).precede t := by
  cases h : o.result with
  | ok text =>
    have ht : (o.precede t).result = .ok (t ++ text) := by rw [precede, h]; rfl
    rw [andThen_of_ok h, andThen_of_ok ht, precede_precede]
    rfl
  | error error =>
    have ht : (o.precede t).result = .error error := by rw [precede, h]; rfl
    rw [andThen_of_error h, andThen_of_error ht]

end Outcome

namespace Fragment

/-- Fragments that follow others are carried out after them. -/
theorem carryOut_append (resolve : Resolver σ) (xs ys : List Fragment) (state : σ)
    (parameters : Parameters) :
    carryOut resolve (xs ++ ys) state parameters =
      (carryOut resolve xs state parameters).andThen (carryOut resolve ys) := by
  induction xs generalizing state parameters with
  | nil =>
    rw [List.nil_append, carryOut, Outcome.andThen_of_ok rfl, Outcome.precede_empty]
  | cons x xs ih =>
    cases x with
    | text t | bound v => rw [List.cons_append, carryOut, carryOut, ih, Outcome.precede_andThen]
    | column p =>
      rw [List.cons_append, carryOut, carryOut]
      split
      · rw [ih, Outcome.precede_andThen]
      · rfl
    | refusal e => rfl

end Fragment

namespace Expression

open Fragment

/-- The filters joined by an operator from left to right. -/
def joined (operator : BinaryOperator) (first : Expression) (more : List Expression) :
    Expression :=
  more.foldl (binary operator) first

/-- The texts joined by a word from left to right. -/
def joinedText (word : String) : List String → String
  | [] => ""
  | first :: more =>
    more.foldl (fun left right => "(" ++ left ++ " " ++ word ++ " " ++ right ++ ")") first

/-- Emit expressions one after another, up to the first that fails: the texts or the error, and the
parameters and the state that are left. -/
def emitEach (resolve : Resolver σ) :
    List Expression → σ → Parameters → Except EmissionError (List String) × Parameters × σ
  | [], state, parameters => (.ok [], parameters, state)
  | e :: es, state, parameters =>
    let o := e.emit resolve state parameters
    match o.result with
    | .ok t =>
      let rest := emitEach resolve es o.state o.parameters
      (rest.1.map (t :: ·), rest.2)
    | .error error => (.error error, o.parameters, o.state)

theorem emitEach_cons_ok {resolve : Resolver σ} {e : Expression} {state : σ}
    {parameters : Parameters} {t : String}
    (h : (e.emit resolve state parameters).result = .ok t) (es : List Expression) :
    emitEach resolve (e :: es) state parameters =
      ((emitEach resolve es (e.emit resolve state parameters).state
        (e.emit resolve state parameters).parameters).1.map (t :: ·),
      (emitEach resolve es (e.emit resolve state parameters).state
        (e.emit resolve state parameters).parameters).2) := by
  rw [emitEach, h]

theorem emitEach_cons_error {resolve : Resolver σ} {e : Expression} {state : σ}
    {parameters : Parameters} {error : EmissionError}
    (h : (e.emit resolve state parameters).result = .error error) (es : List Expression) :
    emitEach resolve (e :: es) state parameters =
      (.error error, (e.emit resolve state parameters).parameters,
        (e.emit resolve state parameters).state) := by
  rw [emitEach, h]

/-- An operation is its left operand and then its right operand, with the word between them. -/
theorem emit_binary {operator : BinaryOperator} {word : String} {left right : Expression}
    (hw : operator.word? left right = some word) {resolve : Resolver σ} {state : σ}
    {parameters : Parameters}
    (hdepth : ∀ kind,
      ((binary operator left right).emit resolve state parameters).result ≠ .error (.depth kind)) :
    (binary operator left right).emit resolve state parameters =
      ((left.emit resolve state parameters).andThen fun state parameters =>
        ((right.emit resolve state parameters).andThen fun state parameters =>
          ⟨.ok ")", parameters, state⟩).precede (" " ++ word ++ " ")).precede "(" := by
  have hcut : CutShort ((binary operator left right).fragments 0)
      (text "(" :: left.fragments 0 ++ text (" " ++ word ++ " ") :: right.fragments 0 ++
        [text ")"]) := by
    have ho : operatorFragment operator left right = text (" " ++ word ++ " ") := by
      rw [operatorFragment, BinaryOperator.tokenFor?_eq, hw]
    rw [fragments, if_neg (by decide), ho]
    exact (CutShort.append (.cons _ (left.cutShort_fragments (Nat.zero_le _)))
      (.cons _ (right.cutShort_fragments (Nat.zero_le _)))).append .rfl
  rw [emit, ← hcut.carryOut_eq hdepth, List.append_assoc, List.cons_append, carryOut,
    carryOut_append]
  congr 2
  funext state parameters
  rw [List.cons_append, carryOut, carryOut_append]
  rfl

theorem emit_binary_of_left_error {operator : BinaryOperator} {word : String}
    {left right : Expression} (hw : operator.word? left right = some word) {resolve : Resolver σ}
    {state : σ} {parameters : Parameters}
    (hdepth : ∀ kind,
      ((binary operator left right).emit resolve state parameters).result ≠ .error (.depth kind))
    {error : EmissionError} (hl : (left.emit resolve state parameters).result = .error error) :
    (binary operator left right).emit resolve state parameters =
      left.emit resolve state parameters := by
  rw [emit_binary hw hdepth, Outcome.andThen_of_error hl, Outcome.precede_of_error hl]

theorem emit_binary_of_left_ok {operator : BinaryOperator} {word : String}
    {left right : Expression} (hw : operator.word? left right = some word) {resolve : Resolver σ}
    {state : σ} {parameters : Parameters}
    (hdepth : ∀ kind,
      ((binary operator left right).emit resolve state parameters).result ≠ .error (.depth kind))
    {t : String} (hl : (left.emit resolve state parameters).result = .ok t) :
    (binary operator left right).emit resolve state parameters =
      let o := right.emit resolve (left.emit resolve state parameters).state
        (left.emit resolve state parameters).parameters
      { o with result := o.result.map fun t' => "(" ++ t ++ " " ++ word ++ " " ++ t' ++ ")" } := by
  rw [emit_binary hw hdepth, Outcome.andThen_of_ok hl]
  rcases right.emit resolve (left.emit resolve state parameters).state
    (left.emit resolve state parameters).parameters with ⟨_ | t', parameters', state'⟩
  · rfl
  · simp [Outcome.andThen, Outcome.precede, Except.map, String.append_assoc]

/-- Two expressions at the front may be replaced by the operation on them. -/
theorem emitEach_binary {operator : BinaryOperator} {word : String} {left right : Expression}
    (hw : operator.word? left right = some word) {resolve : Resolver σ} {state : σ}
    {parameters : Parameters}
    (hdepth : ∀ kind,
      ((binary operator left right).emit resolve state parameters).result ≠ .error (.depth kind))
    (es : List Expression) :
    (emitEach resolve (binary operator left right :: es) state parameters).1.map
        (joinedText word) =
      (emitEach resolve (left :: right :: es) state parameters).1.map (joinedText word) ∧
    (emitEach resolve (binary operator left right :: es) state parameters).2 =
      (emitEach resolve (left :: right :: es) state parameters).2 := by
  cases hl : (left.emit resolve state parameters).result with
  | error error =>
    have he := emit_binary_of_left_error hw hdepth hl
    rw [emitEach_cons_error hl, emitEach_cons_error (he ▸ hl), he]
    exact ⟨rfl, rfl⟩
  | ok t =>
    have he := emit_binary_of_left_ok hw hdepth hl
    rw [emitEach_cons_ok hl]
    cases hr : (right.emit resolve (left.emit resolve state parameters).state
        (left.emit resolve state parameters).parameters).result with
    | error error =>
      have herror : ((binary operator left right).emit resolve state parameters).result =
          .error error := by
        rw [he]
        simp [hr, Except.map]
      rw [emitEach_cons_error hr, emitEach_cons_error herror, he]
      exact ⟨rfl, rfl⟩
    | ok t' =>
      have hok : ((binary operator left right).emit resolve state parameters).result =
          .ok ("(" ++ t ++ " " ++ word ++ " " ++ t' ++ ")") := by
        rw [he]
        simp [hr, Except.map]
      rw [emitEach_cons_ok hr, emitEach_cons_ok hok, he]
      refine ⟨?_, rfl⟩
      cases (emitEach resolve es _ _).1 <;> rfl

/-- Joined filters that are not refused for the depth are emitted one after another. -/
theorem emit_joined {operator : BinaryOperator} {word : String}
    (ho : (operator, word) ∈ [(BinaryOperator.and, "AND"), (BinaryOperator.or, "OR")])
    (first : Expression) (more : List Expression) (resolve : Resolver σ) (state : σ)
    (parameters : Parameters)
    (hdepth : ∀ kind, ((joined operator first more).emit resolve state parameters).result ≠
      .error (.depth kind)) :
    let whole := (joined operator first more).emit resolve state parameters
    let each := emitEach resolve (first :: more) state parameters
    whole.result = each.1.map (joinedText word) ∧ whole.parameters = each.2.1 ∧
      whole.state = each.2.2 := by
  have hw (left right : Expression) : operator.word? left right = some word := by
    rcases List.mem_pair.mp ho with h | h <;> cases h <;> rfl
  intro whole each
  subst whole each
  induction more generalizing first with
  | nil =>
    rw [joined, List.foldl_nil]
    cases h : (first.emit resolve state parameters).result with
    | error error =>
      rw [emitEach_cons_error h]
      exact ⟨rfl, rfl, rfl⟩
    | ok t =>
      rw [emitEach_cons_ok h]
      exact ⟨rfl, rfl, rfl⟩
  | cons second more ih =>
    obtain ⟨hresult, hparameters, hstate⟩ := ih (binary operator first second) hdepth
    have hfirst (kind : String) :
        ((binary operator first second).emit resolve state parameters).result ≠
          .error (.depth kind) := by
      intro h
      rw [emitEach_cons_error h] at hresult
      exact hdepth kind hresult
    obtain ⟨htexts, hrest⟩ := emitEach_binary (hw first second) hfirst more
    exact ⟨hresult.trans htexts, hparameters.trans (congrArg Prod.fst hrest),
      hstate.trans (congrArg Prod.snd hrest)⟩

theorem emit_joined_and :
    let id : Expression := .binary .equal (.property ⟨none, "Id"⟩) (.constant (.int 7))
    let name : Expression := .call "contains" [.property ⟨none, "Name"⟩, .constant (.text "x")]
    let resolve : Resolver Unit := .ofFunction Property.plainColumn?
    let whole := (joined .and id [name, id]).emit resolve () (.empty .dollar)
    let each := emitEach resolve [id, name, id] () (.empty .dollar)
    (∀ kind, whole.result ≠ .error (.depth kind)) ∧
      each.1 = .ok ["(Id = $1)", "Name LIKE ('%' + $2 + '%')", "(Id = $3)"] ∧
      whole.result = .ok "(((Id = $1) AND Name LIKE ('%' + $2 + '%')) AND (Id = $3))" ∧
      whole.parameters = each.2.1 ∧ each.2.1.values = [.int 7, .text "x", .int 7] := by
  intro id name resolve whole each
  have hwhole : whole.result =
      .ok "(((Id = $1) AND Name LIKE ('%' + $2 + '%')) AND (Id = $3))" := rfl
  have hdepth (kind : String) : whole.result ≠ .error (.depth kind) := by
    rw [hwhole]
    exact nofun
  obtain ⟨_, hparameters, _⟩ :=
    emit_joined List.mem_cons_self id [name, id] resolve () (.empty .dollar) hdepth
  have heach : each.1 = .ok ["(Id = $1)", "Name LIKE ('%' + $2 + '%')", "(Id = $3)"] := by
    decide
  exact ⟨hdepth, heach, hwhole, hparameters, by decide⟩

end Expression

end FilterClause
