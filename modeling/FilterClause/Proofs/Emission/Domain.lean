import FilterClause.Proofs.Emission.FirstOffence
import Mathlib.Data.List.Forall2
import Mathlib.Tactic.Tauto

/-!
# The domain of emission

The expressions that have a text, as a condition on the paths and nodes of the tree without any
order: no path is longer than 256 nodes, and every node has a form. The values of the constants do
not matter.
-/

namespace FilterClause.Event

variable {column? : Property → Option String}

@[simp] theorem clear_nil : Clear column? [] := by simp [Clear]

@[simp] theorem clear_append {xs ys : List Event} :
    Clear column? (xs ++ ys) ↔ Clear column? xs ∧ Clear column? ys := List.forall_mem_append

@[simp] theorem clear_flatten {xss : List (List Event)} :
    Clear column? xss.flatten ↔ ∀ xs ∈ xss, Clear column? xs := by
  induction xss with
  | nil => simp
  | cons xs xss ih => simp [ih]

@[simp] theorem clear_constant (v : Value) : Clear column? [.constant v] := by
  simp [Clear, offence?]

@[simp] theorem clear_access {p : Property} : Clear column? [.access p] ↔ (column? p).isSome := by
  simp [Clear, offence?, Option.isSome_iff_ne_none]

@[simp] theorem not_clear_offence (error : EmissionError) (xs : List Event) :
    ¬Clear column? (.offence error :: xs) := by simp [Clear, offence?]

end FilterClause.Event

namespace FilterClause.Expression

variable {σ : Type} {column? : Property → Option String}

/-- The node has a form in SQL, whatever is below it. -/
def IsExpressible (column? : Property → Option String) : Expression → Prop
  | convert _ _ | constant _ => True
  | binary operator _ _ => operator ≠ .has
  | unary operator _ => operator ≠ .negate
  | property p => (column? p).isSome
  | call name arguments => Call.IsKnown name arguments.length
  | collection _ | lambda _ _ _ _ | rangeVariable _ => False

/-- The expression has a text. -/
structure IsTranslatable (column? : Property → Option String) (e : Expression) : Prop where
  paths : ∀ path, RootPath e path → path.length ≤ 256
  nodes : ∀ node, HasNode e node → node.IsExpressible column?

/-- The same expression, but for the values of its constants. -/
inductive SameButConstants : Expression → Expression → Prop where
  | convert {source source'} (target) (h : SameButConstants source source') :
      SameButConstants (.convert source target) (.convert source' target)
  | constant (v v') : SameButConstants (.constant v) (.constant v')
  | binary {left left' right right'} (operator) (hl : SameButConstants left left')
      (hr : SameButConstants right right') :
      SameButConstants (.binary operator left right) (.binary operator left' right')
  | unary {operand operand'} (operator) (h : SameButConstants operand operand') :
      SameButConstants (.unary operator operand) (.unary operator operand')
  | property (p) : SameButConstants (.property p) (.property p)
  | call {arguments arguments'} (name) (h : List.Forall₂ SameButConstants arguments arguments') :
      SameButConstants (.call name arguments) (.call name arguments')
  | collection {items items'} (h : List.Forall₂ SameButConstants items items') :
      SameButConstants (.collection items) (.collection items')
  | lambda {source source' predicate predicate'} (quantifier parameter)
      (hs : SameButConstants source source') (hp : SameButConstants predicate predicate') :
      SameButConstants (.lambda quantifier source parameter predicate)
        (.lambda quantifier source' parameter predicate')
  | rangeVariable (name) : SameButConstants (.rangeVariable name) (.rangeVariable name)

theorem SameButConstants.children {e e' : Expression} (h : SameButConstants e e') :
    List.Forall₂ SameButConstants e.children e'.children := by
  cases h <;> simp_all [Expression.children]

theorem SameButConstants.isExpressible_iff {e e' : Expression} (h : SameButConstants e e') :
    e.IsExpressible column? ↔ e'.IsExpressible column? := by
  cases h with
  | call name h => simp [IsExpressible, h.length_eq]
  | _ => rfl

/-- The root is clear, and so are the children one level below it. -/
theorem clear_events_iff (level : ℕ) (e : Expression) :
    Event.Clear column? (e.events level) ↔ level ≤ 256 ∧ e.IsExpressible column? ∧
      ∀ c ∈ e.children, Event.Clear column? (c.events (level + 1)) := by
  by_cases hl : 256 < level
  · have hn : ¬level ≤ 256 := by omega
    rw [events.eq_def, entryEvents.eq_def, if_pos hl]
    simp [hn]
  have hn : level ≤ 256 := by omega
  cases e with
  | convert source target =>
    simp [events, entryEvents.eq_def, hl, hn, IsExpressible, children]
  | constant v =>
    cases h : v.isNull <;> simp [events, entryEvents.eq_def, hl, hn, IsExpressible, children, h]
  | binary operator left right =>
    by_cases h : operator = .has <;>
      simp [events, entryEvents.eq_def, hl, hn, IsExpressible, children, h]
  | unary operator operand =>
    cases operator <;> simp [events, entryEvents.eq_def, hl, hn, IsExpressible, children]
  | property p =>
    simp [events, entryEvents.eq_def, hl, hn, IsExpressible, children]
  | call name arguments =>
    by_cases h : Call.IsKnown name arguments.length <;>
      simp [events, entryEvents.eq_def, hl, hn, IsExpressible, children, h,
        argumentEvents_eq_map, ← Call.map_inEmissionOrder]
  | collection items | lambda q source x predicate | rangeVariable x =>
    simp [events, entryEvents.eq_def, hl, IsExpressible]

theorem clear_events_iff_isExpressible (level : ℕ) (e : Expression) :
    Event.Clear column? (e.events level) ↔
      e.PathsWithin (257 - level) ∧ ∀ node, HasNode e node → node.IsExpressible column? := by
  induction e using induction_children generalizing level with
  | step e ih =>
    rw [clear_events_iff, pathsWithin_iff, forall_hasNode_iff]
    have hc : (∀ c ∈ e.children, Event.Clear column? (c.events (level + 1))) ↔
        (∀ c ∈ e.children, c.PathsWithin (257 - level - 1)) ∧
          ∀ c ∈ e.children, ∀ node, HasNode c node → node.IsExpressible column? := by
      rw [← forall₂_and]
      exact forall₂_congr fun c hc => ih c hc (level + 1)
    have hl : level ≤ 256 ↔ 0 < 257 - level := by omega
    rw [hc, hl]
    tauto

theorem isTranslatable_iff_clear (e : Expression) :
    e.IsTranslatable column? ↔ Event.Clear column? (e.events 1) := by
  rw [clear_events_iff_isExpressible]
  exact ⟨fun h => ⟨h.paths, h.nodes⟩, fun h => ⟨h.1, h.2⟩⟩

theorem forall_mem_iff_of_forall₂ {α β : Type} {R : α → β → Prop} {P : α → Prop} {Q : β → Prop}
    {xs : List α} {ys : List β} (h : List.Forall₂ R xs ys)
    (hPQ : ∀ a ∈ xs, ∀ b, R a b → (P a ↔ Q b)) : (∀ a ∈ xs, P a) ↔ ∀ b ∈ ys, Q b := by
  induction h with
  | nil => simp
  | cons hab _ ih =>
    have hx := hPQ _ (by simp) _ hab
    have hxs := ih fun a ha => hPQ a (by simp [ha])
    simp only [List.forall_mem_cons, hx, hxs]

theorem SameButConstants.clear_iff {e e' : Expression} (h : SameButConstants e e') (level : ℕ) :
    Event.Clear column? (e.events level) ↔ Event.Clear column? (e'.events level) := by
  induction e using induction_children generalizing e' level with
  | step e ih =>
    have hc : (∀ c ∈ e.children, Event.Clear column? (c.events (level + 1))) ↔
        ∀ c ∈ e'.children, Event.Clear column? (c.events (level + 1)) :=
      forall_mem_iff_of_forall₂ h.children fun c hc c' h' => ih c hc h' (level + 1)
    rw [clear_events_iff, clear_events_iff, h.isExpressible_iff, hc]

/-- Emission succeeds on the translatable expressions, whatever the parameters and whatever the
values of the constants. -/
theorem emit_ok_iff (e : Expression) (state : σ) (parameters : Parameters) :
    ((∃ sql, (e.emit (.ofFunction column?) state parameters).result = .ok sql) ↔
      e.IsTranslatable column?) ∧
    ∀ e', SameButConstants e e' → (e'.IsTranslatable column? ↔ e.IsTranslatable column?) := by
  refine ⟨?_, fun e' h => ?_⟩
  · rw [isTranslatable_iff_clear, ← emit_ok_iff_clear]
  · rw [isTranslatable_iff_clear, isTranslatable_iff_clear, h.clear_iff]

theorem emit_ok_iff_null :
    let e : Expression := .binary .equal (.constant .null) (.unary .not (.constant (.bool true)))
    let e' : Expression := .binary .equal (.constant (.int 1)) (.unary .not (.constant .null))
    e.IsTranslatable (fun _ => none) ∧ SameButConstants e e' ∧
      e'.IsTranslatable (fun _ => none) := by
  intro e e'
  obtain ⟨hok, hsame⟩ := @emit_ok_iff Unit (fun _ => none) e () ⟨.question, []⟩
  have he := hok.mp ⟨_, rfl⟩
  have h : SameButConstants e e' := .binary _ (.constant _ _) (.unary _ (.constant _ _))
  exact ⟨he, h, (hsame e' h).mpr he⟩

end FilterClause.Expression
