import FilterClause.Expression
import Mathlib.Data.List.Basic
import Mathlib.Tactic.Common

/-!
# The structure of expressions

Structural induction with a hypothesis for each argument of a call, the children of a node, the
nodes of an expression and the paths from its root to its leaves. A property of all nodes, and a
bound on all paths, come down to the root and its children.
-/

namespace FilterClause.Expression

@[elab_as_elim, induction_eliminator]
theorem induction {motive : Expression → Prop}
    (convert : ∀ source target, motive source → motive (.convert source target))
    (constant : ∀ value, motive (.constant value))
    (binary : ∀ operator left right, motive left → motive right →
      motive (.binary operator left right))
    (unary : ∀ operator operand, motive operand → motive (.unary operator operand))
    (property : ∀ property, motive (.property property))
    (call : ∀ name arguments, (∀ a ∈ arguments, motive a) → motive (.call name arguments))
    (collection : ∀ items, (∀ a ∈ items, motive a) → motive (.collection items))
    (lambda : ∀ quantifier source parameter predicate, motive source → motive predicate →
      motive (.lambda quantifier source parameter predicate))
    (rangeVariable : ∀ name, motive (.rangeVariable name)) (e : Expression) : motive e := by
  refine @Expression.rec motive (fun es => ∀ a ∈ es, motive a) convert constant binary unary
    property call collection (fun q s x p => lambda q s x p) rangeVariable (by simp) ?_ e
  intro a es ha hes b hb
  rcases List.mem_cons.mp hb with rfl | hb
  · exact ha
  · exact hes b hb

/-- The expressions directly below the root. -/
def children : Expression → List Expression
  | convert source _ => [source]
  | binary _ left right => [left, right]
  | unary _ operand => [operand]
  | call _ arguments => arguments
  | collection items => items
  | lambda _ source _ predicate => [source, predicate]
  | constant _ | property _ | rangeVariable _ => []

theorem induction_children {motive : Expression → Prop}
    (step : ∀ e, (∀ c ∈ e.children, motive c) → motive e) (e : Expression) : motive e := by
  induction e with
  | constant _ | property _ | rangeVariable _ => exact step _ (by simp [children])
  | convert s t ih => exact step _ (by simpa [children] using ih)
  | unary op x ih => exact step _ (by simpa [children] using ih)
  | binary op l r ihl ihr => exact step _ (by simpa [children] using ⟨ihl, ihr⟩)
  | lambda q s x p ihs ihp => exact step _ (by simpa [children] using ⟨ihs, ihp⟩)
  | call name es ih => exact step _ ih
  | collection es ih => exact step _ ih

/-- The node is the root of the expression, or a node of one of its children. -/
inductive HasNode : Expression → Expression → Prop where
  | root (e) : HasNode e e
  | child {e c node} (hc : c ∈ e.children) (h : HasNode c node) : HasNode e node

/-- The nodes from the root of the expression down to a leaf. -/
inductive RootPath : Expression → List Expression → Prop where
  | leaf {e} (h : e.children = []) : RootPath e [e]
  | step {e c path} (hc : c ∈ e.children) (h : RootPath c path) : RootPath e (e :: path)

theorem forall_hasNode_iff (P : Expression → Prop) (e : Expression) :
    (∀ node, HasNode e node → P node) ↔
      P e ∧ ∀ c ∈ e.children, ∀ node, HasNode c node → P node := by
  constructor
  · intro h
    exact ⟨h e (.root e), fun c hc node hn => h node (.child hc hn)⟩
  · rintro ⟨he, hc⟩ node hn
    cases hn with
    | root => exact he
    | child hm hn => exact hc _ hm node hn

theorem exists_rootPath (e : Expression) : ∃ path, RootPath e path := by
  induction e using induction_children with
  | step e ih =>
    rcases h : e.children with _ | ⟨c, cs⟩
    · exact ⟨_, .leaf h⟩
    · have hc : c ∈ e.children := by simp [h]
      obtain ⟨path, hp⟩ := ih c hc
      exact ⟨_, .step hc hp⟩

/-- No path is longer than `n` nodes. -/
def PathsWithin (n : ℕ) (e : Expression) : Prop := ∀ path, RootPath e path → path.length ≤ n

theorem pathsWithin_iff (n : ℕ) (e : Expression) :
    e.PathsWithin n ↔ 0 < n ∧ ∀ c ∈ e.children, c.PathsWithin (n - 1) := by
  constructor
  · intro h
    constructor
    · obtain ⟨path, hp⟩ := e.exists_rootPath
      have hl := h path hp
      cases hp <;> simp only [List.length_cons] at hl <;> omega
    · intro c hc path hp
      have hl := h _ (.step hc hp)
      rw [List.length_cons] at hl
      omega
  · rintro ⟨hn, hc⟩ path hp
    cases hp with
    | leaf _ => exact hn
    | step hm hp =>
      have hl := hc _ hm _ hp
      rw [List.length_cons]
      omega

end FilterClause.Expression
