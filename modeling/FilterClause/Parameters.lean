import FilterClause.Value

/-!
# Parameters

The values of a statement are bound in the order in which they are appended to its parameters. Each
one is represented in the text of the statement by a placeholder.
-/

namespace FilterClause

/-- How placeholders are spelt: `@p0`, `?` or `$1`. -/
inductive PlaceholderStyle where
  | atP
  | question
  | dollar
  deriving DecidableEq, Repr

namespace PlaceholderStyle

/-- The placeholder of the parameter at an index, which counts from zero. -/
def render : PlaceholderStyle → Nat → String
  | atP, index => "@p" ++ toString index
  | question, _ => "?"
  | dollar, index => "$" ++ toString (index + 1)

end PlaceholderStyle

structure Parameters where
  style : PlaceholderStyle
  values : List Value
  deriving DecidableEq

namespace Parameters

def empty (style : PlaceholderStyle) : Parameters := ⟨style, []⟩

def size (p : Parameters) : Nat := p.values.length

def isEmpty (p : Parameters) : Bool := p.values.isEmpty

def nextPlaceholder (p : Parameters) : String := p.style.render p.size

def append (p : Parameters) (v : Value) : Parameters := { p with values := p.values ++ [v] }

/-- For each value its placeholder and the literal that it stands for. -/
def explanations (p : Parameters) : List String :=
  p.values.zipIdx.map fun (v, index) => p.style.render index ++ " = " ++ v.inline

@[simp] theorem style_append (p : Parameters) (v : Value) : (p.append v).style = p.style := rfl

@[simp] theorem values_append (p : Parameters) (v : Value) :
    (p.append v).values = p.values ++ [v] := rfl

@[simp] theorem size_append (p : Parameters) (v : Value) : (p.append v).size = p.size + 1 := by
  simp [size]

end Parameters

end FilterClause
