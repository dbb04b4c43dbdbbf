import FilterClause.Expression

/-!
# Resolvers

A resolver finds the column of a property. It may keep a state from call to call; the columns it
finds go into the clause as they are.
-/

namespace FilterClause

/-- A resolver with states `σ`: the column of a property, if it has one, and the next state. -/
abbrev Resolver (σ : Type) := Property → σ → Option String × σ

namespace Resolver

/-- The resolver that answers as a function does and leaves its state alone. -/
def ofFunction {σ : Type} (column? : Property → Option String) : Resolver σ :=
  fun property state => (column? property, state)

end Resolver

/-- An ASCII letter, digit or underscore, as they may follow in an identifier. -/
def isIdentifierChar (c : Char) : Bool := c.isAlphanum || c = '_'

/-- An ASCII letter or underscore, followed by any number of them and of ASCII digits. -/
def isIdentifier (s : String) : Bool :=
  match s.toList with
  | [] => false
  | c :: cs => (c.isAlpha || c = '_') && cs.all isIdentifierChar

namespace Property

/-- The column of a property whose parts are plain identifiers: the same, with a point between the
entity and the name. -/
def plainColumn? (p : Property) : Option String :=
  if isIdentifier p.name then
    match p.entity with
    | none => some p.name
    | some entity => if isIdentifier entity then some (entity ++ "." ++ p.name) else none
  else none

end Property

/-- Columns of properties by their display form. -/
structure ColumnMap where
  entries : List (String × String)
  nodup : (entries.map Prod.fst).Nodup

namespace ColumnMap

def empty : ColumnMap := ⟨[], by simp⟩

/-- Map a property to a column, in place of any column that it had. -/
def insert (m : ColumnMap) (property column : String) : ColumnMap where
  entries := (property, column) :: m.entries.filter fun entry => entry.1 ≠ property
  nodup := by
    rw [List.map_cons, List.nodup_cons]
    constructor
    · simp
    · exact m.nodup.sublist (List.filter_sublist.map _)

/-- Map a property to a column in a map that is kept as a state. -/
def put (property column : String) : StateM ColumnMap Unit :=
  modify fun m => m.insert property column

/-- Put a property into a map and pass the map on, so that more can be added to it in a chain. -/
def adding (m : ColumnMap) (property column : String) : ColumnMap :=
  ((put property column).run m).2

/-- The map with these pairs inserted from left to right. -/
def ofList (pairs : List (String × String)) : ColumnMap :=
  pairs.foldl (fun m pair => m.insert pair.1 pair.2) empty

def size (m : ColumnMap) : Nat := m.entries.length

def isEmpty (m : ColumnMap) : Bool := m.entries.isEmpty

def column? (m : ColumnMap) (p : Property) : Option String := m.entries.lookup p.display

end ColumnMap

end FilterClause
