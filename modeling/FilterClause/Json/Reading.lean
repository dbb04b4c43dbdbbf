import FilterClause.Json.Number
import FilterClause.Json.Scan

/-!
# Reading values of a given shape

A reader takes the document of a text and yields a value of some type, or the first reason in the
order of the text why there is none. It is given the number of arrays and objects that may still be
opened; the outermost reader has `nestingLimit`. What a reader passes over, unknown members of a
record, need only be well formed, however deep.

The shapes are words, numbers, strings, lists, records and unions. A record is an object, with its
fields in any order, or the array of its fields. A union is a string, which names a case without
content, or an object whose one key names a case and whose value is the content, `null` for none.
-/

namespace FilterClause.Json

/-- Why a text is no value of the wanted shape. -/
inductive Rejection where
  /-- The text ends too early. -/
  | ended
  /-- The text is no JSON, or opens too much, or goes on after the value. -/
  | malformed
  /-- The text is well formed so far, but the value does not fit. -/
  | unfitting
  deriving DecidableEq, Repr

namespace Fault

def rejection : Fault → Rejection
  | .ended => .ended
  | .malformed => .malformed

end Fault

/-- A reader of values: the levels that may still be opened, and the document. -/
abbrev Reader (α : Type) := Nat → Document → Except Rejection α

def nestingLimit : Nat := 127

def pass : Option Fault → Except Rejection Unit
  | none => .ok ()
  | some fault => .error (fault.rejection)

/-- The reason to refuse a document that is not of the wanted shape. A word, number or string is
looked at to its end; an array or object is refused at its opening character. -/
def Document.misfit : Document → Rejection
  | .missing => .ended
  | .stray => .malformed
  | .word _ none => .unfitting
  | .word _ (some fault) => fault.rejection
  | .number (.ok numeral) => if numeral.value?.isSome then .unfitting else .malformed
  | .number (.error fault) => fault.rejection
  | .string (.ok _) _ => .unfitting
  | .string (.error fault) _ => fault.rejection
  | .array _ _ => .unfitting
  | .object _ _ => .unfitting

def readNull : Reader Unit
  | _, .word .null fault => pass fault
  | _, doc => .error doc.misfit

def readBool : Reader Bool
  | _, .word .true fault => do pass fault; return true
  | _, .word .false fault => do pass fault; return false
  | _, doc => .error doc.misfit

def readString : Reader String
  | _, .string (.ok s) _ => .ok s
  | _, doc => .error doc.misfit

/-- A number; one past the largest double is malformed. -/
def readNumber : Reader Number
  | _, .number (.ok numeral) =>
    match numeral.value? with
    | some n => .ok n
    | none => .error .malformed
  | _, doc => .error doc.misfit

def readInteger (low high : Int) : Reader { n : Int // low ≤ n ∧ n ≤ high }
  | level, doc => do
    match ← readNumber level doc with
    | .integer n => if h : low ≤ n ∧ n ≤ high then .ok ⟨n, h⟩ else .error .unfitting
    | .float _ => .error .unfitting

def readFloat : Reader Binary64
  | level, doc => do
    match ← readNumber level doc with
    | .integer n => .ok (Binary64.withSign (decide (n < 0)) (Binary64.ofNat n.natAbs))
    | .float x => .ok x

def readDenoted {α : Type} (denote : String → Option α) : Reader α
  | level, doc => do
    let s ← readString level doc
    match denote s with
    | some a => .ok a
    | none => .error .unfitting

def readOption {α : Type} (read : Reader α) : Reader (Option α)
  | _, .word .null fault => do pass fault; return none
  | level, doc => some <$> read level doc

def readItems {α : Type} (read : Document → Except Rejection α) :
    List Document → Except Rejection (List α)
  | [] => .ok []
  | item :: items => do
    let a ← read item
    let as ← readItems read items
    return a :: as

def readList {α : Type} (read : Reader α) : Reader (List α)
  | 0, .array _ _ => .error .malformed
  | level + 1, .array items fault => do
    let as ← readItems (read level) items
    pass fault
    return as
  | _, doc => .error doc.misfit

/-- A field of a record that is being put together in a draft: whether the draft has the field, and
how to read the field into it. -/
structure RecordField (δ : Type) where
  name : String
  isSet : δ → Bool
  read : Nat → Document → δ → Except Rejection δ

/-- The field with this name that holds what `read` yields. -/
def RecordField.of {δ α : Type} (name : String) (read : Reader α) (get : δ → Option α)
    (put : α → δ → δ) : RecordField δ where
  name := name
  isSet := fun draft => (get draft).isSome
  read := fun level doc draft => (put · draft) <$> read level doc

def readKey : Except Fault String → Except Rejection String
  | .ok name => .ok name
  | .error fault => .error (fault.rejection)

/-- One member of an object: a field that is not yet set, or anything under an unknown name. -/
def readMember {δ : Type} (fields : List (RecordField δ)) (level : Nat) (draft : δ)
    (member : Except Fault String × Document) : Except Rejection δ := do
  let name ← readKey member.1
  match fields.find? (·.name == name) with
  | some field =>
    if field.isSet draft then .error .unfitting else field.read level member.2 draft
  | none =>
    pass member.2.fault
    return draft

def readMembers {δ : Type} (fields : List (RecordField δ)) (level : Nat) :
    δ → List (Except Fault String × Document) → Except Rejection δ
  | draft, [] => .ok draft
  | draft, member :: members => do
    let draft ← readMember fields level draft member
    readMembers fields level draft members

/-- The fields in their order, as long as there are items. An item too many is malformed. -/
def readPositions {δ : Type} (level : Nat) :
    List (RecordField δ) → δ → List Document → Except Rejection δ
  | _, draft, [] => .ok draft
  | [], _, _ :: _ => .error .malformed
  | field :: fields, draft, item :: items => do
    let draft ← field.read level item draft
    readPositions level fields draft items

def finishRecord {δ α : Type} (finish : δ → Option α) (draft : δ) : Except Rejection α :=
  match finish draft with
  | some a => .ok a
  | none => .error .unfitting

def readRecord {δ α : Type} (fields : List (RecordField δ)) (empty : δ) (finish : δ → Option α) :
    Reader α
  | 0, .object _ _ => .error .malformed
  | 0, .array _ _ => .error .malformed
  | level + 1, .object members fault => do
    let draft ← readMembers fields level empty members
    pass fault
    finishRecord finish draft
  | level + 1, .array items fault => do
    let draft ← readPositions level fields empty items
    pass fault
    finishRecord finish draft
  | _, doc => .error doc.misfit

/-- A case of a union: without content, or with content of some shape. -/
inductive UnionCase (α : Type) where
  | bare (value : α)
  | carrying (read : Reader α)

namespace UnionCase

def readContent {α : Type} : UnionCase α → Reader α
  | bare value, level, doc => do
    readNull level doc
    return value
  | carrying read, level, doc => read level doc

end UnionCase

/-- A union whose cases are known by name. Anything but a string or an object with exactly one
member is malformed, also an object whose key is no string, whatever stands in the place of the
key. -/
def readUnion {α : Type} (caseOf : String → Option (UnionCase α)) : Reader α
  | level, .string content fault => do
    let name ← readString level (.string content fault)
    match caseOf name with
    | some (.bare value) => .ok value
    | _ => .error .unfitting
  | 0, .object _ _ => .error .malformed
  | level + 1, .object members fault =>
    match members with
    | [] => .error ((fault.getD .malformed).rejection)
    | (key, content) :: more => do
      let name ← readKey key
      match caseOf name with
      | none => .error .unfitting
      | some unionCase =>
        let value ← unionCase.readContent level content
        if more.isEmpty then
          pass fault
          return value
        else .error .malformed
  | _, .missing => .error .ended
  | _, _ => .error .malformed

/-- A union all of whose cases are without content. -/
def readName {α : Type} (valueOf : String → Option α) : Reader α :=
  readUnion fun name => (valueOf name).map .bare

/-- The value that a whole text denotes. -/
def readText {α : Type} (read : Reader α) (text : String) : Except Rejection α := do
  let scan := scanText text.toList
  let value ← read nestingLimit scan.document
  if (skipSpace scan.rest).isEmpty then return value else .error .malformed

end FilterClause.Json
