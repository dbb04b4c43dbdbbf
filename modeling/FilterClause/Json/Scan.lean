import FilterClause.Json.Document

/-!
# Scanning JSON texts

`scanText` finds the document that a text begins with. Scanning never fails: it stops at the first
fault and records it on the way out.
-/

namespace FilterClause.Json

/-- The characters that may stand between the tokens of a text. -/
def isSpace (c : Char) : Bool := c = ' ' || c = '\n' || c = '\r' || c = '\t'

def skipSpace (s : List Char) : List Char := s.dropWhile isSpace

def expect : List Char → List Char → Except Fault (List Char)
  | [], s => .ok s
  | _ :: _, [] => .error .ended
  | c :: cs, d :: s => if c = d then expect cs s else .error .malformed

def scanDigits (s : List Char) : Except Fault (List Digit × List Char) :=
  match Digit.span s with
  | ([], []) => .error .ended
  | ([], _ :: _) => .error .malformed
  | r => .ok r

/-- The digits before the point, where a zero stands alone. -/
def scanWhole (s : List Char) : Except Fault (List Digit × List Char) :=
  match scanDigits s with
  | .ok (d :: e :: ds, s) => if d = Digit.zero then .error .malformed else .ok (d :: e :: ds, s)
  | r => r

def scanFraction : List Char → Except Fault (List Digit × List Char)
  | '.' :: s => scanDigits s
  | s => .ok ([], s)

def scanExponentSign : List Char → Bool × List Char
  | '-' :: s => (true, s)
  | '+' :: s => (false, s)
  | s => (false, s)

def scanExponent (s : List Char) : Except Fault (Option (Bool × List Digit) × List Char) :=
  match s with
  | 'e' :: s | 'E' :: s =>
    let (negative, s) := scanExponentSign s
    (scanDigits s).map fun r => (some (negative, r.1), r.2)
  | s => .ok (none, s)

def scanMagnitude (negative : Bool) (s : List Char) : Except Fault (Numeral × List Char) := do
  let (whole, s) ← scanWhole s
  let (fraction, s) ← scanFraction s
  let (exponent, s) ← scanExponent s
  return (⟨negative, whole, fraction, exponent⟩, s)

def scanNumeral : List Char → Except Fault (Numeral × List Char)
  | '-' :: s => scanMagnitude true s
  | s => scanMagnitude false s

/-- A character of a string, or a UTF-16 code unit given by number. -/
inductive StringUnit where
  | char (c : Char)
  | code (n : Nat)

/-- The text of a string after its opening quote: what it holds up to its end or its first fault,
and what follows the closing quote. -/
structure StringScan where
  units : List StringUnit
  fault : Option Fault
  rest : List Char

namespace StringScan

def fail (fault : Fault) : StringScan := ⟨[], some fault, []⟩

def push (unit : StringUnit) (scan : StringScan) : StringScan :=
  { scan with units := unit :: scan.units }

end StringScan

def hexValue? (c : Char) : Option Nat :=
  if c.isDigit then some (c.toNat - '0'.toNat)
  else if 'a' ≤ c ∧ c ≤ 'f' then some (c.toNat - 'a'.toNat + 10)
  else if 'A' ≤ c ∧ c ≤ 'F' then some (c.toNat - 'A'.toNat + 10)
  else none

/-- Hexadecimal digits are read as they are written, with letters of either case. -/
theorem hexValue?_hexChar {letter : Char} (hletter : letter = 'a' ∨ letter = 'A') {n : Nat}
    (hn : n < 16) : hexValue? (Digit.hexChar letter n) = some n := by
  have hlower : ∀ k : Fin 16, hexValue? (Digit.hexChar 'a' k.val) = some k.val := by decide
  have hupper : ∀ k : Fin 16, hexValue? (Digit.hexChar 'A' k.val) = some k.val := by decide
  rcases hletter with rfl | rfl
  · exact hlower ⟨n, hn⟩
  · exact hupper ⟨n, hn⟩

def hexCode? (a b c d : Char) : Option Nat := do
  let a ← hexValue? a
  let b ← hexValue? b
  let c ← hexValue? c
  let d ← hexValue? d
  return ((a * 16 + b) * 16 + c) * 16 + d

/-- The character that an escape with one letter denotes. -/
def unescape? : Char → Option Char
  | '"' => some '"'
  | '\\' => some '\\'
  | '/' => some '/'
  | 'b' => some '\x08'
  | 'f' => some '\x0c'
  | 'n' => some '\n'
  | 'r' => some '\r'
  | 't' => some '\t'
  | _ => none

def byteLength (s : List Char) : Nat := s.foldr (fun c n => c.utf8Size + n) 0

/-- Why fewer than four characters are no code unit: the text counts as ended only if it has fewer
than four bytes left. -/
def shortCodeFault (s : List Char) : Fault :=
  if byteLength s < 4 then .ended else .malformed

def scanString : List Char → StringScan
  | [] => .fail .ended
  | '"' :: s => ⟨[], none, s⟩
  | ['\\'] => .fail .ended
  | '\\' :: 'u' :: a :: b :: c :: d :: s =>
    match hexCode? a b c d with
    | some n => (scanString s).push (.code n)
    | none => .fail .malformed
  | '\\' :: 'u' :: s => .fail (shortCodeFault s)
  | '\\' :: c :: s =>
    match unescape? c with
    | some c => (scanString s).push (.char c)
    | none => .fail .malformed
  | c :: s => if c.toNat < 0x20 then .fail .malformed else (scanString s).push (.char c)

/-- The first half of a surrogate pair. -/
def isLead (n : Nat) : Bool := decide (0xD800 ≤ n ∧ n < 0xDC00)

/-- The second half of a surrogate pair. -/
def isTrail (n : Nat) : Bool := decide (0xDC00 ≤ n ∧ n < 0xE000)

def pairCode (lead trail : Nat) : Nat := 0x10000 + (lead - 0xD800) * 0x400 + (trail - 0xDC00)

/-- The characters of a string. A half of a surrogate pair without the other half is malformed,
unless the text ends just there. -/
def decodeUnits (fault : Option Fault) : List StringUnit → Except Fault (List Char)
  | [] => match fault with
    | none => .ok []
    | some fault => .error fault
  | .char c :: units => (decodeUnits fault units).map (c :: ·)
  | .code n :: units =>
    if isLead n then
      match units with
      | .code m :: units =>
        if isTrail m then (decodeUnits fault units).map (Char.ofNat (pairCode n m) :: ·)
        else .error .malformed
      | .char _ :: _ => .error .malformed
      | [] => .error (fault.getD .malformed)
    else if isTrail n then .error .malformed
    else (decodeUnits fault units).map (Char.ofNat n :: ·)

namespace StringScan

def content (scan : StringScan) : Except Fault String :=
  (decodeUnits scan.fault scan.units).map String.ofList

def document (scan : StringScan) : Document := .string scan.content scan.fault

end StringScan

/-- A document and what follows it in the text, which counts only if the document has no fault. -/
structure Scan where
  document : Document
  rest : List Char

/-- The parts of an array or an object, the fault that cut them off, and what follows. -/
structure PartsScan (α : Type) where
  parts : List α
  fault : Option Fault
  rest : List Char

namespace PartsScan

def push {α : Type} (part : α) (scan : PartsScan α) : PartsScan α :=
  { scan with parts := part :: scan.parts }

end PartsScan

def scanWord (word : Word) (letters : List Char) (s : List Char) : Scan :=
  match expect letters s with
  | .ok s => ⟨.word word none, s⟩
  | .error fault => ⟨.word word (some fault), []⟩

/-- The parts that follow in an array or an object closed by `close`: after each one a comma, which
promises another part, or the closing character. The fuel bounds their number. -/
def scanParts {α : Type} (close : Char) (part : List Char → α × Option Fault × List Char) :
    Nat → List Char → PartsScan α
  | 0, _ => ⟨[], some .ended, []⟩
  | fuel + 1, s =>
    let (value, fault, s) := part s
    match fault with
    | some fault => ⟨[value], some fault, []⟩
    | none =>
      match skipSpace s with
      | [] => ⟨[value], some .ended, []⟩
      | c :: s =>
        if c = ',' then (scanParts close part fuel s).push value
        else if c = close then ⟨[value], none, s⟩
        else ⟨[value], some .malformed, []⟩

/-- All parts of an array or an object, after its opening character. -/
def scanContainer {α : Type} (close : Char) (part : List Char → α × Option Fault × List Char)
    (fuel : Nat) (s : List Char) : PartsScan α :=
  match skipSpace s with
  | [] => ⟨[], some .ended, []⟩
  | c :: s => if c = close then ⟨[], none, s⟩ else scanParts close part fuel (c :: s)

def scanItem (value : List Char → Scan) (s : List Char) : Document × Option Fault × List Char :=
  let scan := value s
  (scan.document, scan.document.fault, scan.rest)

def scanMember (value : List Char → Scan) (s : List Char) :
    (Except Fault String × Document) × Option Fault × List Char :=
  match skipSpace s with
  | [] => ((.error .ended, .missing), some .ended, [])
  | '"' :: s =>
    let key := scanString s
    match key.fault with
    | some fault => ((key.content, .missing), some fault, [])
    | none =>
      match skipSpace key.rest with
      | [] => ((key.content, .missing), some .ended, [])
      | c :: s =>
        if c = ':' then
          let scan := value s
          ((key.content, scan.document), scan.document.fault, scan.rest)
        else ((key.content, .stray), some .malformed, [])
  | _ :: _ => ((.error .malformed, .missing), some .malformed, [])

/-- A value, after any blanks. The fuel bounds how deep values are nested and how many parts they
have; a fuel above the length of the text always suffices. -/
def scanValue : Nat → List Char → Scan
  | 0, _ => ⟨.missing, []⟩
  | fuel + 1, s =>
    match skipSpace s with
    | [] => ⟨.missing, []⟩
    | c :: s =>
      match c with
      | 'n' => scanWord .null "ull".toList s
      | 't' => scanWord .true "rue".toList s
      | 'f' => scanWord .false "alse".toList s
      | '"' =>
        let scan := scanString s
        ⟨scan.document, scan.rest⟩
      | '[' =>
        let scan := scanContainer ']' (scanItem (scanValue fuel)) (fuel + 1) s
        ⟨.array scan.parts scan.fault, scan.rest⟩
      | '{' =>
        let scan := scanContainer '}' (scanMember (scanValue fuel)) (fuel + 1) s
        ⟨.object scan.parts scan.fault, scan.rest⟩
      | c =>
        if c = '-' ∨ c.isDigit then
          match scanNumeral (c :: s) with
          | .ok (numeral, s) => ⟨.number (.ok numeral), s⟩
          | .error fault => ⟨.number (.error fault), []⟩
        else ⟨.stray, []⟩

/-- The document that a text begins with, and what follows it. -/
def scanText (s : List Char) : Scan := scanValue (s.length + 1) s

end FilterClause.Json
