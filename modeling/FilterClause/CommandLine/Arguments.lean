import FilterClause.Parameters

/-!
# Command-line arguments

Arguments are taken from left to right. The value of an option or a file name is settled (checked
and stored) only when the next argument has been recognised or the arguments end; an argument that
is refused by itself is therefore reported before a bad value in front of it.
-/

namespace FilterClause.CommandLine

structure Settings where
  input : Option String
  keyword : String
  placeholder : PlaceholderStyle
  columns : List (String × String)
  explain : Bool
  verbose : Bool

inductive Invocation where
  | help
  | version
  | run (settings : Settings)

inductive UsageError where
  | unknown (argument : String)
  | missingValue (option : String)
  | unexpectedValue (option : String)
  | repeated (option : String)
  | placeholder (value : String)
  | mapping (value : String)
  | emptyInput
  | extraInput (argument : String)

namespace UsageError

def message : UsageError → String
  | unknown argument => "unexpected argument '" ++ argument ++ "'"
  | missingValue option => "a value is required for '--" ++ option ++ "'"
  | unexpectedValue option => "no value is expected for '--" ++ option ++ "'"
  | repeated option => "the argument '--" ++ option ++ "' cannot be used multiple times"
  | placeholder value => "invalid placeholder style '" ++ value ++ "'"
  | mapping value => "expected PROPERTY=COLUMN, got `" ++ value ++ "`"
  | emptyInput => "the input file has no name"
  | extraInput argument => "unexpected argument '" ++ argument ++ "'"

end UsageError

def splitFirst (mark : Char) : List Char → Option (List Char × List Char)
  | [] => none
  | c :: s =>
    if c = mark then some ([], s) else (splitFirst mark s).map fun r => (c :: r.1, r.2)

/-- A property and a column around the first equals sign, neither of them empty. -/
def parseMapping? (spec : String) : Option (String × String) :=
  match splitFirst '=' spec.toList with
  | some (property, column) =>
    if property.isEmpty || column.isEmpty then none
    else some (String.ofList property, String.ofList column)
  | none => none

def parsePlaceholder? : String → Option PlaceholderStyle
  | "at-p" => some .atP
  | "question" => some .question
  | "dollar" => some .dollar
  | _ => none

/-- The options that take a value. -/
inductive ValueOption where
  | keyword
  | placeholder
  | column
  deriving DecidableEq

/-- The options that take none. -/
inductive Flag where
  | explain
  | verbose
  | version
  | help
  deriving DecidableEq

inductive OptionKind where
  | valued (option : ValueOption)
  | flag (flag : Flag)

namespace ValueOption

def name : ValueOption → String
  | keyword => "keyword"
  | placeholder => "placeholder"
  | column => "column"

end ValueOption

namespace Flag

def name : Flag → String
  | explain => "explain"
  | verbose => "verbose"
  | version => "version"
  | help => "help"

end Flag

namespace OptionKind

def ofLong? : String → Option OptionKind
  | "keyword" => some (valued .keyword)
  | "placeholder" => some (valued .placeholder)
  | "column" => some (valued .column)
  | "explain" => some (flag .explain)
  | "verbose" => some (flag .verbose)
  | "version" => some (flag .version)
  | "help" => some (flag .help)
  | _ => none

def ofShort? : Char → Option OptionKind
  | 'k' => some (valued .keyword)
  | 'p' => some (valued .placeholder)
  | 'c' => some (valued .column)
  | 'v' => some (flag .verbose)
  | 'V' => some (flag .version)
  | 'h' => some (flag .help)
  | _ => none

end OptionKind

structure Draft where
  input : Option String
  keyword : Option String
  placeholder : Option PlaceholderStyle
  columns : List (String × String)
  explain : Bool
  verbose : Bool

namespace Draft

def empty : Draft := ⟨none, none, none, [], false, false⟩

def setValue (d : Draft) : ValueOption → String → Except UsageError Draft
  | .keyword, value =>
    if d.keyword.isSome then .error (.repeated "keyword") else .ok { d with keyword := some value }
  | .placeholder, value =>
    if d.placeholder.isSome then .error (.repeated "placeholder")
    else
      match parsePlaceholder? value with
      | some style => .ok { d with placeholder := some style }
      | none => .error (.placeholder value)
  | .column, value =>
    match parseMapping? value with
    | some mapping => .ok { d with columns := d.columns ++ [mapping] }
    | none => .error (.mapping value)

def setInput (d : Draft) (value : String) : Except UsageError Draft :=
  if value.isEmpty then .error .emptyInput else .ok { d with input := some value }

/-- The settings, with a style from the environment unless there is one, and the defaults. -/
def finish (d : Draft) (environment : Option String) : Except UsageError Settings := do
  let d ←
    match d.placeholder, environment with
    | none, some value => d.setValue .placeholder value
    | _, _ => pure d
  return {
    input := d.input
    keyword := d.keyword.getD "where"
    placeholder := d.placeholder.getD .atP
    columns := d.columns
    explain := d.explain
    verbose := d.verbose }

end Draft

/-- What the argument before has left to be settled. -/
inductive Pending where
  | nothing
  /-- An option that waits for its value. -/
  | awaiting (option : ValueOption)
  | value (option : ValueOption) (value : String)
  | input (value : String)

/-- How far the arguments have been taken. -/
structure Progress where
  draft : Draft
  pending : Pending
  /-- A file name has been met, settled or not. -/
  hasInput : Bool
  /-- Everything that follows is a file name. -/
  trailing : Bool

/-- What an argument leads to: the next one, or an answer at once. -/
inductive Advance where
  | proceed (progress : Progress)
  | answer (invocation : Invocation)

namespace Progress

def start : Progress := ⟨Draft.empty, .nothing, false, false⟩

def settle (p : Progress) : Except UsageError Progress := do
  let draft ←
    match p.pending with
    | .nothing => pure p.draft
    | .awaiting option => .error (.missingValue option.name)
    | .value option value => p.draft.setValue option value
    | .input value => p.draft.setInput value
  return { p with draft := draft, pending := .nothing }

def takeValued (p : Progress) (option : ValueOption) (attached : Option String) :
    Except UsageError Progress := do
  let p ← p.settle
  match attached with
  | some value => return { p with draft := ← p.draft.setValue option value }
  | none => return { p with pending := .awaiting option }

def takeFlag (p : Progress) (flag : Flag) : Except UsageError Advance := do
  let p ← p.settle
  match flag with
  | .version => return .answer .version
  | .help => return .answer .help
  | .explain =>
    if p.draft.explain then .error (.repeated flag.name)
    else return .proceed { p with draft := { p.draft with explain := true } }
  | .verbose =>
    if p.draft.verbose then .error (.repeated flag.name)
    else return .proceed { p with draft := { p.draft with verbose := true } }

/-- An argument that starts with two hyphens, without them. -/
def takeLong (p : Progress) (body : List Char) : Except UsageError Advance :=
  let (name, attached) :=
    match splitFirst '=' body with
    | some (name, value) => (String.ofList name, some (String.ofList value))
    | none => (String.ofList body, none)
  match OptionKind.ofLong? name, attached with
  | some (.valued option), attached => .proceed <$> p.takeValued option attached
  | some (.flag flag), none => p.takeFlag flag
  | some (.flag flag), some _ => .error (.unexpectedValue flag.name)
  | none, _ => .error (.unknown ("--" ++ String.ofList body))

/-- The value attached to a short option: what follows the letter, perhaps after an equals sign. -/
def attachedValue : List Char → Option String
  | [] => none
  | '=' :: rest => some (String.ofList rest)
  | rest => some (String.ofList rest)

def takeShort (p : Progress) : List Char → Except UsageError Advance
  | [] => .ok (.proceed p)
  | c :: rest =>
    match OptionKind.ofShort? c with
    | some (.valued option) => .proceed <$> p.takeValued option (attachedValue rest)
    | some (.flag flag) => do
      match ← p.takeFlag flag with
      | .proceed p => p.takeShort rest
      | .answer invocation => return .answer invocation
    | none => .error (.unknown (String.ofList ['-', c]))

def takeInput (p : Progress) (argument : String) : Except UsageError Advance :=
  if p.hasInput then .error (.extraInput argument)
  else do
    let p ← p.settle
    return .proceed { p with pending := .input argument, hasInput := true }

/-- An argument that is no option: the value that an option waits for, or a file name. -/
def takePlain (p : Progress) (argument : String) : Except UsageError Advance :=
  match p.pending with
  | .awaiting option => .ok (.proceed { p with pending := .value option argument })
  | _ => p.takeInput argument

/-- The next argument. A single hyphen is no option. -/
def take (p : Progress) (argument : String) : Except UsageError Advance :=
  if p.trailing then p.takeInput argument
  else
    match argument.toList with
    | ['-', '-'] => .ok (.proceed { p with trailing := true })
    | '-' :: '-' :: body => p.takeLong body
    | ['-'] => p.takePlain argument
    | '-' :: letters => p.takeShort letters
    | _ => p.takePlain argument

def takeAll (p : Progress) (environment : Option String) :
    List String → Except UsageError Invocation
  | [] => do
    let p ← p.settle
    return .run (← p.draft.finish environment)
  | argument :: arguments => do
    match ← p.take argument with
    | .proceed p => p.takeAll environment arguments
    | .answer invocation => return invocation

end Progress

/-- What the arguments ask for; the placeholder style may also come from the environment. -/
def parse (arguments : List String) (environment : Option String) :
    Except UsageError Invocation :=
  Progress.start.takeAll environment arguments

end FilterClause.CommandLine
