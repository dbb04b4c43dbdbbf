import FilterClause.CommandLine.Arguments
import FilterClause.Expression.Json

/-!
# Runs of the program

A run reads query options from a text, builds the clause with fresh parameters and prints the
clause, the values bound and, if asked to, what each placeholder stands for. With column mappings
only mapped properties have columns; without any, plain identifiers stand for themselves.
-/

namespace FilterClause.CommandLine

inductive LogLevel where
  | debug
  | info
  | warn
  deriving DecidableEq, Repr

namespace LogLevel

def label : LogLevel → String
  | debug => "DEBUG"
  | info => "INFO"
  | warn => "WARN"

end LogLevel

/-- A line of the log: a message and named values. -/
structure LogEntry where
  level : LogLevel
  message : String
  values : List (String × String)

namespace LogEntry

def text (e : LogEntry) : String :=
  e.level.label ++ " " ++ e.message ++
    String.join (e.values.map fun (name, value) => " " ++ name ++ "=" ++ value)

def loaded (o : QueryOptions) : LogEntry :=
  ⟨.debug, "loaded query options", [("has_filter", if o.filter.isSome then "true" else "false")]⟩

def mapped (m : ColumnMap) : LogEntry :=
  ⟨.debug, "using explicit column map", [("mapped", toString m.size)]⟩

def ofEvent : ClauseEvent → LogEntry
  | .omitted keyword => ⟨.debug, "no filter, omitting clause", [("keyword", keyword)]⟩
  | .built sql bound => ⟨.debug, "built filter clause", [("sql", sql), ("params", toString bound)]⟩
  | .failed keyword error =>
    ⟨.warn, "failed to translate filter", [("keyword", keyword), ("error", error.message)]⟩

def noFilter : LogEntry := ⟨.info, "No filter given, clause omitted.", []⟩

end LogEntry

inductive Source where
  | standardInput
  | file (path : String)
  deriving DecidableEq, Repr

inductive Failure where
  | unreadable (source : Source)
  | invalidOptions
  | unsupported (error : EmissionError)

namespace Failure

def message : Failure → String
  | unreadable .standardInput => "failed to read stdin"
  | unreadable (.file path) => "failed to read " ++ path
  | invalidOptions => "input is not valid query options JSON"
  | unsupported _ => "unsupported query expression"

/-- What lies behind the failure, if it is of this program's making. -/
def cause? : Failure → Option EmissionError
  | unsupported error => some error
  | _ => none

end Failure

/-- What a run prints and logs, and whether it fails. -/
structure Report where
  output : Except Failure String
  log : List LogEntry

namespace Report

def stdout (r : Report) : String :=
  match r.output with
  | .ok text => text
  | .error _ => ""

def exitCode (r : Report) : UInt8 :=
  match r.output with
  | .ok _ => 0
  | .error _ => 1

end Report

namespace Settings

/-- The file that is named, unless its name is a single hyphen. -/
def source (s : Settings) : Source :=
  match s.input with
  | none => .standardInput
  | some path => if path = "-" then .standardInput else .file path

/-- The columns of properties, and the map behind them if there are mappings. -/
def columns? (s : Settings) : Option ColumnMap :=
  if s.columns.isEmpty then none else some (ColumnMap.ofList s.columns)

def clause (s : Settings) (o : QueryOptions) : Clause Unit where
  keyword := s.keyword
  options := o
  resolve := Resolver.ofFunction <|
    match s.columns? with
    | some m => m.column?
    | none => Property.plainColumn?

/-- The text printed for a clause and its parameters. -/
def printed (s : Settings) (sql : String) (p : Parameters) : String :=
  sql ++ "\n" ++ p.toJson.compact ++ "\n" ++
    if s.explain then String.join (p.explanations.map fun line => "-- " ++ line ++ "\n") else ""

/-- The entries that are shown: those for diagnosis only if asked for. -/
def shown (s : Settings) (log : List LogEntry) : List LogEntry :=
  log.filter fun e => s.verbose || e.level != .debug

def runOptions (s : Settings) (o : QueryOptions) : Report :=
  let start := Parameters.empty s.placeholder
  let clause := s.clause o
  let built := clause.build () start
  let log := LogEntry.loaded o :: (s.columns?.map LogEntry.mapped).toList ++
    [LogEntry.ofEvent (clause.event start built)]
  match built.result with
  | .ok sql =>
    { output := .ok (s.printed sql built.parameters)
      log := s.shown (if sql.isEmpty then log ++ [LogEntry.noFilter] else log) }
  | .error error => { output := .error (.unsupported error), log := s.shown log }

def runText (s : Settings) (text : String) : Report :=
  match Json.readText QueryOptions.read text with
  | .ok o => s.runOptions o
  | .error _ => { output := .error .invalidOptions, log := [] }

/-- A run on the bytes of its source, if they could be had. -/
def run (s : Settings) (content : Option ByteArray) : Report :=
  match content.bind String.fromUTF8? with
  | some text => s.runText text
  | none => { output := .error (.unreadable s.source), log := [] }

end Settings

def versionText : String := "filter-sql 0.1.0\n"

def helpText : String :=
  "Usage: filter-sql [OPTIONS] [INPUT]\n\n" ++
  "  [INPUT]                    query options in JSON (standard input if omitted or -)\n" ++
  "  -k, --keyword <KEYWORD>    keyword of the clause [default: where]\n" ++
  "  -p, --placeholder <STYLE>  at-p, question or dollar [default: at-p]\n" ++
  "  -c, --column <MAPPING>     PROPERTY=COLUMN; properties that are not mapped are refused\n" ++
  "      --explain              print what each placeholder stands for\n" ++
  "  -v, --verbose              log what is done\n" ++
  "  -h, --help                 print this text\n" ++
  "  -V, --version              print the version\n"

end FilterClause.CommandLine
