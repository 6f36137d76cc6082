import NodeQuery.Command.Arguments
import NodeQuery.Host.Compression
import NodeQuery.Host.Expansion
import NodeQuery.Host.Filter
import NodeQuery.Json.Printer
import NodeQuery.Lines
import NodeQuery.Query.Evaluation
import NodeQuery.Settings.Loading

/-!
# Running commands

A command line runs against what surrounds it, and the outcome is what it prints and its exit code:
0 for success, 1 for an error or no match, 2 for a wrong command line.
-/
namespace NodeQuery.Command

/-- What a command can see: the entries of folders, its input if that is text, the settings file
that the environment names, and the folder for settings of all programs. -/
structure Surroundings where
  lookup : String → Option Entry
  input : Option String
  settingsFile : Option String
  home : String

structure Outcome where
  code : UInt8
  output : String
  errors : String
  deriving DecidableEq, Repr

inductive Error where
  | pattern (error : Host.PatternError)
  | query (error : Query.QueryError)
  | settings (error : SettingsError)
  | unreadable (source : String)
  | malformedRecords
  deriving DecidableEq, Repr

def Error.message : Error → String
  | .pattern error => error.message
  | .query error => error.message
  | .settings error => error.message
  | .unreadable source => s!"IO error: cannot read {source}"
  | .malformedRecords => "JSON error: the records are malformed"

/-- What is printed before an error, and the error itself if there is one. -/
structure Report where
  output : String
  error : Option Error

namespace Report

def ok (output : String) : Report := ⟨output, none⟩

/-- An error before anything is printed, or else a text. -/
def ofExcept : Except Error String → Report
  | .ok output => ok output
  | .error e => ⟨"", some e⟩

def outcome (r : Report) : Outcome :=
  match r.error with
  | none => ⟨0, r.output, ""⟩
  | some e => ⟨1, r.output, s!"Error: {e.message}\n"⟩

end Report

/-- Every text on a line of its own. -/
def lines (texts : List String) : String := String.join (texts.map (· ++ "\n"))

def liftPattern (r : Except Host.PatternError α) : Except Error α := r.mapError .pattern

/-- The vocabulary of the settings that apply. -/
def vocabulary (around : Surroundings) (invocation : Invocation) :
    Except Error Query.Vocabulary :=
  Except.mapError .settings do
    let settings ← Settings.load around.lookup invocation.settingsFile around.settingsFile
      around.home
    Settings.vocabulary { settings with catalog := settings.catalog && !invocation.withoutCatalog }

def compileQuery (around : Surroundings) (invocation : Invocation) (query : String) :
    Except Error Query.Expr := do
  let v ← vocabulary around invocation
  (Query.compile v query).mapError .query

/-- The text of a file, or the input if none is named. -/
def readInput (around : Surroundings) : Option String → Except Error String
  | none =>
    match around.input with
    | some text => .ok text
    | none => .error (.unreadable "the input")
  | some path =>
    match around.lookup path with
    | some (.file text) => .ok text
    | _ => .error (.unreadable path)

/-- The selected records in the given format: all but the bits walk through the selection. -/
def renderSelection (format : Format) (records : Array Json) (selected : RowSet) : String :=
  let rows := selected.walk.filterMap fun index => records[index]?
  match format with
  | .json => Json.render 0 (.array rows) ++ "\n"
  | .hosts => lines (rows.filterMap Record.hostName?)
  | .indices => lines (selected.walk.map toString)
  | .bits => selected.bitText ++ "\n"

def select (around : Surroundings) (invocation : Invocation) (query : String)
    (file : Option String) (format : Format) : Except Error String := do
  let e ← compileQuery around invocation query
  let text ← readInput around file
  match readRecords text with
  | none => throw .malformedRecords
  | some records =>
    let records := records.toArray
    return renderSelection format records (e.select records)

/-- The names that patterns denote, up to the first pattern that cannot be expanded. -/
def expandAll : List String → Report
  | [] => .ok ""
  | pattern :: rest =>
    match Host.expand pattern with
    | .error e => ⟨"", some (.pattern e)⟩
    | .ok names =>
      let report := expandAll rest
      { report with output := lines names ++ report.output }

def fieldLine (v : Query.Vocabulary) : String × Query.FieldEntry → String
  | (name, .canonical) => s!"  {name}"
  | (name, .alias target) =>
    match v.resolveField? name with
    | some field =>
      if field = target then s!"  {name} -> {target}" else s!"  {name} -> {target} ({field})"
    | none => s!"  {name} -> {target}"

/-- A name filled up to 14 characters, and the expression. -/
def operationLine : String × Query.Expr → String
  | (name, e) =>
    "  " ++ name ++ String.ofList (List.replicate (14 - name.length) ' ') ++ " " ++ e.render

def renderVocabulary (v : Query.Vocabulary) : String :=
  if v.isEmpty then "No fields or operations defined\n"
  else
    lines ("Fields:" :: v.fields.entries.map (fieldLine v)) ++ "\n" ++
      lines ("Operations:" :: v.operations.entries.map operationLine)

def compress (around : Surroundings) (file : Option String) : Except Error String := do
  let patterns := Host.compress (readHostNames (← readInput around file))
  return if patterns.isEmpty then "" else String.intercalate "," patterns ++ "\n"

/-- The hosts that the patterns accept; if there are none, that is no success. -/
def matchHosts (patterns : String) (hosts : List String) (leading : Bool) : Outcome :=
  match (Host.Filter.empty (if leading then .leading else .whole)).insertList patterns with
  | (_, .error e) => Report.outcome ⟨"", some (.pattern e)⟩
  | (filter, .ok ()) =>
    let accepted := hosts.filter filter.accepts
    ⟨if accepted.isEmpty then 1 else 0, lines accepted, ""⟩

def perform (around : Surroundings) (invocation : Invocation) : Outcome :=
  match invocation.action with
  | .select query file format =>
    (Report.ofExcept (select around invocation query file format)).outcome
  | .check query =>
    (Report.ofExcept ((compileQuery around invocation query).map fun e => e.render ++ "\n")).outcome
  | .split patterns =>
    (Report.ofExcept ((liftPattern (Host.splitPatterns patterns)).map lines)).outcome
  | .matchHosts patterns hosts leading => matchHosts patterns hosts leading
  | .expand patterns =>
    match Host.splitPatterns patterns with
    | .error e => Report.outcome ⟨"", some (.pattern e)⟩
    | .ok patterns => (expandAll patterns).outcome
  | .compress file => (Report.ofExcept (compress around file)).outcome
  | .fields => (Report.ofExcept ((vocabulary around invocation).map renderVocabulary)).outcome

def usageText : String :=
  lines ["Usage: nsq [--config FILE] [--no-catalog] [--log-level LEVEL] COMMAND",
    "Commands:",
    "  select QUERY [FILE] [-f json|hosts|indices|bits]",
    "  check QUERY",
    "  split PATTERNS",
    "  match PATTERNS HOST... [-p]",
    "  expand PATTERNS",
    "  compress [FILE]",
    "  fields"]

/-- The outcome of a command line that asks for no action. -/
def Refusal.outcome : Refusal → Outcome
  | .usage => ⟨2, "", usageText⟩
  | .help => ⟨0, usageText, ""⟩
  | .version => ⟨0, "nsq 0.1.0\n", ""⟩

def run (around : Surroundings) (arguments : List String) : Outcome :=
  match readInvocation arguments with
  | .error refusal => refusal.outcome
  | .ok invocation => perform around invocation

end NodeQuery.Command
