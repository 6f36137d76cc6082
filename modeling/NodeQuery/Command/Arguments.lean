/-!
# Command line arguments

A command line is a row of options with a command among them, and the command has options and
operands of its own. Options begin with dashes; `--` ends them; a single dash is an operand. A value
follows its option as the next argument, unless that begins with a dash, or behind `=`; the value of
a short option can also be written right behind its letter.
-/
namespace NodeQuery.Command

/-- How selected records are printed. -/
inductive Format where
  | json | hosts | indices | bits
  deriving DecidableEq, Repr

inductive Action where
  | select (query : String) (file : Option String) (format : Format)
  | check (query : String)
  | split (patterns : String)
  | matchHosts (patterns : String) (hosts : List String) (leading : Bool)
  | expand (patterns : String)
  | compress (file : Option String)
  | fields
  deriving DecidableEq, Repr

/-- What a command line asks for: the action, the settings file, and whether to leave the catalog
out. -/
structure Invocation where
  action : Action
  settingsFile : Option String
  withoutCatalog : Bool
  deriving DecidableEq, Repr

/-- A command line can be wrong, or ask for help or the version instead of an action. -/
inductive Refusal where
  | usage | help | version
  deriving DecidableEq, Repr

inductive Switch where
  | settingsFile | withoutCatalog | logLevel | format | leading | help | version
  deriving DecidableEq, Repr

namespace Switch

def takesValue : Switch → Bool
  | .settingsFile | .logLevel | .format => true
  | .withoutCatalog | .leading | .help | .version => false

def formats : List (String × Format) :=
  [("json", .json), ("hosts", .hosts), ("indices", .indices), ("bits", .bits)]

/-- Whether a value can be given to the option. -/
def allows (value : String) : Switch → Bool
  | .settingsFile => value != ""
  | .logLevel => ["error", "warn", "info", "debug", "trace"].contains value
  | .format => (formats.lookup value).isSome
  | .withoutCatalog | .leading | .help | .version => true

end Switch

/-- The names by which options are known in one part of a command line, how many operands there
may be, unless any number of them, and which of them names a file, counted from zero. -/
structure Dialect where
  long : List (String × Switch)
  short : List (Char × Switch)
  operands : Option Nat
  file : Option Nat

namespace Dialect

/-- The options that stand in front of the command as well as behind it. -/
def everywhere (operands file : Option Nat) : Dialect :=
  { long := [("config", .settingsFile), ("no-catalog", .withoutCatalog),
      ("log-level", .logLevel), ("help", .help)]
    short := [('h', .help)]
    operands
    file }

def add (d : Dialect) (long : String) (short : Char) (s : Switch) : Dialect :=
  { d with long := (long, s) :: d.long, short := (short, s) :: d.short }

def front : Dialect := (everywhere (some 0) none).add "version" 'V' .version

/-- Whether an operand can follow as many as there are. A file has to have a name. -/
def allows (d : Dialect) (count : Nat) (operand : String) : Bool :=
  d.operands.all (count < ·) && (d.file != some count || operand != "")

/-- What a command knows; nothing for other words. -/
def ofCommand? (command : String) : Option Dialect :=
  if command = "select" || command = "s" then
    some ((everywhere (some 2) (some 1)).add "format" 'f' .format)
  else if command = "match" then some ((everywhere none none).add "prefix" 'p' .leading)
  else if command = "fields" then some (everywhere (some 0) none)
  else if command = "compress" then some (everywhere (some 1) (some 0))
  else if ["check", "split", "expand"].contains command then some (everywhere (some 1) none)
  else none

end Dialect

/-- The options, each with its value, and the operands that have been read. -/
structure Given where
  switches : List (Switch × String)
  operands : List String

namespace Given

def empty : Given := ⟨[], []⟩

/-- Adds an option, which must be new here. Help and version take effect at once. -/
def add (g : Given) (s : Switch) (value : String) : Except Refusal Given :=
  match s with
  | .help => .error .help
  | .version => .error .version
  | _ =>
    if (g.switches.lookup s).isSome || !s.allows value then .error .usage
    else .ok { g with switches := (s, value) :: g.switches }

/-- Adds an operand that the part of the command line has room for. -/
def addOperand (d : Dialect) (g : Given) (operand : String) : Except Refusal Given :=
  if d.allows g.operands.length operand then
    .ok { g with operands := g.operands ++ [operand] }
  else .error .usage

def has (g : Given) (s : Switch) : Bool := (g.switches.lookup s).isSome

def value? (g : Given) (s : Switch) : Option String := g.switches.lookup s

end Given

/-- Reads an option by its long name, with the value behind `=` if there is one. An option that
still waits for its value is returned along. -/
def readLong (d : Dialect) (g : Given) (text : List Char) :
    Except Refusal (Given × Option Switch) :=
  let name := String.ofList (text.takeWhile (· != '='))
  match d.long.lookup name, text.dropWhile (· != '=') with
  | none, _ => .error .usage
  | some s, [] => if s.takesValue then .ok (g, some s) else (g.add s "").map (·, none)
  | some s, _ :: value =>
    if s.takesValue then (g.add s (String.ofList value)).map (·, none) else .error .usage

/-- Reads options by their letters; the first that takes a value takes the other letters for it. -/
def readShort (d : Dialect) (g : Given) : List Char → Except Refusal (Given × Option Switch)
  | [] => .ok (g, none)
  | c :: rest =>
    match d.short.lookup c with
    | none => .error .usage
    | some s =>
      if s.takesValue then
        match rest with
        | [] => .ok (g, some s)
        | '=' :: value => (g.add s (String.ofList value)).map (·, none)
        | value => (g.add s (String.ofList value)).map (·, none)
      else
        match g.add s "" with
        | .error e => .error e
        | .ok g => readShort d g rest

/-- Reads arguments; `waiting` is an option whose value comes next. Each is judged before the next
one is looked at, so that help behind a wrong one is not reached. In front of the command, the
reading ends at the first operand, which names the command. -/
def readArguments (d : Dialect) (inFront : Bool) (waiting : Option Switch) (g : Given) :
    List String → Except Refusal (Given × List String)
  | [] => if waiting.isSome then .error .usage else .ok (g, [])
  | argument :: rest =>
    match argument.toList, waiting with
    | ['-', '-'], none =>
      if inFront then .error .usage else (rest.foldlM (Given.addOperand d) g).map (·, [])
    | '-' :: '-' :: text, none =>
      match readLong d g text with
      | .error e => .error e
      | .ok (g, waiting) => readArguments d inFront waiting g rest
    | '-' :: c :: text, none =>
      match readShort d g (c :: text) with
      | .error e => .error e
      | .ok (g, waiting) => readArguments d inFront waiting g rest
    | '-' :: _ :: _, some _ => .error .usage
    | _, some s =>
      match g.add s argument with
      | .error e => .error e
      | .ok g => readArguments d inFront none g rest
    | _, none =>
      if inFront then .ok (g, argument :: rest)
      else match Given.addOperand d g argument with
        | .error e => .error e
        | .ok g => readArguments d inFront none g rest

/-- The action of a command with its options and operands. -/
def action (command : String) (g : Given) : Except Refusal Action :=
  let format := ((g.value? .format).bind fun name => Switch.formats.lookup name).getD .json
  match command, g.operands with
  | "check", [query] => .ok (.check query)
  | "split", [patterns] => .ok (.split patterns)
  | "match", patterns :: host :: hosts =>
    .ok (.matchHosts patterns (host :: hosts) (g.has .leading))
  | "expand", [patterns] => .ok (.expand patterns)
  | "compress", [] => .ok (.compress none)
  | "compress", [file] => .ok (.compress (some file))
  | "fields", [] => .ok .fields
  | command, [query] =>
    if command = "select" || command = "s" then .ok (.select query none format)
    else .error .usage
  | command, [query, file] =>
    if command = "select" || command = "s" then .ok (.select query (some file) format)
    else .error .usage
  | _, _ => .error .usage

/-- What `help` answers: there is help on everything, on each command, and on `help`. -/
def helpOn : List String → Refusal
  | [] | ["help"] => .help
  | [command] => if (Dialect.ofCommand? command).isSome then .help else .usage
  | _ => .usage

/-- Reads a command line. Of an option that stands both in front of the command and behind it, the
value behind it counts. -/
def readInvocation (arguments : List String) : Except Refusal Invocation :=
  match readArguments .front true none .empty arguments with
  | .error e => .error e
  | .ok (_, []) => .error .usage
  | .ok (front, command :: rest) =>
    if command = "help" then .error (helpOn rest)
    else match Dialect.ofCommand? command with
      | none => .error .usage
      | some d =>
        match readArguments d false none .empty rest with
        | .error e => .error e
        | .ok (given, _) =>
          (action command given).map fun action =>
            { action
              settingsFile := (given.value? .settingsFile).or (front.value? .settingsFile)
              withoutCatalog := given.has .withoutCatalog || front.has .withoutCatalog }

end NodeQuery.Command
