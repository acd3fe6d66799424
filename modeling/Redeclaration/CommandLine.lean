import Redeclaration.Report

/-!
The command line: what its arguments ask for, and what the program does and
answers.
-/

namespace Redeclaration

structure Options where
  configuration : Option String := none
  json : Bool := false
  verbosity : Nat := 0
  paths : List String := []
deriving DecidableEq, Repr

inductive Request where
  | scan (o : Options)
  | help
  | version
  | misuse
deriving DecidableEq, Repr

namespace Options

/-- Takes up the path of a settings file. It must not be empty, and there is at
most one. -/
def configure? (o : Options) (path : String) : Option Options :=
  if path == "" || o.configuration.isSome then none
  else some { o with configuration := some path }

/-- Takes up a path to scan, which must not be empty. -/
def addPath? (o : Options) (path : String) : Option Options :=
  if path == "" then none else some { o with paths := o.paths ++ [path] }

/-- Asks for JSON, which is asked for at most once. -/
def askJson? (o : Options) : Option Options :=
  if o.json then none else some { o with json := true }

def moreVerbose (o : Options) : Options :=
  { o with verbosity := o.verbosity + 1 }

end Options

namespace Request

/-- What single letters after one dash ask for: something else than a scan, or
more options. -/
def ofLetters (o : Options) : List Char → Request ⊕ Options
  | [] => .inr o
  | 'v' :: cs => ofLetters o.moreVerbose cs
  | 'V' :: _ => .inl version
  | 'h' :: _ => .inl help
  | _ :: _ => .inl misuse

/-- Only paths are left. -/
def ofPaths (o : Options) : List String → Request
  | [] => scan o
  | arg :: args =>
    match o.addPath? arg with
    | none => misuse
    | some o => ofPaths o args

/-- Whether an argument is a dash with something after it, and hence no value. -/
def isOption (arg : String) : Bool :=
  ['-'].isPrefixOf arg.toList && arg != "-"

def configurationFlag : String := "--configuration"

/-- The value that an argument gives to the flag for a settings file. -/
def attachedValue? (arg : String) : Option String :=
  let flag := configurationFlag.toList ++ ['=']
  if flag.isPrefixOf arg.toList then some (String.ofList (arg.toList.drop flag.length)) else none

/-- Reads the arguments from the left. The first that is wrong, or asks for help
or the version, decides. -/
def ofArguments (o : Options) : List String → Request
  | [] => scan o
  | arg :: args =>
    if arg == "--" then ofPaths o args
    else if arg == configurationFlag then
      match args with
      | [] => misuse
      | value :: rest =>
        if isOption value then misuse
        else
          match o.configure? value with
          | none => misuse
          | some o => ofArguments o rest
    else if let some value := attachedValue? arg then
      match o.configure? value with
      | none => misuse
      | some o => ofArguments o args
    else if arg == "--json" then
      match o.askJson? with
      | none => misuse
      | some o => ofArguments o args
    else if arg == "--verbose" then ofArguments o.moreVerbose args
    else if arg == "--version" then version
    else if arg == "--help" then help
    else if ['-', '-'].isPrefixOf arg.toList then misuse
    else if isOption arg then
      match ofLetters o (arg.toList.drop 1) with
      | .inl request => request
      | .inr o => ofArguments o args
    else
      match o.addPath? arg with
      | none => misuse
      | some o => ofArguments o args

end Request

/-- How the program ends. -/
inductive Exit where
  | clean
  | collisions
  | misuse
  | failure
deriving DecidableEq, Repr

def Exit.code : Exit → Nat
  | clean => 0
  | collisions => 1
  | misuse => 2
  | failure => 255

/-- What the program answers: how it ends, what it writes, and what it logs. -/
structure Response where
  exit : Exit
  output : String := ""
  log : List Event := []

/-- Whether a log of this verbosity holds an event. -/
def Event.isShown (verbosity : Nat) (e : Event) : Bool :=
  match e.level with
  | .warn => true
  | .debug => 0 < verbosity
  | .trace => 1 < verbosity

namespace Options

/-- The settings file that is looked for in the working directory. -/
def defaultFile : String := "collision-detector.json"

/-- The settings file of a scan, from the working directory: the one that is
named, else the default one if there is one. -/
def file? (o : Options) (d : Disk) : Option String :=
  match o.configuration with
  | some file => some file
  | none =>
    if d.isFile (Path.join (FileTree.placeText d.directory) defaultFile) then some defaultFile
    else none

/-- The settings of a scan: of its file, or the defaults. -/
def settings (o : Options) (d : Disk) : Except SettingsError Settings :=
  let cwd := FileTree.placeText d.directory
  match o.file? d with
  | some file => Settings.ofFile d cwd o.paths file
  | none => Settings.ofDefaults d cwd o.paths

/-- The report in the form that is asked for. -/
def report (o : Options) (colour : Bool) (s : Settings) (f : Findings) : String :=
  if o.json then Report.json s.scanPaths f else Report.text colour s.scanPaths f

/-- The answer to a run with settings that are loaded. -/
def answer (o : Options) (colour : Bool) (s : Settings) (r : Run) : Response :=
  let log := (.settingsLoaded :: r.log).filter (Event.isShown o.verbosity)
  match r.outcome with
  | .error e => ⟨.failure, Report.errorText colour e.message, log⟩
  | .ok f => ⟨if f.hasCollisions then .collisions else .clean, o.report colour s f, log⟩

/-- Scans what the options ask for. -/
def scan (o : Options) (colour : Bool) (d : Disk) : Response :=
  match o.settings d with
  | .error e => ⟨.failure, Report.errorText colour e.message, []⟩
  | .ok s =>
    if s.scanPaths.isEmpty then
      ⟨.failure,
        Report.errorText colour
          "no directories provided, use e.g. `detect-collisions src tests`", []⟩
    else o.answer colour s (detect d s)

end Options

namespace Response

def versionText : String := "detect-collisions 0.3.0\n"

def helpText : String :=
  String.join ([
    "Find PHP classes, functions and constants declared more than once.",
    "",
    "Usage: detect-collisions [OPTIONS] [PATH]...",
    "",
    "Arguments:",
    "  [PATH]...  Files or directories to scan. Overrides scanPaths from the config file",
    "",
    "Options:",
    "      --configuration <FILE>  Path to config file (JSON)",
    "                              [default: collision-detector.json if present]",
    "      --json                  Emit JSON output for automation",
    "  -v, --verbose...            Log progress to stderr (-v debug, -vv trace)",
    "  -h, --help                  Print help",
    "  -V, --version               Print version"].map (· ++ "\n"))

end Response

/-- The answer of the program to its arguments. -/
def respond (colour : Bool) (d : Disk) (args : List String) : Response :=
  match Request.ofArguments {} args with
  | .misuse => ⟨.misuse, "", []⟩
  | .version => ⟨.clean, Response.versionText, []⟩
  | .help => ⟨.clean, Response.helpText, []⟩
  | .scan o => o.scan colour d

end Redeclaration
