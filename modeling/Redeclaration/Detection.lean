import Redeclaration.Candidate
import Redeclaration.Collision
import Redeclaration.Declaration.Scan
import Redeclaration.Exclusion
import Redeclaration.Settings
import Redeclaration.Token.Lexer

/-!
A run over all scan paths. Each candidate is excluded, fails or is analysed, in
their order. A failure ends a strict run; otherwise the file counts as excluded.
Whatever happens is noted in a log.
-/

namespace Redeclaration

/-- What the log of a run notes. -/
inductive Event where
  | settingsLoaded
  | declared (d : Declaration)
  | analysed (path : String) (declarations : Nat)
  | excluded (path : String)
  | skipped (e : FileError)
deriving DecidableEq, Repr

/-- How much a log has to tell for an event to be in it. -/
inductive Level where
  | warn
  | debug
  | trace
deriving DecidableEq, Repr

namespace Event

def level : Event → Level
  | skipped _ => .warn
  | settingsLoaded | analysed _ _ | excluded _ => .debug
  | declared _ => .trace

def message : Event → String
  | settingsLoaded => "configuration loaded"
  | declared _ => "declaration"
  | analysed _ _ => "analysed"
  | excluded _ => "excluded"
  | skipped e => "skipping file: " ++ e.message

end Event

/-- The declarations of a file. -/
def declarationsInFile (d : Disk) (path : String) :
    Except FileError (List Declaration) := do
  let bytes ← (d.read path).mapError (FileError.unreadable path)
  let ts ← (tokenize (Text.decodeLossy bytes)).mapError (FileError.unparsable path)
  return declarationsIn ts

/-- What becomes of a candidate. -/
inductive Verdict where
  | excluded (path : String)
  | failed (e : FileError)
  | analysed (path : String) (ds : List Declaration)
deriving DecidableEq, Repr

/-- The verdict on a candidate. An excluded file is not read. -/
def Verdict.of (d : Disk) (s : Settings) : Candidate → Verdict
  | .error e => .failed e
  | .ok path =>
    if isExcluded s.excludePaths path then .excluded path
    else
      match declarationsInFile d path with
      | .error e => .failed e
      | .ok ds => .analysed path ds

/-- What a run has found so far. -/
structure Tally where
  analysed : Nat := 0
  excluded : Nat := 0
  sightings : List Sighting := []
deriving DecidableEq, Repr

/-- The result of a run. -/
structure Findings where
  filesAnalysed : Nat
  filesExcluded : Nat
  collisions : List Collision
deriving DecidableEq, Repr

def Findings.hasCollisions (f : Findings) : Bool :=
  !f.collisions.isEmpty

def Tally.findings (tally : Tally) : Findings :=
  ⟨tally.analysed, tally.excluded, collisions tally.sightings⟩

/-- The end of a run and its log. -/
structure Run where
  outcome : Except FileError Findings
  log : List Event

namespace Run

/-- Puts events in front of a log. -/
def after (events : List Event) (r : Run) : Run :=
  { r with log := events ++ r.log }

/-- Goes on with the remaining candidates. -/
def resume (d : Disk) (s : Settings) (tally : Tally) :
    List Candidate → Run
  | [] => ⟨.ok tally.findings, []⟩
  | c :: cs =>
    match Verdict.of d s c with
    | .excluded path =>
      (resume d s { tally with excluded := tally.excluded + 1 } cs).after [.excluded path]
    | .failed e =>
      if s.ignoreParseFailures then
        (resume d s { tally with excluded := tally.excluded + 1 } cs).after [.skipped e]
      else ⟨.error e, []⟩
    | .analysed path ds =>
      let seen := Sighting.ofFile (Path.shown s.baseDirectory path) ds
      (resume d s
        { tally with
          analysed := tally.analysed + 1
          sightings := seen ++ tally.sightings } cs).after
        (ds.map .declared ++ [.analysed path ds.length])

end Run

/-- The candidates of all scan paths. -/
def candidates (d : Disk) (s : Settings) : List Candidate :=
  s.scanPaths.flatMap (Candidate.ofRoot d s.fileExtensions)

/-- Looks for collisions in all files of the scan paths. -/
def detect (d : Disk) (s : Settings) : Run :=
  Run.resume d s {} (candidates d s)

end Redeclaration
