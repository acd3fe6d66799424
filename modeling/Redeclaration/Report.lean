import Redeclaration.Detection
import Redeclaration.Json.Value

/-!
The two forms of a report: lines for a reader, and JSON for a program.
-/

namespace Redeclaration.Report

/-- How a piece of text may be set off. -/
inductive Style where
  | error
  | success
  | bold
  | cyan
deriving DecidableEq, Repr

/-- The codes by which a terminal changes to a style. -/
def Style.codes : Style → String
  | error => "\x1b[31m\x1b[1m"
  | success => "\x1b[32m\x1b[1m"
  | bold => "\x1b[1m"
  | cyan => "\x1b[36m"

/-- A text in a style, if the terminal is to show it. -/
def paint (colour : Bool) (style : Style) (text : String) : String :=
  if colour then style.codes ++ text ++ "\x1b[0m" else text

def locationLine (colour : Bool) (l : Location) : String :=
  " > " ++ paint colour .cyan l.text ++ "\n"

/-- The lines on one collision, with an empty one after them. -/
def collisionText (colour : Bool) (c : Collision) : String :=
  paint colour .bold c.name ++ " (" ++ c.group.label ++ ") is defined "
    ++ toString c.locations.length ++ " times:\n"
    ++ String.join (c.locations.map (locationLine colour)) ++ "\n"

/-- The line on a run without collisions. -/
def cleanText (colour : Bool) (scanPaths : List String) : String :=
  paint colour .success "OK:" ++ " no name collision found in: "
    ++ String.intercalate ", " scanPaths ++ "\n"

/-- The report in lines. -/
def text (colour : Bool) (scanPaths : List String) (f : Findings) : String :=
  (if f.hasCollisions then String.join (f.collisions.map (collisionText colour))
    else cleanText colour scanPaths)
    ++ "Analysed " ++ toString f.filesAnalysed ++ " files, excluded "
    ++ toString f.filesExcluded ++ ".\n"

def locationValue (l : Location) : Json.Value :=
  .object [("file_path", .text l.path), ("line", .number l.line)]

/-- The collisions of each group that has some, by name. -/
def collisionsValue (cs : List Collision) : Json.Value :=
  .object (Group.all.filterMap fun g =>
    (Collision.ofGroup? cs g).map fun found =>
      (g.label, .object (found.map fun c => (c.name, .list (c.locations.map locationValue)))))

def value (scanPaths : List String) (f : Findings) : Json.Value :=
  .object [
    ("scan_paths", .list (scanPaths.map .text)),
    ("files_analysed", .number f.filesAnalysed),
    ("files_excluded", .number f.filesExcluded),
    ("collisions", collisionsValue f.collisions)]

/-- The report as JSON. -/
def json (scanPaths : List String) (f : Findings) : String :=
  (value scanPaths f).write 0 ++ "\n"

/-- The line on an error that ends the program. -/
def errorText (colour : Bool) (message : String) : String :=
  paint colour .error "ERROR:" ++ " " ++ message ++ "\n"

end Redeclaration.Report
