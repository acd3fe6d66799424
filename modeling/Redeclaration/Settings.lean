import Redeclaration.FileTree.Lookup
import Redeclaration.Settings.Document
import Redeclaration.Text.Utf8

/-!
The settings of a run. All of their paths exist and are canonical. They come
from given paths, from a settings file, or from the defaults.
-/

namespace Redeclaration

structure Settings where
  /-- The files and directories to scan, in order. -/
  scanPaths : List String
  /-- The texts that exclude a path in which they occur. -/
  excludePaths : List String
  /-- The ends of the names of files to scan. -/
  fileExtensions : List String
  /-- The directory that reported paths are taken from. -/
  baseDirectory : String
  /-- A file that fails is excluded and does not end the run. -/
  ignoreParseFailures : Bool
deriving DecidableEq, Repr

inductive SettingsError where
  | notAFile (path : String)
  | notText (path : String)
  | refused (path : String) (why : Json.Refusal)
  | invalidPath (path : String)
  | unresolvable (path : String) (why : AccessError)
deriving DecidableEq, Repr

namespace SettingsError

def refusalText : Json.Refusal → String
  | .early => "the text ends too early"
  | .malformed => "the text is not JSON"
  | .misfit => "the text does not have the form of a settings file"

def message : SettingsError → String
  | notAFile path => "Provided config filepath is not a file: " ++ path
  | notText path =>
    "Failure while opening config file " ++ path ++ ": stream did not contain valid UTF-8"
  | refused path why => "Failure while parsing JSON in " ++ path ++ ": " ++ refusalText why
  | invalidPath path =>
    "Provided directory to scan \"" ++ path ++ "\" is not directory nor a file"
  | unresolvable path why => "Unable to resolve path \"" ++ path ++ "\": " ++ why.message

end SettingsError

namespace Settings

/-- Whether a path leads to a file or a directory. -/
def pathExists (d : Disk) (path : String) : Bool :=
  d.isDirectory path || d.isFile path

/-- The canonical form of a path that exists. -/
def canonical (d : Disk) (path : String) :
    Except SettingsError String :=
  if pathExists d path then
    (d.canonical path).mapError (SettingsError.unresolvable path)
  else .error (.invalidPath path)

/-- The settings with these paths, the first of which that does not exist is
refused. -/
def ofPaths (d : Disk) (scanPaths excludePaths : List String)
    (fileExtensions : List String) (baseDirectory : String) (ignoreParseFailures : Bool) :
    Except SettingsError Settings := do
  let scanned ← scanPaths.mapM (canonical d)
  let excluded ← excludePaths.mapM (canonical d)
  let base ← canonical d baseDirectory
  return {
    scanPaths := scanned
    excludePaths := excluded
    fileExtensions := fileExtensions.map Path.dotted
    baseDirectory := base
    ignoreParseFailures := ignoreParseFailures }

/-- A path taken from a directory, if it exists there. -/
def joinExisting (d : Disk) (directory path : String) :
    Except SettingsError String :=
  let joined := Path.join directory path
  if pathExists d joined then .ok joined else .error (.invalidPath joined)

/-- The settings of a document. Paths that are provided stand in for its scan
paths and are taken from the working directory; all other paths are taken from
the directory of the document. -/
def ofDocument (d : Disk) (cwd : String) (provided : List String) (home : String)
    (doc : Document) : Except SettingsError Settings := do
  let scanPaths ←
    if provided.isEmpty then doc.scanPaths.mapM (joinExisting d home)
    else provided.mapM (joinExisting d cwd)
  let excludePaths ← doc.excludePaths.mapM (joinExisting d home)
  ofPaths d scanPaths excludePaths doc.fileExtensions cwd doc.ignoreParseFailures

/-- The document that is written in a file. -/
def readDocument (d : Disk) (path : String) : Except SettingsError Document := do
  if !d.isFile path then .error (.notAFile path)
  let bytes ← (d.read path).mapError (SettingsError.unresolvable path)
  match Text.decode? bytes with
  | none => .error (.notText path)
  | some text => (Document.read text).mapError (SettingsError.refused path)

/-- The settings of a file, whose path is taken from the working directory. -/
def ofFile (d : Disk) (cwd : String) (provided : List String) (file : String) :
    Except SettingsError Settings := do
  let path := Path.join cwd file
  let doc ← readDocument d path
  ofDocument d cwd provided ((Path.parent? path).getD cwd) doc

/-- The default settings. -/
def ofDefaults (d : Disk) (cwd : String) (provided : List String) :
    Except SettingsError Settings :=
  ofDocument d cwd provided cwd {}

end Settings

end Redeclaration
