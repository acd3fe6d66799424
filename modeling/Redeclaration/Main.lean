import Redeclaration.CommandLine
import Redeclaration.FileTree.Edit

/-!
The program. It copies the files that a request looks at into a tree, answers
from there, and writes the answer.
-/

namespace Redeclaration.Snapshot

def add (t : FileTree) (place : List String) (n : Node) (h : n.Ordered) : FileTree :=
  (t.put? place n h).getD t

def addDirectory (t : FileTree) (place : List String) : FileTree :=
  if (t.at? place).isSome then t else add t place (.directory []) FileTree.empty.ordered

/-- The names of a path without links. -/
def names (path : String) : List String :=
  (FileTree.steps path).filter (· != "")

/-- The entries of the directory at a place, none if it cannot be listed. -/
def entriesAt (place : List String) : IO (List IO.FS.DirEntry) := do
  try
    let directory ← IO.FS.realPath (FileTree.placeText place)
    return (← directory.readDir).toList
  catch _ => return []

/-- The path without links to which a link leads. It is empty if nothing is
there, and the name of the link itself if the way there does not end. -/
def targetOf (e : IO.FS.DirEntry) : IO String := do
  try
    let _ ← e.path.metadata
    return (← IO.FS.realPath e.path).toString
  catch
    | .noFileOrDirectory .. => return ""
    | _ => return e.fileName

def bytesOf (e : IO.FS.DirEntry) : IO (List UInt8) := do
  try
    return (← IO.FS.readBinFile e.path).toList
  catch _ => return []

/-- Copies what the pieces of a path lead along, and gives the place where they
end. -/
partial def reach (t : FileTree) (place : List String) :
    List String → IO (FileTree × List String)
  | [] => return (t, place)
  | piece :: rest => do
    if piece == "" || piece == "." then reach t place rest
    else if piece == ".." then reach t place.dropLast rest
    else
      let here := place ++ [piece]
      match (← entriesAt place).find? fun e => e.fileName == piece with
      | none => return (t, here)
      | some e =>
        match (← e.path.symlinkMetadata).type with
        | .dir => reach (addDirectory t here) here rest
        | .symlink =>
          let target ← targetOf e
          let t := add t here (.link target) (.link target)
          if Path.isAbsolute target.toList then
            let (t, place) ← reach t [] (names target)
            reach t place rest
          else return (t, here)
        | .file =>
          let bytes ← bytesOf e
          return (add t here (.file bytes) (.file bytes), here)
        | .other => return (t, here)

/-- Copies all that stands below a place, with the content of the files whose
names are wanted. -/
partial def descend (wanted : String → Bool) (t : FileTree) (place : List String) :
    IO FileTree := do
  let mut t := t
  for e in ← entriesAt place do
    let here := place ++ [e.fileName]
    match (← e.path.symlinkMetadata).type with
    | .dir => t ← descend wanted (addDirectory t here) here
    | .symlink =>
      t := (← reach t place [e.fileName]).1
    | .file =>
      let bytes ← if wanted e.fileName then bytesOf e else pure []
      t := add t here (.file bytes) (.file bytes)
    | .other => pure ()
  return t

/-- The disk with what a path leads to. -/
def look (d : Disk) (path : String) : IO Disk := do
  let start := if Path.isAbsolute path.toList then [] else d.directory
  return { d with tree := (← reach d.tree start (FileTree.steps path)).1 }

/-- The disk with what a path leads to and all that is below. -/
def lookBelow (wanted : String → Bool) (d : Disk) (path : String) : IO Disk := do
  let start := if Path.isAbsolute path.toList then [] else d.directory
  let (t, place) ← reach d.tree start (FileTree.steps path)
  return { d with tree := ← descend wanted t place }

/-- The disk with the settings file of a scan. -/
def lookForFile (d : Disk) (o : Options) : IO Disk :=
  look d (o.configuration.getD Options.defaultFile)

/-- The disk with the files of a scan, once its settings file is there. -/
def lookForScan (d : Disk) (o : Options) : IO Disk := do
  let cwd := FileTree.placeText d.directory
  let path := (o.file? d).map (Path.join cwd)
  let home := (path.bind Path.parent?).getD cwd
  let doc := ((path.map (Settings.readDocument d)).getD (.ok {})).toOption.getD {}
  let wanted := fun name => Path.hasExtension (doc.fileExtensions.map Path.dotted) name
  let scanned :=
    if o.paths.isEmpty then doc.scanPaths.map (Path.join home) else o.paths.map (Path.join cwd)
  let d ← (doc.excludePaths.map (Path.join home)).foldlM look d
  scanned.foldlM (lookBelow wanted) d

/-- The disk with all that a request looks at. -/
def ofRequest (request : Request) : IO Disk := do
  let here := names (← IO.FS.realPath (← IO.currentDir)).toString
  match request with
  | .scan o => do
    let (t, place) ← reach FileTree.empty [] here
    lookForScan (← lookForFile ⟨t, place⟩ o) o
  | _ => return ⟨FileTree.empty, here⟩

end Redeclaration.Snapshot

open Redeclaration

/-- A line of the log. -/
def Redeclaration.Event.line (e : Event) : String :=
  let level := match e.level with
    | .warn => " WARN "
    | .debug => "DEBUG "
    | .trace => "TRACE "
  let details := match e with
    | .declared d =>
      " group=" ++ d.group.label ++ " name=" ++ d.name ++ " line=" ++ toString d.line
    | .analysed path n => " path=" ++ path ++ " declarations=" ++ toString n
    | .excluded path => " path=" ++ path
    | _ => ""
  level ++ e.message ++ details

def main (args : List String) : IO UInt32 := do
  let request := Request.ofArguments {} args
  let d ← Snapshot.ofRequest request
  let output ← IO.getStdout
  let r := respond (← output.isTty) d args
  for e in r.log do
    IO.eprintln e.line
  if r.exit == .misuse then
    IO.eprintln "error: wrong arguments\n\nFor more information, try '--help'."
  output.putStr r.output
  return UInt32.ofNat r.exit.code
