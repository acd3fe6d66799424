import Redeclaration.Json.Symbol

/-!
The settings file: a JSON object with up to four fields, or a JSON list of their
values in order. The text is read from the left and refused at the first thing
that does not fit.
-/

namespace Redeclaration

open Json

/-- The content of a settings file. -/
structure Document where
  scanPaths : List String := []
  excludePaths : List String := []
  fileExtensions : List String := ["php"]
  ignoreParseFailures : Bool := false
deriving DecidableEq, Repr

namespace Document

inductive Field where
  | scanPaths
  | excludePaths
  | fileExtensions
  | ignoreParseFailures
deriving DecidableEq, Repr

/-- A field with its value. -/
inductive Setting where
  | scanPaths (paths : List String)
  | excludePaths (paths : List String)
  | fileExtensions (extensions : List String)
  | ignoreParseFailures (flag : Bool)
deriving DecidableEq, Repr

namespace Field

/-- The fields in the order of a list. -/
def all : List Field :=
  [scanPaths, excludePaths, fileExtensions, ignoreParseFailures]

def key : Field → String
  | scanPaths => "scanPaths"
  | excludePaths => "excludePaths"
  | fileExtensions => "fileExtensions"
  | ignoreParseFailures => "ignoreParseFailures"

def ofKey? (key : String) : Option Field :=
  all.find? fun f => f.key == key

end Field

/-- Puts a value in the place of the present one. -/
def set (d : Document) : Setting → Document
  | .scanPaths paths => { d with scanPaths := paths }
  | .excludePaths paths => { d with excludePaths := paths }
  | .fileExtensions extensions => { d with fileExtensions := extensions }
  | .ignoreParseFailures flag => { d with ignoreParseFailures := flag }

/-- A position in a list or an object: after the opening bracket, after a comma,
or after an item. -/
inductive Position where
  | first
  | next
  | after
deriving DecidableEq, Repr

/-- The strings of a list up to its closing bracket, and the number of symbols
that they take. -/
def readStrings (position : Position) (ts : List Symbol) :
    Except Refusal (List String × Nat) :=
  match position, ts with
  | _, [] => .error .early
  | .first, .closeList :: _ => .ok ([], 1)
  | .after, .closeList :: _ => .ok ([], 1)
  | .after, .comma :: rest => do
    let (texts, n) ← readStrings .next rest
    return (texts, n + 1)
  | .after, _ :: _ => .error .malformed
  | _, .string text :: rest => do
    let (texts, n) ← readStrings .after rest
    return (text :: texts, n + 1)
  | _, t :: _ => .error t.refusal

/-- A list of strings, and the number of symbols that it takes. -/
def readList : List Symbol → Except Refusal (List String × Nat)
  | [] => .error .early
  | .openList :: rest => do
    let (texts, n) ← readStrings .first rest
    return (texts, n + 1)
  | t :: _ => .error t.refusal

def readFlag : List Symbol → Except Refusal Bool
  | [] => .error .early
  | .bool flag :: _ => .ok flag
  | t :: _ => .error t.refusal

/-- The value of a field, and the number of symbols that it takes. -/
def readSetting (field : Field) (ts : List Symbol) : Except Refusal (Setting × Nat) :=
  match field with
  | .scanPaths => do
    let (paths, n) ← readList ts
    return (.scanPaths paths, n)
  | .excludePaths => do
    let (paths, n) ← readList ts
    return (.excludePaths paths, n)
  | .fileExtensions => do
    let (extensions, n) ← readList ts
    return (.fileExtensions extensions, n)
  | .ignoreParseFailures => do
    let flag ← readFlag ts
    return (.ignoreParseFailures flag, 1)

/-- Nothing may follow the closing bracket. -/
def readEnd (ts : List Symbol) : Except Refusal (List Setting) :=
  if ts.isEmpty then .ok [] else .error .malformed

/-- The symbols after a key and its colon. An unknown or repeated key is refused
before its colon is looked at. -/
def readKey (seen : List Field) (key : String) (ts : List Symbol) :
    Except Refusal (Field × List Symbol) :=
  match Field.ofKey? key with
  | none => .error .misfit
  | some field =>
    if field ∈ seen then .error .misfit
    else
      match ts with
      | [] => .error .early
      | .colon :: rest => .ok (field, rest)
      | _ :: _ => .error .malformed

theorem length_readKey {seen : List Field} {key : String} {ts rest : List Symbol}
    {field : Field} (h : readKey seen key ts = .ok (field, rest)) :
    rest.length ≤ ts.length := by
  unfold readKey at h
  split at h
  · cases h
  · split at h
    · cases h
    · split at h
      · cases h
      · simp only [Except.ok.injEq, Prod.mk.injEq] at h
        rw [← h.2]
        simp
      · cases h

/-- The fields of an object up to its end, none of which has been seen. -/
def readObject (position : Position) (seen : List Field) (ts : List Symbol) :
    Except Refusal (List Setting) :=
  match position, ts with
  | _, [] => .error .early
  | .first, .closeObject :: rest => readEnd rest
  | .after, .closeObject :: rest => readEnd rest
  | .after, .comma :: rest => readObject .next seen rest
  | .after, _ :: _ => .error .malformed
  | _, .string key :: rest =>
    match h : readKey seen key rest with
    | .error why => .error why
    | .ok (field, values) =>
      match readSetting field values with
      | .error why => .error why
      | .ok (setting, n) => do
        have := length_readKey h
        let more ← readObject .after (field :: seen) (values.drop n)
        return setting :: more
  | _, .brokenString why :: _ => .error why
  | _, _ :: _ => .error .malformed
termination_by ts.length
decreasing_by all_goals simp only [List.length_drop, List.length_cons]; omega

/-- The values of a list up to its end, for these fields in turn. -/
def readRow (position : Position) (fields : List Field) (ts : List Symbol) :
    Except Refusal (List Setting) :=
  match position, fields, ts with
  | _, _, [] => .error .early
  | .first, _, .closeList :: rest => readEnd rest
  | .after, _, .closeList :: rest => readEnd rest
  | .after, _ :: _, .comma :: rest => readRow .next fields rest
  | .after, _, _ :: _ => .error .malformed
  | _, [], _ :: _ => .error .malformed
  | _, field :: more, t :: rest =>
    match readSetting field (t :: rest) with
    | .error why => .error why
    | .ok (setting, n) => do
      let settings ← readRow .after more (rest.drop (n - 1))
      return setting :: settings
termination_by ts.length
decreasing_by all_goals simp only [List.length_drop, List.length_cons]; omega

/-- The settings of a text in the order in which it gives them. -/
def readSettings (text : String) : Except Refusal (List Setting) :=
  match symbols text.toList with
  | [] => .error .early
  | .openObject :: rest => readObject .first [] rest
  | .openList :: rest => readRow .first Field.all rest
  | t :: _ => .error t.refusal

/-- The settings file with this text. -/
def read (text : String) : Except Refusal Document := do
  let settings ← readSettings text
  return settings.foldl set {}

end Document

end Redeclaration
