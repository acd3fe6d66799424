import Redeclaration.Declaration

/-!
Names that are declared more than once. Everything that is declared is noted as
a sighting; the collisions are read off the sorted sightings. Texts are ordered
by their characters, which is the order of their bytes.
-/

namespace Redeclaration

/-- Where a name is declared. -/
structure Location where
  path : String
  line : Nat
deriving DecidableEq, Repr

namespace Location

def text (l : Location) : String :=
  l.path ++ ":" ++ toString l.line

/-- By path, then by line. -/
def le (a b : Location) : Bool :=
  a.path < b.path || (a.path == b.path && a.line ≤ b.line)

end Location

/-- A name of a group that is declared at a location. -/
structure Sighting where
  group : Group
  name : String
  location : Location
deriving DecidableEq, Repr

namespace Sighting

/-- By group, then by name, then by location. -/
def le (a b : Sighting) : Bool :=
  a.group.rank < b.group.rank ||
    (a.group == b.group &&
      (a.name < b.name || (a.name == b.name && a.location.le b.location)))

/-- The sightings of one file, in the order of its declarations. -/
def ofFile (path : String) (ds : List Declaration) : List Sighting :=
  ds.map fun d => ⟨d.group, d.name, ⟨path, d.line⟩⟩

end Sighting

/-- A name of a group with the locations where it is declared. -/
structure Collision where
  group : Group
  name : String
  locations : List Location
deriving DecidableEq, Repr

namespace Collision

/-- Puts a sighting in front of the names that are gathered already. -/
def gather (s : Sighting) : List Collision → List Collision
  | [] => [⟨s.group, s.name, [s.location]⟩]
  | c :: cs =>
    if c.group == s.group && c.name == s.name then
      { c with locations := s.location :: c.locations } :: cs
    else ⟨s.group, s.name, [s.location]⟩ :: c :: cs

/-- All names of the sightings, in the order of a report. -/
def names (ss : List Sighting) : List Collision :=
  (ss.mergeSort Sighting.le).foldr gather []

end Collision

/-- The collisions in the order of a report: by group, then by name, each with
its locations in order. -/
def collisions (ss : List Sighting) : List Collision :=
  (Collision.names ss).filter fun c => 1 < c.locations.length

namespace Collision

/-- The locations of a colliding name. -/
def find? (cs : List Collision) (group : Group) (name : String) : Option (List Location) :=
  (cs.find? fun c => c.group == group && c.name == name).map (·.locations)

/-- The colliding names of a group, if there are any. -/
def ofGroup? (cs : List Collision) (group : Group) : Option (List Collision) :=
  match cs.filter (·.group == group) with
  | [] => none
  | found => some found

end Collision

end Redeclaration
