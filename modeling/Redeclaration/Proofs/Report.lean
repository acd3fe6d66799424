import Redeclaration.Proofs.Detection.ScanPaths
import Redeclaration.Proofs.Json.Value
import Redeclaration.Report

/-!
What the two forms of a report tell. The JSON form is a document, from which the collisions are
read; the form in lines is a block for each collision, one after another. Main statement: both
list the same names with the same locations, in the same order.
-/

namespace Redeclaration

namespace Json.Data

/-! Reading a document, where something of another kind reads as nothing. -/

def text? : Data → Option String
  | text value => some value
  | _ => none

/-- A number without sign, point and exponent. -/
def number? : Data → Option Nat
  | number literal =>
    if literal.toList.all Char.isDigit then some (Nat.ofDigitChars 10 literal.toList 0) else none
  | _ => none

def items? : Data → Option (List Data)
  | list items => some items
  | _ => none

def members? : Data → Option (List (String × Data))
  | object members => some members
  | _ => none

/-- The value of an object under a key. -/
def member? (v : Data) (key : String) : Option Data :=
  v.members?.bind (List.lookup key)

theorem number?_number (n : Nat) : (number (toString n)).number? = some n := by
  have hdigits : (Nat.toDigits 10 n).all Char.isDigit = true :=
    List.all_eq_true.2 fun c hc => Nat.isDigit_of_mem_toDigits (by decide) (by decide) hc
  rw [number?, toList_number, if_pos hdigits, Nat.ofDigitChars_ten_toDigits]

end Json.Data

namespace Report

open Json (Data)

/-! The collisions of a document, each under its group and its name. -/

def groupNamed? : String → Option Group
  | "type" => some .type
  | "function" => some .function
  | "constant" => some .constant
  | _ => none

def location? (v : Data) : Option Location := do
  let path ← v.member? "file_path"
  let line ← v.member? "line"
  return ⟨← path.text?, ← line.number?⟩

def collisionNamed? (group : Group) (member : String × Data) : Option Collision := do
  let items ← member.2.items?
  return ⟨group, member.1, ← items.mapM location?⟩

def groupCollisions? (member : String × Data) : Option (List Collision) := do
  let group ← groupNamed? member.1
  (← member.2.members?).mapM (collisionNamed? group)

/-- The collisions that a report lists, in its order. -/
def collisions? (report : Data) : Option (List Collision) := do
  let groups ← (← report.member? "collisions").members?
  return (← groups.mapM groupCollisions?).flatten

/-- What is written item by item is read item by item. -/
theorem mapM_map_eq_some {α β γ : Type} (write : α → β) (read : β → Option γ) (f : α → γ)
    (h : ∀ a, read (write a) = some (f a)) (as : List α) :
    (as.map write).mapM read = some (as.map f) := by
  induction as with
  | nil => rfl
  | cons a as ih => simp [h, ih]

theorem groupNamed?_label (g : Group) : groupNamed? g.label = some g := by
  cases g <;> rfl

def locationData (l : Location) : Data :=
  .object [("file_path", .text l.path), ("line", .number (toString l.line))]

theorem location?_locationData (l : Location) : location? (locationData l) = some l := by
  have hpath : (locationData l).member? "file_path" = some (.text l.path) := rfl
  have hline : (locationData l).member? "line" = some (.number (toString l.line)) := rfl
  rw [location?, hpath, hline]
  simp only [Option.bind_eq_bind, Option.bind_some, Data.text?, Data.number?_number]
  rfl

/-- The member of a report for a name. -/
def collisionMember (c : Collision) : String × Data :=
  (c.name, .list (c.locations.map locationData))

/-- The member of a report for the names of a group. -/
def groupMember (g : Group) (found : List Collision) : String × Data :=
  (g.label, .object (found.map collisionMember))

/-- The member for a group, if it has names. -/
def groupMember? (cs : List Collision) (g : Group) : Option (String × Data) :=
  (Collision.ofGroup? cs g).map (groupMember g)

/-- The document that is written has a member for each group with names. -/
theorem data_collisionsValue (cs : List Collision) :
    (collisionsValue cs).data = .object (Group.all.filterMap (groupMember? cs)) := by
  rw [collisionsValue, Json.Value.data, Json.dataMembers_eq_map, List.map_filterMap]
  congr 2
  funext g
  rw [Option.map_map, groupMember?]
  congr 1
  funext found
  simp only [Function.comp_apply, Json.Value.data, Json.dataMembers_eq_map, List.map_map,
    groupMember]
  congr 3
  funext c
  simp only [Function.comp_apply, Json.Value.data, Json.dataItems_eq_map, List.map_map,
    collisionMember]
  rfl

/-- The names of a group are read as collisions of that group. -/
theorem groupCollisions?_groupMember (g : Group) (found : List Collision)
    (h : ∀ c ∈ found, c.group = g) : groupCollisions? (groupMember g found) = some found := by
  have hcollision (c : Collision) :
      collisionNamed? g (collisionMember c) = some ⟨g, c.name, c.locations⟩ := by
    have hlocations := mapM_map_eq_some locationData location? id location?_locationData
      c.locations
    simp [collisionNamed?, collisionMember, Data.items?, hlocations]
  have hsame : (found.map fun c => ⟨g, c.name, c.locations⟩) = found := by
    refine (List.map_congr_left ?_).trans (List.map_id found)
    intro c hc
    rw [← h c hc, id]
  have hfound := mapM_map_eq_some _ _ _ hcollision found
  rw [hsame] at hfound
  simpa [groupCollisions?, groupMember, groupNamed?_label, Data.members?] using hfound

/-- The groups are read one after another, and a group without names is left out. -/
theorem mapM_groupCollisions? (cs : List Collision) (gs : List Group) :
    ∃ parts, (gs.filterMap (groupMember? cs)).mapM groupCollisions? = some parts ∧
      parts.flatten = gs.flatMap fun g => cs.filter (·.group == g) := by
  induction gs with
  | nil => exact ⟨[], rfl, rfl⟩
  | cons g gs ih =>
    obtain ⟨parts, hparts, hflatten⟩ := ih
    rw [List.flatMap_cons, ← hflatten]
    cases hfound : cs.filter (·.group == g) with
    | nil =>
      have hskip : groupMember? cs g = none := by
        simp [groupMember?, Collision.ofGroup?, hfound]
      rw [List.filterMap_cons_none hskip]
      exact ⟨parts, hparts, rfl⟩
    | cons c found =>
      have hgroup : ∀ e ∈ c :: found, e.group = g := by
        intro e he
        rw [← hfound, List.mem_filter, beq_iff_eq] at he
        exact he.2
      have htake : groupMember? cs g = some (groupMember g (c :: found)) := by
        simp [groupMember?, Collision.ofGroup?, hfound]
      refine ⟨(c :: found) :: parts, ?_, List.flatten_cons⟩
      rw [List.filterMap_cons_some htake, List.mapM_cons, groupCollisions?_groupMember g _ hgroup,
        hparts]
      rfl

theorem rank_le_of_nameplate_lt (g h : Group) (m n : String)
    (hlt : nameplate g m < nameplate h n) : g.rank ≤ h.rank := by
  rw [nameplate, nameplate, Prod.Lex.toLex_lt_toLex] at hlt
  omega

/-- Names in the order of a report stand group by group. -/
theorem flatMap_group (cs : List Collision)
    (h : cs.Pairwise fun a b => nameplate a.group a.name < nameplate b.group b.name) :
    (Group.all.flatMap fun g => cs.filter (·.group == g)) = cs := by
  induction cs with
  | nil => rfl
  | cons c cs ih =>
    obtain ⟨hc, hcs⟩ := List.pairwise_cons.1 h
    have hrest := ih hcs
    -- A group that comes before that of the first name has no names.
    have hnone (g : Group) (hg : g.rank < c.group.rank) :
        cs.filter (·.group == g) = [] := by
      rw [List.filter_eq_nil_iff]
      intro e he hge
      have hle := rank_le_of_nameplate_lt _ _ _ _ (hc e he)
      rw [beq_iff_eq.1 hge] at hle
      omega
    simp only [Group.all, List.flatMap_cons, List.flatMap_nil, List.append_nil] at hrest ⊢
    cases hgroup : c.group with
    | type => simpa [List.filter_cons, hgroup] using hrest
    | function =>
      have htype := hnone .type (by simp [hgroup, Group.rank])
      simpa [List.filter_cons, hgroup, htype] using hrest
    | constant =>
      have htype := hnone .type (by simp [hgroup, Group.rank])
      have hfunction := hnone .function (by simp [hgroup, Group.rank])
      simpa [List.filter_cons, hgroup, htype, hfunction] using hrest

/-- The JSON form lists the collisions of a run, in their order. -/
theorem collisions?_data (scanPaths : List String) (f : Findings)
    (h : f.collisions.Pairwise fun a b => nameplate a.group a.name < nameplate b.group b.name) :
    collisions? (value scanPaths f).data = some f.collisions := by
  obtain ⟨parts, hparts, hflatten⟩ := mapM_groupCollisions? f.collisions Group.all
  rw [flatMap_group _ h] at hflatten
  have hmember : (value scanPaths f).data.member? "collisions" =
      some (collisionsValue f.collisions).data := rfl
  simp [collisions?, hmember, data_collisionsValue, Data.members?, hparts, hflatten]

/-- The text of the JSON form is a document with the collisions of the run. -/
theorem json_written (scanPaths : List String) (f : Findings)
    (h : f.collisions.Pairwise fun a b => nameplate a.group a.name < nameplate b.group b.name) :
    ∃ document body, json scanPaths f = body ++ "\n" ∧ Json.Written document body.toList ∧
      collisions? document = some f.collisions :=
  ⟨_, _, rfl, Json.written_write _ 0, collisions?_data scanPaths f h⟩

/-! The form in lines. -/

/-- The lines on one name: what is written about it, with the number of its locations
and a line for each of them. -/
structure Block where
  group : String
  name : String
  count : Nat
  locations : List String
deriving DecidableEq, Repr

namespace Block

/-- A text behind the code of a style, and before the code that ends it. -/
def styled (colour : Bool) (code text : String) : String :=
  if colour then code ++ text ++ "\x1b[0m" else text

def text (colour : Bool) (b : Block) : String :=
  styled colour "\x1b[1m" b.name ++ " (" ++ b.group ++ ") is defined " ++ toString b.count
    ++ " times:\n"
    ++ String.join (b.locations.map fun l => " > " ++ styled colour "\x1b[36m" l ++ "\n") ++ "\n"

/-- A block is about a collision, has a line with the path and the line number for each of its
locations, and says how many there are. -/
structure Shows (b : Block) (c : Collision) : Prop where
  group : groupNamed? b.group = some c.group
  name : b.name = c.name
  locations : b.locations = c.locations.map fun l => l.path ++ ":" ++ toString l.line
  count : b.count = b.locations.length

def ofCollision (c : Collision) : Block :=
  ⟨c.group.label, c.name, c.locations.length, c.locations.map (·.text)⟩

theorem text_ofCollision (colour : Bool) (c : Collision) :
    (ofCollision c).text colour = collisionText colour c := by
  simp only [ofCollision, text, collisionText, List.map_map]
  rfl

theorem shows_ofCollision (c : Collision) : (ofCollision c).Shows c :=
  ⟨groupNamed?_label c.group, rfl, rfl, by simp [ofCollision]⟩

end Block

/-- A report in lines with some blocks. A line says so if there are none. -/
def blocksText (colour : Bool) (scanPaths : List String) (f : Findings) (bs : List Block) :
    String :=
  (if bs.isEmpty then cleanText colour scanPaths else String.join (bs.map (Block.text colour)))
    ++ "Analysed " ++ toString f.filesAnalysed ++ " files, excluded "
    ++ toString f.filesExcluded ++ ".\n"

theorem text_eq_blocksText (colour : Bool) (scanPaths : List String) (f : Findings) :
    text colour scanPaths f =
      blocksText colour scanPaths f (f.collisions.map Block.ofCollision) := by
  have hblocks : (f.collisions.map Block.ofCollision).map (Block.text colour) =
      f.collisions.map (collisionText colour) := by
    rw [List.map_map]
    exact List.map_congr_left fun c _ => Block.text_ofCollision colour c
  unfold text blocksText Findings.hasCollisions
  rw [hblocks]
  cases f.collisions with
  | nil => rfl
  | cons c cs => rfl

/-- The form in lines has a block for each collision of the run, in the same order. -/
theorem text_blocks (colour : Bool) (scanPaths : List String) (f : Findings) :
    ∃ bs, text colour scanPaths f = blocksText colour scanPaths f bs ∧
      List.Forall₂ Block.Shows bs f.collisions := by
  refine ⟨_, text_eq_blocksText colour scanPaths f, ?_⟩
  rw [List.forall₂_map_left_iff, List.forall₂_same]
  intro c _
  exact Block.shows_ofCollision c

end Report

end Redeclaration
