import Redeclaration.FileTree.Lookup
import Redeclaration.Proofs.Path

/-!
How paths are followed through a tree. A path is followed piece by piece, and what
one piece does hangs on the place and on the piece alone. So a path that goes on
behind a directory is followed from that directory on, and names below it that are
no links lead straight down.
-/

namespace Redeclaration

namespace Node

/-- The entries of all directories have the names that entries can have. -/
inductive Named : Node → Prop
  | file (bytes : List UInt8) : Named (.file bytes)
  | link (target : String) : Named (.link target)
  | directory {entries : List (String × Node)} (names : ∀ e ∈ entries, Path.IsName e.1)
      (children : ∀ e ∈ entries, Named e.2) : Named (.directory entries)

mutual

/-- Whether a test of their names holds of all directories. -/
def everywhere (test : List String → Bool) : Node → Bool
  | .file _ | .link _ => true
  | .directory entries => test (entries.map (·.1)) && everywhereIn test entries

def everywhereIn (test : List String → Bool) : List (String × Node) → Bool
  | [] => true
  | (_, n) :: rest => n.everywhere test && everywhereIn test rest

end

/-- What holds of a directory once it holds of its entries holds of every node. -/
theorem inner_induction {P : Node → Prop} (file : ∀ bytes, P (.file bytes))
    (link : ∀ target, P (.link target))
    (directory : ∀ entries, (∀ e ∈ entries, P e.2) → P (.directory entries)) (n : Node) : P n := by
  exact @Node.rec P (fun entries => ∀ e ∈ entries, P e.2) (fun e => P e.2) file link directory
    (fun _ h => absurd h List.not_mem_nil)
    (fun _ _ he hentries => List.forall_mem_cons.2 ⟨he, hentries⟩) (fun _ _ hn => hn) n

/-- A property that asks each directory for its names, and then all its entries. -/
theorem everywhere_iff {P : Node → Prop} {test : List String → Bool}
    (file : ∀ bytes, P (.file bytes)) (link : ∀ target, P (.link target))
    (directory : ∀ entries, P (.directory entries) ↔
      test (entries.map (·.1)) = true ∧ ∀ e ∈ entries, P e.2) (n : Node) :
    n.everywhere test = true ↔ P n := by
  induction n using inner_induction with
  | file bytes => simp [everywhere, file]
  | link target => simp [everywhere, link]
  | directory entries ih =>
    have hentries : everywhereIn test entries = true ↔ ∀ e ∈ entries, P e.2 := by
      induction entries with
      | nil => simp [everywhereIn]
      | cons e entries ihentries =>
        obtain ⟨he, hrest⟩ := List.forall_mem_cons.1 ih
        rw [everywhereIn, Bool.and_eq_true, he, ihentries hrest, List.forall_mem_cons]
    rw [everywhere, Bool.and_eq_true, directory, hentries]

theorem everywhere_iff_ordered (n : Node) :
    n.everywhere (fun names => names.Pairwise (· < ·)) = true ↔ n.Ordered := by
  apply everywhere_iff Ordered.file Ordered.link
  intro entries
  rw [decide_eq_true_iff, List.pairwise_map]
  constructor
  · intro h
    cases h with
    | directory names children => exact ⟨names, children⟩
  · exact fun h => .directory h.1 h.2

theorem everywhere_iff_named (n : Node) :
    n.everywhere (fun names => ∀ name ∈ names, Path.IsName name) = true ↔ n.Named := by
  apply everywhere_iff Named.file Named.link
  intro entries
  rw [decide_eq_true_iff, List.forall_mem_map]
  constructor
  · intro h
    cases h with
    | directory names children => exact ⟨names, children⟩
  · exact fun h => .directory h.1 h.2

/-! A tree that is written down is checked by evaluation. -/

instance (n : Node) : Decidable n.Ordered :=
  decidable_of_iff _ n.everywhere_iff_ordered

instance (n : Node) : Decidable n.Named :=
  decidable_of_iff _ n.everywhere_iff_named

theorem at?_append (n : Node) (a b : List String) :
    n.at? (a ++ b) = (n.at? a).bind fun m => m.at? b := by
  induction a generalizing n with
  | nil => rfl
  | cons name a ih =>
    rw [List.cons_append, at?, at?]
    cases n.child? name with
    | none => rfl
    | some m => exact ih m

/-- The first of several names is that of an entry. -/
theorem at?_cons_eq_some (n m : Node) (name : String) (names : List String)
    (h : n.at? (name :: names) = some m) :
    ∃ entries k, n = .directory entries ∧ entries.lookup name = some k ∧ k.at? names = some m := by
  cases n with
  | file bytes => cases h
  | link target => cases h
  | directory entries =>
    rw [at?, child?] at h
    cases hlookup : entries.lookup name with
    | none => simp [hlookup] at h
    | some k =>
      rw [hlookup] at h
      exact ⟨entries, k, rfl, hlookup, h⟩

theorem isName_of_at? (n m : Node) (names : List String) (hn : n.Named)
    (h : n.at? names = some m) : ∀ name ∈ names, Path.IsName name := by
  induction names generalizing n with
  | nil => simp
  | cons name names ih =>
    obtain ⟨entries, k, rfl, hlookup, hk⟩ := at?_cons_eq_some n m name names h
    obtain ⟨l₁, l₂, rfl, -⟩ := List.lookup_eq_some_iff.1 hlookup
    cases hn with
    | directory isName children =>
      intro other hother
      rcases List.mem_cons.1 hother with rfl | hother
      · exact isName (other, k) (by simp)
      · exact ih k (children (name, k) (by simp)) hk other hother

end Node

namespace FileTree

/-- What a piece does, unless it is the last one of a path with a special purpose: how
many links may still be followed, the place, and the pieces of a link to be followed first. -/
def firstStep (t : FileTree) (links : Nat) (place : List String) (piece : String) :
    Except AccessError (Nat × List String × List String) :=
  match t.at? place with
  | some (.directory entries) =>
    if piece == "" || piece == "." then .ok (links, place, [])
    else if piece == ".." then .ok (links, place.dropLast, [])
    else
      match entries.lookup piece with
      | none => .error .missing
      | some (.link target) =>
        match links with
        | 0 => .error .tooManyLinks
        | links + 1 =>
          if target == "" then .error .missing
          else .ok (links, if Path.isAbsolute target.toList then [] else place, steps target)
      | some _ => .ok (links, place ++ [piece], [])
  | _ => .error .notDirectory

theorem resolve_cons (t : FileTree) (purpose : Purpose) (links : Nat) (place : List String)
    (piece : String) (rest : List String) (h : purpose = .follow ∨ rest ≠ []) :
    t.resolve purpose links place (piece :: rest) =
      match t.firstStep links place piece with
      | .error e => .error e
      | .ok (links', place', more) => t.resolve purpose links' place' (more ++ rest) := by
  have hcreate : (rest.isEmpty && purpose == .create) = false := by
    rcases h with rfl | h <;> simp [*]
  have hinspect : (rest.isEmpty && purpose == .inspect) = false := by
    rcases h with rfl | h <;> simp [*]
  rw [resolve, firstStep]
  cases hnode : t.at? place with
  | none => rfl
  | some n =>
    cases n with
    | file bytes => rfl
    | link target => rfl
    | directory entries =>
      dsimp only
      by_cases hpassed : (piece == "" || piece == ".") = true
      · rw [if_pos hpassed, if_pos hpassed]
        rfl
      rw [if_neg hpassed, if_neg hpassed]
      by_cases hparent : (piece == "..") = true
      · rw [if_pos hparent, if_pos hparent]
        rfl
      rw [if_neg hparent, if_neg hparent]
      cases hlookup : entries.lookup piece with
      | none => simp [hcreate]
      | some k =>
        cases k with
        | file bytes => rfl
        | directory below => rfl
        | link target =>
          cases links with
          | zero => simp [hinspect]
          | succ links =>
            by_cases hempty : (target == "") = true
            · simp [hinspect, hempty]
            · simp [hinspect, hempty]

/-- A piece uses up itself, or one of the links that may be followed. -/
theorem firstStep_decreases (t : FileTree) (links links' : Nat) (place place' : List String)
    (piece : String) (more : List String)
    (h : t.firstStep links place piece = .ok (links', place', more)) :
    links' < links ∨ links' = links ∧ more = [] := by
  unfold firstStep at h
  repeat' split at h
  all_goals cases h
  all_goals simp

/-- What holds of the empty path, and of a path as soon as it holds of what its first piece
leaves, holds of every path. -/
theorem path_induction (t : FileTree) {P : Nat → List String → List String → Prop}
    (nil : ∀ links place, P links place [])
    (cons : ∀ links place piece rest,
      (∀ links' place' more, t.firstStep links place piece = .ok (links', place', more) →
        P links' place' (more ++ rest)) → P links place (piece :: rest))
    (links : Nat) (place pending : List String) : P links place pending := by
  induction links using Nat.strongRecOn generalizing place pending with
  | ind links ihlinks =>
    induction pending generalizing place with
    | nil => exact nil links place
    | cons piece rest ihrest =>
      apply cons
      intro links' place' more hstep
      rcases t.firstStep_decreases links links' place place' piece more hstep with hlt | ⟨rfl, rfl⟩
      · exact ihlinks links' hlt place' _
      · exact ihrest place'

/-- A path that goes on behind what it leads to is followed from there on. -/
theorem resolve_append (t : FileTree) (purpose : Purpose) (links : Nat)
    (place pending target rest : List String) (hrest : rest ≠ [])
    (h : t.resolve .follow links place pending = .ok target) :
    ∃ links', t.resolve purpose links place (pending ++ rest) =
      t.resolve purpose links' target rest := by
  induction links, place, pending using t.path_induction with
  | nil links place =>
    rw [resolve] at h
    cases h
    exact ⟨links, rfl⟩
  | cons links place piece pending ih =>
    rw [resolve_cons _ _ _ _ _ _ (.inl rfl)] at h
    rw [List.cons_append, resolve_cons _ _ _ _ _ _ (.inr (by simp [hrest]))]
    cases hstep : t.firstStep links place piece with
    | error e => simp [hstep] at h
    | ok next =>
      obtain ⟨links', place', more⟩ := next
      rw [hstep] at h
      dsimp only
      rw [← List.append_assoc]
      exact ih links' place' more hstep h

/-- An empty piece inside of a path asks for a directory, which the next piece does too. -/
theorem resolve_empty_piece (t : FileTree) (purpose : Purpose) (links : Nat)
    (place pending rest : List String) (hrest : rest ≠ []) :
    t.resolve purpose links place (pending ++ "" :: rest) =
      t.resolve purpose links place (pending ++ rest) := by
  induction links, place, pending using t.path_induction with
  | nil links place =>
    obtain ⟨piece, rest, rfl⟩ := List.exists_cons_of_ne_nil hrest
    rw [List.nil_append, List.nil_append, resolve_cons _ _ _ _ _ _ (.inr hrest), firstStep]
    cases hnode : t.at? place with
    | none => rw [resolve, hnode]
    | some n =>
      cases n with
      | directory entries => rfl
      | file bytes => rw [resolve, hnode]
      | link target => rw [resolve, hnode]
  | cons links place piece pending ih =>
    rw [List.cons_append, List.cons_append, resolve_cons _ _ _ _ _ _ (.inr (by simp)),
      resolve_cons _ _ _ _ _ _ (.inr (by simp [hrest]))]
    cases hstep : t.firstStep links place piece with
    | error e => rfl
    | ok next =>
      obtain ⟨links', place', more⟩ := next
      dsimp only
      rw [← List.append_assoc, ← List.append_assoc]
      exact ih links' place' more hstep

/-- To look at the last name and to follow it is the same, unless it is the name of a link. -/
theorem resolve_follow_of_inspect (t : FileTree) (links : Nat)
    (place pending target : List String) (n : Node) (hn : t.at? target = some n)
    (hlink : ∀ text, n ≠ .link text) (h : t.resolve .inspect links place pending = .ok target) :
    t.resolve .follow links place pending = .ok target := by
  induction links, place, pending using t.path_induction with
  | nil links place =>
    rw [resolve] at h ⊢
    exact h
  | cons links place piece rest ih =>
    by_cases hrest : rest = []
    · subst hrest
      rw [resolve] at h ⊢
      cases hnode : t.at? place with
      | none =>
        rw [hnode] at h
        cases h
      | some m =>
        cases m with
        | file bytes =>
          rw [hnode] at h
          cases h
        | link text =>
          rw [hnode] at h
          cases h
        | directory entries =>
          rw [hnode] at h
          dsimp only at h ⊢
          by_cases hpassed : (piece == "" || piece == ".") = true
          · rw [if_pos hpassed, resolve] at h ⊢
            exact h
          rw [if_neg hpassed] at h ⊢
          by_cases hparent : (piece == "..") = true
          · rw [if_pos hparent, resolve] at h ⊢
            exact h
          rw [if_neg hparent] at h ⊢
          cases hlookup : entries.lookup piece with
          | none =>
            rw [hlookup] at h
            cases h
          | some k =>
            rw [hlookup] at h
            cases k with
            | file bytes =>
              rw [resolve] at h ⊢
              exact h
            | directory below =>
              rw [resolve] at h ⊢
              exact h
            | link text =>
              -- The link itself would be looked at, and it is none.
              cases h
              have hentry : t.at? (place ++ [piece]) = some (.link text) := by
                rw [at?, Node.at?_append, ← at?, hnode]
                simp [Node.at?, Node.child?, hlookup]
              rw [hentry] at hn
              exact absurd (Option.some.inj hn).symm (hlink text)
    · rw [resolve_cons _ _ _ _ _ _ (.inr hrest)] at h
      rw [resolve_cons _ _ _ _ _ _ (.inl rfl)]
      cases hstep : t.firstStep links place piece with
      | error e =>
        rw [hstep] at h
        cases h
      | ok next =>
        obtain ⟨links', place', more⟩ := next
        rw [hstep] at h
        exact ih links' place' more hstep h

/-- Names lead straight down from a place, as long as no link is to be followed. -/
theorem resolve_names (t : FileTree) (purpose : Purpose) (links : Nat)
    (place names : List String) (n : Node) (hn : t.at? (place ++ names) = some n)
    (hnames : ∀ name ∈ names, Path.IsName name)
    (hlink : ∀ target, n = .link target → purpose = .inspect) :
    t.resolve purpose links place names = .ok (place ++ names) := by
  induction names generalizing place with
  | nil => simp [resolve]
  | cons name names ih =>
    have hname := hnames name List.mem_cons_self
    have hpassed : ¬ (name == "" || name == ".") = true := by
      simp [hname.ne_empty, hname.ne_point]
    have hparent : ¬ (name == "..") = true := by simp [hname.ne_parent]
    have hstep : place ++ name :: names = (place ++ [name]) ++ names := by simp
    -- The place is a directory, and the name is one of its entries.
    obtain ⟨m, hm, hbelow⟩ : ∃ m, t.at? place = some m ∧ m.at? (name :: names) = some n := by
      rw [FileTree.at?, Node.at?_append] at hn
      exact Option.bind_eq_some_iff.1 hn
    obtain ⟨entries, k, rfl, hlookup, hk⟩ := Node.at?_cons_eq_some m n name names hbelow
    rw [resolve, hm]
    dsimp only
    rw [if_neg hpassed, if_neg hparent, hlookup]
    have hrest := ih (place ++ [name]) (hstep ▸ hn) fun u hu => hnames u (List.mem_cons_of_mem _ hu)
    cases k with
    | file bytes => rw [hrest, hstep]
    | directory below => rw [hrest, hstep]
    | link target =>
      -- A link has nothing below it, so its name is the last one.
      cases names with
      | cons next names => cases hk
      | nil =>
        cases hk
        simp [hlink target rfl]

end FileTree

namespace Disk

/-- A path is followed from the root or from the working directory. -/
theorem locate_eq_ok (d : Disk) (purpose : FileTree.Purpose) (path : String)
    (place : List String) (h : d.locate purpose path = .ok place) :
    path ≠ "" ∧ '\x00' ∉ path.toList ∧
      d.tree.resolve purpose FileTree.linkLimit
        (if Path.isAbsolute path.toList then [] else d.directory) (FileTree.steps path) =
          .ok place := by
  unfold locate at h
  by_cases hempty : path = ""
  · simp [hempty] at h
  by_cases hnul : '\x00' ∈ path.toList
  · simp [hempty, hnul] at h
  refine ⟨hempty, hnul, ?_⟩
  simpa [hempty, hnul] using h

end Disk

end Redeclaration
