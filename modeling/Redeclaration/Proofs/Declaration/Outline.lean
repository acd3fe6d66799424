import Mathlib.Data.List.Basic
import Mathlib.Data.Nat.Basic
import Mathlib.Order.Basic
import Redeclaration.Declaration.Scan

/-!
The outline of a token list: its captures and its declarations, told by the
positions of their tokens and without a state. The lemmas compare a list with
the same list and more tokens after it.
-/

namespace Redeclaration.Outline

/-- Whether the token at an index opens a capture: the keyword of a namespace
or of a declaration, for functions and constants only outside of imports. -/
def opensAt (ts : List Token) (i : Nat) : Bool :=
  match ts[i]?.map Token.kind with
  | some (.keyword .namespaceKw) | some (.keyword .classKw) | some (.keyword .interfaceKw)
  | some (.keyword .traitKw) | some (.keyword .enumKw) => true
  | some (.keyword .functionKw) | some (.keyword .constKw) => !withinUse ts i
  | _ => false

/-- The tokens that may stand inside of a capture. -/
def passes (t : Token) : Bool :=
  t.isTrivia || t.kind.isNameFragment

/-- The least index after `i` whose token is neither trivia nor a part of a
name. -/
def stop? (ts : List Token) (i : Nat) : Option Nat :=
  ((ts.drop (i + 1)).findIdx? fun t => !passes t).map (i + 1 + ·)

/-- The parts of names between two indices, put together. -/
def nameBetween (ts : List Token) (i j : Nat) : String :=
  String.join ((((ts.take j).drop (i + 1)).filter (·.kind.isNameFragment)).map (·.text))

/-- The index at which the capture opened at `i` is completed. One that runs
into another opening, or into the end of the list, never is. -/
def completion? (ts : List Token) (i : Nat) : Option Nat :=
  if opensAt ts i then (stop? ts i).filter fun j => !opensAt ts j else none

def opensBrace (t : Token) : Bool :=
  t.kind == .openBrace || t.kind == .curlyOpen || t.kind == .dollarOpen

/-- The braces that a list of tokens opens, less those that it closes. -/
def braces (ts : List Token) : Int :=
  ts.countP opensBrace - ts.countP (·.kind == .closeBrace)

/-- The brace level at an index, where the brace of an interpolation counts for
its own index already. -/
def level (ts : List Token) (j : Nat) : Int :=
  braces (ts.take j) + if ts[j]?.any (·.kind.opensInterpolation) then 1 else 0

/-- The index of a namespace that is completed, and that of its completion. -/
def spaceAt? (ts : List Token) (k : Nat) : Option (Nat × Nat) :=
  if ts[k]?.any (·.isKeyword .namespaceKw) then (completion? ts k).map (k, ·) else none

/-- The completed namespaces that are opened before an index. -/
def spaces (ts : List Token) (i : Nat) : List (Nat × Nat) :=
  (List.range i).filterMap (spaceAt? ts)

/-- The name of the namespace at an index with a backslash after it, or nothing
for a namespace without a name. -/
def qualifier (ts : List Token) (i : Nat) : String :=
  match (spaces ts i).getLast? with
  | none => ""
  | some (k, j) => if nameBetween ts k j = "" then "" else nameBetween ts k j ++ "\\"

/-- The number of braces around the members of the namespace at an index. -/
def depth (ts : List Token) (i : Nat) : Int :=
  match (spaces ts i).getLast? with
  | none => 0
  | some (_, j) => if ts[j]?.any (·.kind == .openBrace) then 1 else 0

/-- The group of the names that a token declares. -/
def group? (t : Token) : Option Group :=
  match t.kind with
  | .keyword k => Group.ofKeyword? k
  | _ => none

/-- The declaration whose keyword stands at an index: its capture is completed
on the level of the members of its namespace, and has a name. -/
def declarationAt? (ts : List Token) (i : Nat) : Option Declaration :=
  match ts[i]?, completion? ts i with
  | some t, some j =>
    (group? t).bind fun g =>
      if nameBetween ts i j ≠ "" ∧ level ts j = depth ts i then
        some ⟨g, qualifier ts i ++ nameBetween ts i j, t.line⟩
      else none
  | _, _ => none

/-- The declarations of a token list, in the order of their keywords. -/
def declarations (ts : List Token) : List Declaration :=
  (List.range ts.length).filterMap (declarationAt? ts)

theorem withinUse_append (ts us : List Token) (i : Nat) (hi : i ≤ ts.length) :
    withinUse (ts ++ us) i = withinUse ts i := by
  unfold withinUse
  rw [List.take_append_of_le_length hi]

theorem withinUse_snoc (ts : List Token) (t : Token) :
    withinUse (ts ++ [t]) (ts.length + 1) =
      if t.kind.isIgnorable then withinUse ts ts.length else t.isKeyword .useKw := by
  have hall : (ts ++ [t]).take (ts.length + 1) = ts ++ [t] := by
    apply List.take_of_length_le
    simp
  unfold withinUse
  rw [hall, List.take_length, List.reverse_append, List.reverse_singleton,
    List.singleton_append, List.find?_cons]
  cases t.kind.isIgnorable <;> rfl

theorem opensAt_append (ts us : List Token) (i : Nat) (hi : i < ts.length) :
    opensAt (ts ++ us) i = opensAt ts i := by
  unfold opensAt
  rw [List.getElem?_append_left hi, withinUse_append ts us i (Nat.le_of_lt hi)]

/-- A position opens a capture exactly if the scan starts one there. -/
theorem opensAt_eq_start (ts : List Token) (i : Nat) (t : Token) (ht : ts[i]? = some t) :
    opensAt ts i = (Capture.start? (withinUse ts i) t).isSome := by
  unfold opensAt Capture.start?
  rw [ht, Option.map_some]
  cases hk : t.kind with
  | keyword k => cases k <;> cases withinUse ts i <;> rfl
  | _ => rfl

theorem lt_length_of_opensAt (ts : List Token) (i : Nat) (h : opensAt ts i = true) :
    i < ts.length := by
  by_contra hi
  unfold opensAt at h
  rw [List.getElem?_eq_none (by omega)] at h
  cases h

theorem stop?_append_of_some (ts us : List Token) (i j : Nat) (h : stop? ts i = some j) :
    stop? (ts ++ us) i = some j := by
  unfold stop? at h ⊢
  obtain ⟨m, hm, hj⟩ := Option.map_eq_some_iff.1 h
  have hi : i + 1 ≤ ts.length := by
    by_contra hn
    rw [List.drop_of_length_le (by omega)] at hm
    cases hm
  rw [List.drop_append_of_le_length hi, List.findIdx?_append, hm, Option.some_or,
    Option.map_some, hj]

theorem stop?_snoc_of_none (ts : List Token) (t : Token) (i : Nat) (hi : i < ts.length)
    (h : stop? ts i = none) :
    stop? (ts ++ [t]) i = if passes t then none else some ts.length := by
  unfold stop? at h ⊢
  have hm := Option.map_eq_none_iff.1 h
  have hn : i + 1 + (ts.length - (i + 1)) = ts.length := by omega
  rw [List.drop_append_of_le_length hi, List.findIdx?_append, hm, Option.none_or,
    List.findIdx?_singleton, List.length_drop]
  cases passes t
  · simp [Nat.add_comm, hn]
  · rfl

theorem stop?_bounds (ts : List Token) (i j : Nat) (h : stop? ts i = some j) :
    i < j ∧ j < ts.length := by
  obtain ⟨m, hm, hj⟩ := Option.map_eq_some_iff.1 h
  obtain ⟨hlt, -⟩ := List.findIdx?_eq_some_iff_getElem.1 hm
  rw [List.length_drop] at hlt
  omega

/-- A capture without a stop is followed by trivia and parts of names only. -/
theorem passes_of_stop?_none (ts : List Token) (i : Nat) (h : stop? ts i = none) (t : Token)
    (ht : t ∈ ts.drop (i + 1)) : passes t = true := by
  have hm := List.findIdx?_eq_none_iff.1 (Option.map_eq_none_iff.1 h) t ht
  simpa using hm

theorem nameBetween_append (ts us : List Token) (i j : Nat) (hj : j ≤ ts.length) :
    nameBetween (ts ++ us) i j = nameBetween ts i j := by
  unfold nameBetween
  rw [List.take_append_of_le_length hj]

theorem nameBetween_snoc (ts : List Token) (t : Token) (i : Nat) (hi : i < ts.length) :
    nameBetween (ts ++ [t]) i (ts.length + 1) =
      nameBetween ts i ts.length ++ if t.kind.isNameFragment then t.text else "" := by
  have hall : (ts ++ [t]).take (ts.length + 1) = ts ++ [t] := by
    apply List.take_of_length_le
    simp
  unfold nameBetween
  rw [hall, List.take_length, List.drop_append_of_le_length hi, List.filter_append,
    List.map_append, String.join_append]
  cases hf : t.kind.isNameFragment
  · simp [hf]
  · simp [hf]

theorem nameBetween_last (ts : List Token) (t : Token) :
    nameBetween (ts ++ [t]) ts.length (ts.length + 1) = "" := by
  unfold nameBetween
  rw [List.drop_of_length_le (by simp)]
  rfl

theorem braces_snoc (ts : List Token) (t : Token) :
    braces (ts ++ [t]) = braces ts +
      (if opensBrace t then 1 else 0) - (if t.kind == .closeBrace then 1 else 0) := by
  unfold braces
  rw [List.countP_append, List.countP_append, List.countP_singleton, List.countP_singleton]
  push_cast
  split <;> split <;> omega

end Redeclaration.Outline
