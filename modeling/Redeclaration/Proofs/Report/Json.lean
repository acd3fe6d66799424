import Redeclaration.Proofs.Json.Value
import Redeclaration.Proofs.Report

/-!
What can be told from a report in its JSON form. The text tells the value that is written, and
the value tells the scan paths, the counts and the entries of all collisions. Main statement: no
two runs with different results have the same report, whatever characters their names and paths
have.
-/

namespace Redeclaration

namespace Report

/-- The line break at the end of a report ends its value. -/
theorem value_eq_of_json (scanPaths others : List String) (f g : Findings)
    (h : json scanPaths f = json others g) : value scanPaths f = value others g := by
  have hstops : Json.Stops "\n".toList := by
    intro c hc
    cases hc
    decide
  have htext := congrArg String.toList h
  unfold json at htext
  rw [String.toList_append, String.toList_append] at htext
  exact (Json.write_cancels _ 0 _ _ _ hstops hstops htext).1

/-- The collisions of a run are told by the value of its report. -/
theorem collisions_eq_of_value (scanPaths others : List String) (f g : Findings)
    (ss ms : List Sighting) (hf : f.collisions = collisions ss) (hg : g.collisions = collisions ms)
    (h : value scanPaths f = value others g) : f.collisions = g.collisions := by
  -- The names of a run increase, so that its collisions are read in their order.
  have hread := collisions?_data scanPaths f (hf ▸ collisions_increasing ss)
  rw [h, collisions?_data others g (hg ▸ collisions_increasing ms)] at hread
  exact (Option.some.inj hread).symm

/-- Runs with the same report have the same scan paths, the same counts, and the same collisions
with their groups, names and locations, in the same order. -/
theorem json_injective (scanPaths others : List String) (f g : Findings)
    (hf : ∃ ss, f.collisions = collisions ss) (hg : ∃ ms, g.collisions = collisions ms)
    (h : json scanPaths f = json others g) :
    scanPaths = others ∧ f.filesAnalysed = g.filesAnalysed ∧
      f.filesExcluded = g.filesExcluded ∧ f.collisions = g.collisions := by
  obtain ⟨ss, hss⟩ := hf
  obtain ⟨ms, hms⟩ := hg
  have hvalue := value_eq_of_json scanPaths others f g h
  have hcollisions := collisions_eq_of_value scanPaths others f g ss ms hss hms hvalue
  simp only [value, Json.Value.object.injEq, List.cons.injEq, Prod.mk.injEq,
    Json.Value.list.injEq, Json.Value.number.injEq, true_and] at hvalue
  obtain ⟨hpaths, hanalysed, hexcluded, -⟩ := hvalue
  have htexts : Function.Injective Json.Value.text := fun _ _ hab => Json.Value.text.inj hab
  exact ⟨htexts.list_map hpaths, hanalysed, hexcluded, hcollisions⟩

/-- Two sightings of a name with a quote and a line break, at paths with a backslash. -/
def quotedSightings : List Sighting :=
  [⟨.function, "a\"\n", ⟨"b\\c", 1⟩⟩, ⟨.function, "a\"\n", ⟨"b\\\x01", 2⟩⟩]

/-- Sightings in another order give the same report, and so the same collisions. -/
theorem json_injective_quoted :
    json ["\"],"] ⟨2, 1, collisions quotedSightings⟩ =
        json ["\"],"] ⟨2, 1, collisions quotedSightings.reverse⟩ ∧
      collisions quotedSightings = collisions quotedSightings.reverse := by
  have hforward : collisions quotedSightings =
      [⟨.function, "a\"\n", [⟨"b\\\x01", 2⟩, ⟨"b\\c", 1⟩]⟩] := by
    cbv
  have hbackward : collisions quotedSightings.reverse =
      [⟨.function, "a\"\n", [⟨"b\\\x01", 2⟩, ⟨"b\\c", 1⟩]⟩] := by
    cbv
  have hjson : json ["\"],"] ⟨2, 1, collisions quotedSightings⟩ =
      json ["\"],"] ⟨2, 1, collisions quotedSightings.reverse⟩ := by
    rw [hforward, hbackward]
  obtain ⟨-, -, -, hsame⟩ := json_injective _ _ _ _ ⟨_, rfl⟩ ⟨_, rfl⟩ hjson
  exact ⟨hjson, hsame⟩

end Report

end Redeclaration
