import Mathlib.Data.List.Perm.Subperm
import PathQuery.Proofs.Session.Transparency
import PathQuery.Proofs.Walk.Location

/-!
# Matching is sound, complete and ordered

The matches that an engine lists for a path without functions are the locations that the steps of
the path accept, in the order of the document. Each of them is listed once, with the value that is
there. Nothing else is a match, and nothing that the engine has done before matters.
-/

namespace PathQuery

namespace Engine

variable {settings : Settings} {document : Json} {path : String} {steps : List Step}

/-- A path that can be read finds what its walk finds, except in an empty list or object. -/
theorem matchesOf_eq_found (hobject : document ≠ .object []) (harray : document ≠ .array [])
    (hread : (Path.read settings path).result = .ok steps) (bindings : Bindings) :
    matchesOf settings bindings document path =
      .ok (Walk.found settings.functions steps Walk.root document bindings) := by
  rw [matchesOf_of_read hread]
  refine congrArg Except.ok ?_
  split
  · next hempty =>
    cases document with
    | null => exact Walk.found_null.symm
    | array items => exact absurd (congrArg Json.array (List.isEmpty_iff.1 hempty)) harray
    | object members => exact absurd (congrArg Json.object (List.isEmpty_iff.1 hempty)) hobject
    | _ => cases hempty
  · rfl

/-- After any operations, the matches of a path without functions are, one by one and in the order
of the document, its locations that the steps accept and that are not null. -/
theorem exists_find_locations (before : List Operation) (hdocument : document.Ordered)
    (hobject : document ≠ .object []) (harray : document ≠ .array [])
    (hread : (Path.read settings path).result = .ok steps)
    (hsteps : ∀ step ∈ steps, step.isFunction = false) :
    ∃ (found : List Match) (locations : List Location),
      ((find settings document path).run.run (Operation.memoryAfter settings before)).1 =
        .ok found ∧
      locations.Pairwise Location.Before ∧ locations.Nodup ∧
      (∀ location, location ∈ locations ↔ Accepts settings.functions steps document location ∧
        ∃ value, document.at? location = some value ∧ value ≠ .null) ∧
      List.Forall₂ (fun location (m : Match) => document.at? location = some m.value)
        locations found := by
  obtain ⟨locations, hordered, hnodup, hmem, hvalues⟩ :=
    Walk.exists_locations hsteps hdocument Walk.root .empty
  refine ⟨_, locations, ?_, hordered, hnodup, ?_, hvalues⟩
  · rw [Operation.run_find_memoryAfter, matchesOf_eq_found hobject harray hread]
  · intro location
    have hnull (value : Json) : value.isNull = false ↔ value ≠ .null := by
      cases value with
      | _ => simp [Json.isNull]
    simp only [hmem, hnull]

/-- Two matches in one list, past an element that is null and one that a filter drops. Their
locations are the second and the fourth element, and no others are accepted. -/
theorem exists_find_locations_of_filter :
    let settings : Settings := ⟨.default, .builtins⟩
    let document : Json := .object [("a", .array [.null, .object [("b", .bool true)],
      .object [("b", .string "no")], .object [("b", .string "x")]]), ("c", .null)]
    let steps : List Step := [.placeholder "k", .passthrough,
      .select (.filter [⟨"b", .oneOf "true || x" ["true ", " x"]⟩])]
    ∃ found : List Match,
      ((find settings document "$.$\x7bk\x7d.[?(@.b=true || x)]").run.run
        (Operation.memoryAfter settings [.parse "$.["])).1 = .ok found ∧
      found.map Match.value = [.object [("b", .bool true)], .object [("b", .string "x")]] ∧
      ∀ location, (Accepts settings.functions steps document location ∧
        ∃ value, document.at? location = some value ∧ value ≠ .null) ↔
          location = [.member "a", .element 1] ∨ location = [.member "a", .element 3] := by
  intro settings document steps
  have hordered : document.Ordered := by decide
  have hobject : document ≠ .object [] := by simp [document]
  have harray : document ≠ .array [] := by simp [document]
  have hread : (Path.read ⟨.default, .builtins⟩ "$.$\x7bk\x7d.[?(@.b=true || x)]").result =
      .ok [.placeholder "k", .passthrough,
        .select (.filter [⟨"b", .oneOf "true || x" ["true ", " x"]⟩])] := by
    decide +kernel
  obtain ⟨found, locations, hfind, -, -, hmem, hvalues⟩ :=
    exists_find_locations [.parse "$.["] hordered hobject harray hread (by decide)
  have hfound : found.map Match.value =
      [.object [("b", .bool true)], .object [("b", .string "x")]] := by
    rw [Operation.eq_of_run_find hread hfind]
    decide +kernel
  have htrue : Accepts settings.functions steps document [.member "a", .element 1] := by
    refine .enter rfl trivial (.stay (.enter rfl ?_ .done))
    exact List.forall_mem_singleton.2
      ⟨.bool true, by decide +kernel, "true ", by decide, by decide +kernel⟩
  have hx : Accepts settings.functions steps document [.member "a", .element 3] := by
    refine .enter rfl trivial (.stay (.enter rfl ?_ .done))
    exact List.forall_mem_singleton.2
      ⟨.string "x", by decide +kernel, " x", by decide, by decide +kernel⟩
  -- There are as many locations as matches, so these two are all.
  have hall : [[Edge.member "a", .element 1], [.member "a", .element 3]].Perm locations := by
    have hsubset : [[Edge.member "a", .element 1], [.member "a", .element 3]] ⊆ locations := by
      have hfirst := (hmem _).2 ⟨htrue, _, rfl, nofun⟩
      have hsecond := (hmem _).2 ⟨hx, _, rfl, nofun⟩
      exact List.cons_subset.2 ⟨hfirst, List.cons_subset.2 ⟨hsecond, List.nil_subset _⟩⟩
    refine (List.subperm_of_subset (by decide) hsubset).perm_of_length_le ?_
    rw [hvalues.length_eq, ← List.length_map Match.value, hfound]
    exact Nat.le_refl 2
  refine ⟨found, hfind, hfound, fun location => ?_⟩
  rw [← hmem, ← hall.mem_iff, List.mem_pair]

end Engine

end PathQuery
