import PathQuery.Proofs.Session.Transparency
import PathQuery.Proofs.Walk.Replay
import PathQuery.Proofs.Walk.Route

/-!
# The path of a match leads to that match

Each match comes with its own path, which names every key, position and function on the way. If
the path that was asked for has no filter, the path of a match can be asked for in its place: the
engine finds this one match again, under the same path and with the same value. Nothing is bound,
as nothing is left open.
-/

namespace PathQuery

namespace Engine

variable {settings : Settings} {document : Json} {path : String} {steps : List Step}

/-- The path of a match of a path without filters finds the match alone. -/
theorem matchesOf_path (hfunctions : settings.functions.Replayable)
    (hdocument : document.Regular) (hempty : document.isEmpty = false)
    (hsteps : ∀ step ∈ steps, step.isFilter = false) {m : Match}
    (hm : m ∈ Walk.found settings.functions steps Walk.root document .empty) :
    matchesOf settings .empty document m.path = .ok [⟨m.path, .empty, m.value⟩] := by
  obtain ⟨⟨trail, m⟩, hhit, rfl⟩ := List.mem_map.1 hm
  have hpath := Walk.path_of_mem_tracked hfunctions.keepsOrder hdocument.ordered hsteps hhit
  have hreadable := Walk.readable_of_mem_tracked hfunctions hdocument hhit
  have hread : (Path.read settings m.path).result = .ok (trail.map Hop.step) := by
    rw [hpath]
    exact Path.result_read_trail hreadable
  have hfound := Walk.found_of_mem_tracked hfunctions hdocument hhit Walk.root .empty
  show matchesOf settings .empty document m.path = .ok [⟨m.path, .empty, m.value⟩]
  rw [matchesOf_of_read hread, hempty, if_neg Bool.false_ne_true, hfound, ← hpath]

/-- A path without filters finds matches whose own paths find them again, each of them alone,
whatever the engine is asked before and in between. -/
theorem find_path_of_match {words : List String} (before between : List Operation)
    (hwords : Registry.ofWords? words = some settings.functions) (hordered : document.Ordered)
    (haddressable : document.Addressable) (hread : (Path.read settings path).result = .ok steps)
    (hsteps : ∀ step ∈ steps, step.isFilter = false) :
    ∃ found : List Match,
      ((find settings document path).run.run (Operation.memoryAfter settings before)).1 =
        .ok found ∧
      ∀ m ∈ found,
        ((find settings document m.path).run.run
          (Operation.memoryAfter settings (before ++ .find document path :: between))).1 =
            .ok [⟨m.path, .empty, m.value⟩] := by
  have hfunctions := (Registry.regular_ofWords? hwords).replayable
  have hdocument : document.Regular := ⟨hordered, haddressable⟩
  simp only [Operation.run_find_memoryAfter, matchesOf_of_read hread]
  cases hempty : document.isEmpty with
  | true => exact ⟨[], rfl, nofun⟩
  | false =>
    refine ⟨Walk.found settings.functions steps Walk.root document .empty, rfl, ?_⟩
    intro m hm
    exact matchesOf_path hfunctions hdocument hempty hsteps hm

/-- A key with a dot in it and a function on the way. The path of the match has the key that was
bound, with its dot escaped, and finds the match without a binding. -/
theorem find_path_of_match_first :
    let settings : Settings := ⟨.default, Registry.builtins.register .first⟩
    let document : Json := .object [("a.b", .array [.array [.bool true], .null])]
    let path := "$.$\x7bk\x7d[0].first()"
    ((find settings document path).run.run (Operation.memoryAfter settings [])).1 =
      .ok [⟨"$.a\\.b[0].first()", Dictionary.empty.insert "k" "a.b", .bool true⟩] ∧
    ((find settings document "$.a\\.b[0].first()").run.run
      (Operation.memoryAfter settings [.find document path, .parse "$."])).1 =
        .ok [⟨"$.a\\.b[0].first()", .empty, .bool true⟩] := by
  intro settings document path
  have hwords : Registry.ofWords? ["builtins", "first"] = some settings.functions := by rfl
  have hordered : document.Ordered := by decide
  have haddressable : document.Addressable := by
    simp [document, Json.Addressable, Json.AddressableMembers, Json.AddressableItems, UInt64.size]
  have hread : (Path.read ⟨.default, Registry.builtins.register .first⟩
      "$.$\x7bk\x7d[0].first()").result =
        .ok [.placeholder "k", .select (.index 0), .function "first"] := by
    decide +kernel
  obtain ⟨found, hfind, hagain⟩ :=
    find_path_of_match [] [.parse "$."] hwords hordered haddressable hread (by decide)
  have hfound : found =
      [⟨"$.a\\.b[0].first()", Dictionary.empty.insert "k" "a.b", .bool true⟩] := by
    rw [Operation.eq_of_run_find hread hfind]
    decide +kernel
  subst hfound
  rw [List.forall_mem_singleton] at hagain
  exact ⟨hfind, hagain⟩

end Engine

end PathQuery
