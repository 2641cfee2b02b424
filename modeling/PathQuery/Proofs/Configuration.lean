import PathQuery.Proofs.Session.Transparency
import PathQuery.Proofs.Walk.Notices

/-!
# Mistakes in a path surface when it is parsed

A path that can be parsed is a valid one: its functions are registered and stand last, its filters
have clauses, and where it asks for a list it selects from it. No document can bring such a mistake
to light later. What a search still reports is about the values it has met, and it fails for a
document exactly if the path cannot be parsed at all.
-/

namespace PathQuery

namespace Engine

/-- Parsing fails with a parse or a configuration error, or gives valid steps. If no function gives
a configuration error of its own, no clause and no function of these steps gives one, whatever the
document is, and no walk reports one. A search fails exactly with the errors of parsing. -/
theorem parse_settles_configuration (settings : Settings) (before : List Operation)
    (path : String) :
    let parsed := ((parse settings path).run.run (Operation.memoryAfter settings before)).1
    (∀ error, parsed = .error error → error.kind = .parse ∨ error.kind = .config) ∧
    (∀ steps, parsed = .ok steps →
      (∀ step ∈ steps, step.Valid settings.functions) ∧ Path.Followed steps ∧
      (settings.functions.NoConfig →
        (∀ clauses, .select (.filter clauses) ∈ steps → ∀ clause ∈ clauses, ∀ element error,
          (Filter.valueIn settings.functions clause.path element).result = .error error →
            error.kind ≠ .config) ∧
        (∀ name, .function name ∈ steps → ∀ value error,
          settings.functions.evaluate name value = .error error → error.kind ≠ .config) ∧
        ∀ document bindings, ∀ notice ∈
          ((Walk.along settings.functions steps Walk.root document).run bindings).notices,
            notice.NoConfig)) ∧
    ∀ (document : Json) (between : List Operation) (error : QueryError),
      ((find settings document path).run.run (Operation.memoryAfter settings between)).1 =
        .error error ↔ parsed = .error error := by
  simp only [Operation.run_parse_memoryAfter, Operation.run_find_memoryAfter]
  have hread := Path.gives_read settings path
  refine ⟨fun error => hread.of_eq_error, fun steps hsteps => ?_, fun document _ error => ?_⟩
  · have hvalid := hread.of_eq_ok hsteps
    refine ⟨hvalid, Path.followed_of_result_read hsteps, fun hfunctions => ⟨?_, ?_, ?_⟩⟩
    · intro clauses hclauses clause hclause element error
      exact ((hvalid _ hclauses).2 clause hclause).kind_of_valueIn hfunctions
    · intro name hname value error
      exact Registry.kind_of_evaluate hfunctions (hvalid _ hname)
    · intro document bindings
      exact Walk.writes_along hfunctions hvalid Walk.root document bindings
  · unfold matchesOf
    cases (Path.read settings path).result with
    | error own =>
      constructor
      · rintro ⟨⟩
        rfl
      · rintro ⟨⟩
        rfl
    | ok steps => exact ⟨nofun, nofun⟩

/-- A clause with blanks around its function, which fails on some elements, before a function that
always fails. -/
theorem parse_settles_configuration_of_fail :
    let settings : Settings := ⟨.default, Registry.builtins.register .fail⟩
    let path := "$.a.[?(@.b. max ( ) =1)].fail()"
    let steps : List Step := [.key "a", .passthrough,
      .select (.filter [⟨"b. max ( )", .oneOf "1" ["1"]⟩]), .function "fail"]
    settings.functions.NoConfig ∧
    ((parse settings path).run.run
      (Operation.memoryAfter settings [.parse "$.a[?(@.b.none()=1)]"])).1 = .ok steps ∧
    (∀ step ∈ steps, step.Valid settings.functions) ∧ Path.Followed steps ∧
    (∀ clauses, .select (.filter clauses) ∈ steps → ∀ clause ∈ clauses, ∀ element error,
      (Filter.valueIn settings.functions clause.path element).result = .error error →
        error.kind ≠ .config) ∧
    (∀ name, .function name ∈ steps → ∀ value error,
      settings.functions.evaluate name value = .error error → error.kind ≠ .config) ∧
    ∀ document bindings, ∀ notice ∈
      ((Walk.along settings.functions steps Walk.root document).run bindings).notices,
        notice.NoConfig := by
  intro settings path steps
  have hwords : Registry.ofWords? ["builtins", "fail"] = some settings.functions := rfl
  have hfunctions := Registry.noConfig_ofWords? hwords
  have hparse : ((parse settings path).run.run
      (Operation.memoryAfter settings [.parse "$.a[?(@.b.none()=1)]"])).1 = .ok steps := by
    rw [Operation.run_parse_memoryAfter]
    decide +kernel
  obtain ⟨hvalid, hfollowed, hrun⟩ :=
    (parse_settles_configuration settings [.parse "$.a[?(@.b.none()=1)]"] path).2.1 steps hparse
  exact ⟨hfunctions, hparse, hvalid, hfollowed, hrun hfunctions⟩

end Engine

end PathQuery
