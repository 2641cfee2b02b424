import PathQuery.Proofs.Session.Transparency
import PathQuery.Proofs.Walk.Overlay
import PathQuery.Proofs.Walk.Route

/-!
# What a match binds

The bindings of a match are those of its own route, which its path shows. Each placeholder on the
way is bound, in a step or in a clause of a filter, and the last one of a name counts. What another
branch of the walk has bound is never seen, whether that branch came to a match or ended early.
-/

namespace PathQuery

namespace Engine

variable {settings : Settings} {document : Json} {path : String} {steps : List Step}

/-- After any operations, each match of a path has a route of its own to its value, and its path is
that of the route. The match binds the names of the placeholders of the path and no others, each of
them to the text of its last occurrence on this route. -/
theorem exists_find_routes (before : List Operation) (hfunctions : settings.functions.KeepsOrder)
    (hdocument : document.Ordered) (hread : (Path.read settings path).result = .ok steps) :
    ∃ (found : List Match) (routes : List Route),
      ((find settings document path).run.run (Operation.memoryAfter settings before)).1 =
        .ok found ∧
      routes.Nodup ∧
      List.Forall₂ (fun route (m : Match) =>
        Leads settings.functions steps document route m.value ∧
        m.path = route.place Walk.root ∧
        (∀ name, name ∈ m.bindings.names ↔ ∃ step ∈ steps, name ∈ step.names) ∧
        ∀ name text, m.bindings.get? name = some text ↔
          Bindings.IsLast (route.binds steps) name text) routes found := by
  rw [Operation.run_find_memoryAfter, matchesOf_of_read hread]
  cases document.isEmpty with
  | true => exact ⟨[], [], rfl, .nil, .nil⟩
  | false =>
    obtain ⟨routes, hnodup, hroutes⟩ :=
      Walk.exists_routes hfunctions hdocument steps Walk.root .empty
    refine ⟨_, routes, rfl, hnodup, hroutes.imp ?_⟩
    rintro route m ⟨hleads, -, hmatch⟩
    have hlast (name text : String) : m.bindings.get? name = some text ↔
        Bindings.IsLast (route.binds steps) name text := by
      rw [hmatch]
      exact Bindings.get?_bindAll_empty_iff
    refine ⟨hleads, congrArg Match.path hmatch, fun name => ?_, hlast⟩
    rw [Dictionary.mem_names_iff, ← List.mem_flatMap, ← hleads.map_binds]
    simp only [hlast, Bindings.exists_isLast_iff]

/-- A name bound twice, on two routes to equal values: each match has the text of its own route. The
branches beside them end at null, at a missing member, at a clause that does not hold and in a
function that fails. -/
theorem exists_find_routes_of_shadowed :
    let settings : Settings := ⟨.default, .builtins⟩
    let document : Json := .object [
      ("a", .array [.object [("id", .string "x"), ("n", .array [.bool true, .bool false])],
        .object [("id", .null)], .object [("id", .string "y"), ("n", .array [.null, .bool true])],
        .object [("id", .string "z"), ("n", .array [.bool true])]]),
      ("b", .null), ("c", .bool true)]
    let path := "$.$\x7bid\x7d[?(@.id=$\x7bid\x7d)].n.max()"
    let steps : List Step :=
      [.placeholder "id", .select (.filter [⟨"id", .bind "id"⟩]), .key "n", .function "max"]
    ((find settings document path).run.run
      (Operation.memoryAfter settings [.parse "$.["])).1 = .ok
        [⟨"$.a[?(@.id=x)].n.max()", Dictionary.empty.insert "id" "x", .bool true⟩,
          ⟨"$.a[?(@.id=z)].n.max()", Dictionary.empty.insert "id" "z", .bool true⟩] ∧
    ∃ first second : Route, first ≠ second ∧
      Leads settings.functions steps document first (.bool true) ∧
      Leads settings.functions steps document second (.bool true) ∧
      first.place Walk.root = "$.a[?(@.id=x)].n.max()" ∧
      second.place Walk.root = "$.a[?(@.id=z)].n.max()" ∧
      Bindings.IsLast (first.binds steps) "id" "x" ∧
      Bindings.IsLast (second.binds steps) "id" "z" := by
  intro settings document path steps
  have hwords : Registry.ofWords? ["builtins"] = some settings.functions := rfl
  have hfunctions : settings.functions.KeepsOrder := (Registry.regular_ofWords? hwords).keepsOrder
  have hordered : document.Ordered := by decide
  have hread :
      (Path.read ⟨.default, .builtins⟩ "$.$\x7bid\x7d[?(@.id=$\x7bid\x7d)].n.max()").result =
        .ok [.placeholder "id", .select (.filter [⟨"id", .bind "id"⟩]), .key "n",
          .function "max"] := by
    decide +kernel
  obtain ⟨found, routes, hfind, hnodup, hroutes⟩ :=
    exists_find_routes [.parse "$.["] hfunctions hordered hread
  have hfound : found =
      [⟨"$.a[?(@.id=x)].n.max()", Dictionary.empty.insert "id" "x", .bool true⟩,
        ⟨"$.a[?(@.id=z)].n.max()", Dictionary.empty.insert "id" "z", .bool true⟩] := by
    rw [Operation.eq_of_run_find hread hfind]
    decide +kernel
  subst hfound
  refine ⟨hfind, ?_⟩
  obtain ⟨first, _, ⟨hfirst, hplace, -, hx⟩, hrest, rfl⟩ := List.forall₂_cons_right_iff.1 hroutes
  obtain ⟨second, _, ⟨hsecond, hplace', -, hz⟩, hnil, rfl⟩ := List.forall₂_cons_right_iff.1 hrest
  obtain rfl := List.forall₂_nil_right_iff.1 hnil
  have hne : first ≠ second := List.ne_of_not_mem_cons (List.nodup_cons.1 hnodup).1
  exact ⟨first, second, hne, hfirst, hsecond, hplace.symm, hplace'.symm,
    (hx "id" "x").1 (by decide +kernel), (hz "id" "z").1 (by decide +kernel)⟩

end Engine

end PathQuery
