import PathQuery.Proofs.Session.Transparency
import PathQuery.Proofs.Walk.Again

/-!
# The path of a match under filters

A path with filters finds matches whose own paths show the filters with the values they found. Such
a path leads to its match again, beside others that the filters may let through. This needs that
the values can be read where they stand, as they are written without escapes: `Leg.Legible`. What a
document holds need not be so: a closing bracket before a dot ends the filter too early. The
registry has to be `Replayable`: a function is called again by its name, and gives a value that can
be walked like a document.
-/

namespace PathQuery

namespace Engine

variable {settings : Settings} {document : Json} {path : String} {steps : List Step}

/-- Each match of a path has a route to its value. If what the route shows of its filters is
legible, the path of the match can be parsed, and among the matches it finds is one with this path
and this value, whatever the engine is asked before and in between. -/
theorem find_path_of_legible (before between : List Operation)
    (hfunctions : settings.functions.Replayable) (hordered : document.Ordered)
    (haddressable : document.Addressable) (hread : (Path.read settings path).result = .ok steps) :
    ∃ (found : List Match) (routes : List Route),
      ((find settings document path).run.run (Operation.memoryAfter settings before)).1 =
        .ok found ∧
      List.Forall₂ (fun route (m : Match) =>
        Leads settings.functions steps document route m.value ∧ m.path = route.place Walk.root ∧
        ((∀ leg ∈ route, leg.Legible) →
          (∃ own, ((parse settings m.path).run.run
            (Operation.memoryAfter settings (before ++ .find document path :: between))).1 =
              .ok own) ∧
          ∃ again, ((find settings document m.path).run.run
            (Operation.memoryAfter settings (before ++ .find document path :: between))).1 =
              .ok again ∧
            ∃ same ∈ again, same.path = m.path ∧ same.value = m.value)) routes found := by
  have hdocument : document.Regular := ⟨hordered, haddressable⟩
  have hsteps := (Path.gives_read settings path).of_eq_ok hread
  simp only [Operation.run_find_memoryAfter, Operation.run_parse_memoryAfter,
    matchesOf_of_read hread]
  cases hempty : document.isEmpty with
  | true => exact ⟨[], [], rfl, .nil⟩
  | false =>
    obtain ⟨routes, -, hroutes⟩ :=
      Walk.exists_routes hfunctions.keepsOrder hordered steps Walk.root .empty
    refine ⟨_, routes, rfl, hroutes.imp ?_⟩
    rintro route m ⟨hleads, hnull, hmatch⟩
    have hpath : m.path = route.place Walk.root := congrArg Match.path hmatch
    refine ⟨hleads, hpath, fun hlegible => ?_⟩
    obtain ⟨own, parts, taken, hspelled, hown, hplace⟩ :=
      hleads.again hfunctions hdocument hsteps hlegible
    obtain ⟨hsame, hwritten⟩ := hplace Walk.root
    have hagain : (Path.read settings m.path).result = .ok own := by
      rw [hpath]
      exact Path.result_read_spelled hspelled hwritten
    refine ⟨⟨own, hagain⟩, _, matchesOf_of_read hagain .empty document, ?_⟩
    rw [hempty, if_neg Bool.false_ne_true]
    -- The clauses that are read may choose other elements too; the route taken is one of theirs.
    let same : Match := ⟨taken.place Walk.root, Bindings.bindAll .empty (taken.binds own), m.value⟩
    have hmem : (taken.trail, same) ∈
        Walk.tracked settings.functions own Walk.root document .empty :=
      (Walk.mem_tracked_iff hfunctions.keepsOrder hordered).2
        ⟨taken, m.value, hown, hnull, rfl, rfl⟩
    exact ⟨same, List.mem_map.2 ⟨_, hmem, rfl⟩, hsame.trans hpath.symm, rfl⟩

/-- A clause that binds what it finds beside one with alternatives. A bracket closes in what is
found, but before no dot, so the path of the match is read as it is meant. -/
theorem find_path_of_legible_alternatives :
    let settings : Settings := ⟨.default, .builtins⟩
    let document : Json := .array [.object [("a", .string "y"), ("b", .string "p]q")],
      .object [("a", .string "z")]]
    let path := "$[?(@.a=x||y && @.b=$\x7bb\x7d)].b"
    ∃ found : List Match,
      ((find settings document path).run.run (Operation.memoryAfter settings [.parse "$["])).1 =
        .ok found ∧
      found.map Match.path = ["$[?(@.a=x||y && @.b=p]q)].b"] ∧
      ∀ m ∈ found,
        (∃ own, ((parse settings m.path).run.run
          (Operation.memoryAfter settings [.parse "$[", .find document path])).1 = .ok own) ∧
        ∃ again, ((find settings document m.path).run.run
          (Operation.memoryAfter settings [.parse "$[", .find document path])).1 = .ok again ∧
          ∃ same ∈ again, same.path = m.path ∧ same.value = m.value := by
  intro settings document path
  have hwords : Registry.ofWords? ["builtins"] = some settings.functions := rfl
  have hordered : document.Ordered := by decide
  have haddressable : document.Addressable := by
    simp [document, Json.Addressable, Json.AddressableMembers, Json.AddressableItems, UInt64.size]
  let clauses : List Clause := [⟨"a", .oneOf "x||y" ["x", "y"]⟩, ⟨"b", .bind "b"⟩]
  have hread : (Path.read ⟨.default, .builtins⟩ "$[?(@.a=x||y && @.b=$\x7bb\x7d)].b").result =
      .ok [.select (.filter clauses), .key "b"] := by
    decide +kernel
  have hlegible : Filter.Legible clauses ["y", "p]q"] := by
    refine ⟨by decide, by decide, ?_, ?_⟩
    · refine .cons ?_ (.cons ?_ .nil)
      · rintro name ⟨⟩
      · exact fun _ _ => ⟨by decide, by decide, fun _ => by decide⟩
    · rintro clause text ⟨⟩
      decide
  -- A route goes through the first element, as the other one has nothing at `b`.
  have hroute (route : Route) (value : Json) (h : Leads settings.functions
      [.select (.filter clauses), .key "b"] document route value) :
      ∀ leg ∈ route, leg.Legible := by
    change Leads _ [.select (.filter [_, _]), _] (.array [.object _, .object _]) _ _ at h
    cases h with
    | step htakes hrest =>
      cases htakes with
      | enter hfilter => cases hfilter
      | @choose _ _ position child texts hchild htexts =>
        obtain ⟨_, _, ⟨first, hfirst, -, rfl⟩, hlater, rfl⟩ := List.forall₂_cons_left_iff.1 htexts
        obtain ⟨_, _, ⟨second, hsecond, -, rfl⟩, hnil, rfl⟩ := List.forall₂_cons_left_iff.1 hlater
        obtain rfl := List.forall₂_nil_left_iff.1 hnil
        rcases position with _ | _ | position
        · cases hchild
          cases hfirst
          cases hsecond
          obtain _ | ⟨⟨-, -, -⟩, ⟨⟩⟩ := hrest
          exact List.forall_mem_cons.2 ⟨hlegible, List.forall_mem_singleton.2 trivial⟩
        · cases hchild
          cases hsecond
        · cases hchild
  obtain ⟨found, routes, hfind, hroutes⟩ := find_path_of_legible [.parse "$["] []
    (Registry.regular_ofWords? hwords).replayable hordered haddressable hread
  refine ⟨found, hfind, ?_, ?_⟩
  · rw [Operation.eq_of_run_find hread hfind]
    decide +kernel
  · have hfound := hroutes.imp fun route m h =>
      And.intro (h.2.2 (hroute route m.value h.1)) trivial
    exact ((List.forall₂_and_left _ _).1 hfound.flip).1

/-- A closing bracket before a dot, in the text that a placeholder was bound to, ends the filter in
the path of the match, which cannot be parsed then. -/
theorem exists_match_of_unreadable_path :
    let settings : Settings := ⟨.default, .builtins⟩
    let document : Json := .array [.object [("i", .string "a].b")]]
    ∃ m error,
      ((find settings document "$[?(@.i=$\x7bi\x7d)]").run.run
        (Operation.memoryAfter settings [])).1 = .ok [m] ∧
      ((parse settings m.path).run.run (Operation.memoryAfter settings [])).1 = .error error := by
  intro settings document
  have hread : (Path.read ⟨.default, .builtins⟩ "$[?(@.i=$\x7bi\x7d)]").result =
      .ok [.select (.filter [⟨"i", .bind "i"⟩])] := by
    decide +kernel
  let m : Match := ⟨"$[?(@.i=a].b)]", Bindings.bindAll .empty [("i", "a].b")],
    .object [("i", .string "a].b")]⟩
  have hfound : Walk.found settings.functions [.select (.filter [⟨"i", .bind "i"⟩])] Walk.root
      document .empty = [m] := by
    decide +kernel
  have hagain : (Path.read ⟨.default, .builtins⟩ "$[?(@.i=a].b)]").result =
      .error (.openFilter "?(@.i=a") := by
    decide +kernel
  refine ⟨m, .openFilter "?(@.i=a", ?_, ?_⟩
  · rw [Operation.run_find_memoryAfter, matchesOf_of_read hread]
    exact congrArg Except.ok hfound
  · rw [Operation.run_parse_memoryAfter]
    exact hagain

end Engine

end PathQuery
