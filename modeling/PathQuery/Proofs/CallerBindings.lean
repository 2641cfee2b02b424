import Mathlib.Data.List.Forall2
import PathQuery.Proofs.Session.Transparency
import PathQuery.Proofs.Walk.Overlay

/-!
# The bindings of a caller

A search may be given bindings, which it hands back. They decide neither whether it fails nor what
it finds: two searches that differ in these bindings alone, on engines that may have been asked
different things before, find the same matches in the same order. Each match shows the bindings
that were given, with its own on top.
-/

namespace PathQuery

namespace Engine

theorem matchesOf_eq_map_onTopOf (settings : Settings) (bindings : Bindings) (document : Json)
    (path : String) :
    matchesOf settings bindings document path =
      (matchesOf settings .empty document path).map (List.map (Match.onTopOf · bindings)) := by
  unfold matchesOf
  cases (Path.read settings path).result with
  | error error => rfl
  | ok steps =>
    refine congrArg Except.ok ?_
    cases document.isEmpty with
    | true => rfl
    | false => exact Walk.found_onTopOf _ _ _ _ bindings .empty

/-- A search under bindings gives them back. It fails exactly if the search under none does, with
the same error. Otherwise it finds the same paths and values in the same order, and what a match
binds counts before what the caller has bound. -/
theorem findUnder_bindings (settings : Settings) (before before' : List Operation)
    (bindings : Bindings) (document : Json) (path : String) :
    ∃ outcome fresh : Except QueryError (List Match),
      ((findUnder settings bindings document path).run (Operation.memoryAfter settings before)).1 =
        (outcome, bindings) ∧
      ((findUnder settings .empty document path).run (Operation.memoryAfter settings before')).1 =
        (fresh, .empty) ∧
      (∀ error, outcome = .error error ↔ fresh = .error error) ∧
      (∀ found, fresh = .ok found → ∃ under, outcome = .ok under ∧
        List.Forall₂ (fun m own : Match => m.path = own.path ∧ m.value = own.value ∧
          ∀ name, m.bindings.get? name = (own.bindings.get? name).or (bindings.get? name))
          under found) := by
  refine ⟨_, _, Operation.run_findUnder_memoryAfter settings before bindings document path,
    Operation.run_findUnder_memoryAfter settings before' .empty document path, ?_, ?_⟩
  · intro error
    rw [matchesOf_eq_map_onTopOf]
    cases matchesOf settings .empty document path with
    | error own => exact Iff.rfl
    | ok found => exact ⟨nofun, nofun⟩
  · intro found hfound
    refine ⟨found.map (Match.onTopOf · bindings), ?_, ?_⟩
    · rw [matchesOf_eq_map_onTopOf, hfound]
      rfl
    · refine List.forall₂_map_left_iff.2 (List.forall₂_same.2 ?_)
      intro m _
      exact ⟨rfl, rfl, Bindings.get?_onTopOf m.bindings bindings⟩

end Engine

end PathQuery
