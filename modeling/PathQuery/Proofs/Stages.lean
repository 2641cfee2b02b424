import PathQuery.Proofs.Session.Transparency

/-!
# Walking in two stages

A walk can be cut between any two of its steps: the first stage ends in matches, and the second one
starts from each of them in turn. A match holds all that the rest of a walk depends on, which is the
path so far, the bindings and the value. Scopes that are still open at the cut, and what the cache
holds by then, make no difference.

Results:
1. `Walk.found_append`: the matches of the second stage from those of the first one.
2. `Engine.walked_append`: so an engine may walk the stages one by one, and be asked other things
   in between.
-/

namespace PathQuery

/-- The matches of two parts of a path are those of the second part, from each match of the first
one. -/
theorem Walk.found_append (functions : Registry) (front back : List Step) (place : String)
    (value : Json) (bindings : Bindings) :
    found functions (front ++ back) place value bindings =
      (found functions front place value bindings).flatMap fun m =>
        found functions back m.path m.value m.bindings := by
  induction front generalizing place value bindings with
  | nil =>
    rw [List.nil_append, found_nil]
    cases hnull : value.isNull with
    | false => exact (List.flatMap_singleton _ _).symm
    | true =>
      -- A null at the cut is no match, and the second part has none from it either.
      obtain rfl : value = .null := by
        cases value with
        | null => rfl
        | _ => cases hnull
      exact found_null
  | cons step front ih =>
    rw [List.cons_append, found_cons, found_cons, List.flatMap_assoc]
    apply List.flatMap_congr
    intro branch _
    exact ih branch.place branch.value (bindings.bindAll branch.names)

namespace Engine

variable (settings : Settings)

/-- A walk from a value on an engine that has been asked things before: the matches, and the
bindings afterwards. -/
def walked (before : List Operation) (steps : List Step) (place : String) (value : Json)
    (bindings : Bindings) : List Match × Bindings :=
  let walk := Walk.along settings.functions steps place value
  ((walk.run bindings).inSession.run (Operation.memoryAfter settings before)).1

theorem walked_eq_found (before : List Operation) (steps : List Step) (place : String)
    (value : Json) (bindings : Bindings) :
    walked settings before steps place value bindings =
      (Walk.found settings.functions steps place value bindings, bindings) := by
  have hwalk : Session.Answers settings _ _ := Session.answers_inSession
    ((Walk.along settings.functions steps place value).run bindings)
  rw [Walk.yields_along settings.functions steps place value bindings] at hwalk
  exact Operation.run_memoryAfter hwalk before

/-- A walk along two parts of a path gives, in order, what walks along the second part give: one
from each match of the first part, which starts at its value, with its path and under its bindings.
The bindings are given back. -/
theorem walked_append (before before' : List Operation) (between : Match → List Operation)
    (front back : List Step) (place : String) (value : Json) (bindings : Bindings) :
    walked settings before (front ++ back) place value bindings =
      ((walked settings before' front place value bindings).1.flatMap fun m =>
        (walked settings (between m) back m.path m.value m.bindings).1, bindings) := by
  simp only [walked_eq_found]
  rw [Walk.found_append]

end Engine

end PathQuery
