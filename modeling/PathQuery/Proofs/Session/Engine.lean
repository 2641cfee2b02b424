import PathQuery.Proofs.Session.Coherence
import PathQuery.Proofs.Walk.Branch

/-!
# The answers of an engine

What an engine answers is told here without a cache, a log or scopes: reading a path is
`Path.read`, and walking a document is `Walk.found`.

Results:
1. `answers_findUnder`, `answers_find`: the matches of a path are `Engine.matchesOf` on every
   coherent cache, and the bindings given are given back. `leaves_findUnder` says what is kept.
2. `answers_valueIn`: so is the value of an expression.
3. `answers_readAttribute`: an attribute is `Engine.attributeIn`, by the two look-ups it makes.
-/

namespace PathQuery.Engine

open Session

def matchesOf (settings : Settings) (bindings : Bindings) (document : Json) (path : String) :
    Except QueryError (List Match) := do
  let steps ← (Path.read settings path).result
  return if document.isEmpty then []
    else Walk.found settings.functions steps Walk.root document bindings

theorem matchesOf_of_read {settings : Settings} {path : String} {steps : List Step}
    (hread : (Path.read settings path).result = .ok steps) (bindings : Bindings) (document : Json) :
    matchesOf settings bindings document path =
      .ok (if document.isEmpty then []
        else Walk.found settings.functions steps Walk.root document bindings) := by
  unfold matchesOf
  rw [hread]
  rfl

theorem matchesOf_of_error {settings : Settings} {path : String} {error : QueryError}
    (hread : (Path.read settings path).result = .error error) (bindings : Bindings)
    (document : Json) : matchesOf settings bindings document path = .error error := by
  unfold matchesOf
  rw [hread]
  rfl

variable (settings : Settings)

theorem answers_parse (path : String) :
    Answers settings (parse settings path).run (Path.read settings path).result :=
  answers_stepsOf path

/-- A search in a document that is not empty keeps the path, and the pieces that reading it and
walking the document ask for. It gives the bindings back. -/
theorem leaves_findUnder (bindings : Bindings) {document : Json} {path : String}
    {steps : List Step} (hread : (Path.read settings path).result = .ok steps)
    (hempty : document.isEmpty = false) :
    Leaves settings (findUnder settings bindings document path)
      (.ok (Walk.found settings.functions steps Walk.root document bindings), bindings) [path]
      ((Path.read settings path).run.requests ++
        ((Walk.along settings.functions steps Walk.root document).run bindings).requests) := by
  have hparse : Leaves settings (parse settings path).run (.ok steps) [path]
      (Path.read settings path).run.requests := by
    have hleaves : Leaves settings (stepsOf path _).run _ _ _ := leaves_stepsOf path
    rw [hread] at hleaves
    exact hleaves
  have hwalk : Leaves settings
      ((Walk.along settings.functions steps Walk.root document).run bindings).inSession
      (Walk.found settings.functions steps Walk.root document bindings, bindings) []
      ((Walk.along settings.functions steps Walk.root document).run bindings).requests :=
    Walk.yields_along settings.functions steps Walk.root document bindings ▸
      leaves_inSession _
  unfold findUnder
  rw [← List.append_nil (Routine.requests ((Walk.along _ _ _ _).run bindings))]
  refine leaves_bind hparse ?_
  simp only [hempty, Bool.false_eq_true, if_false]
  exact leaves_bind hwalk (leaves_bind (leaves_tell _) (leaves_pure _))

/-- A search gives the bindings back, whatever it finds. -/
theorem answers_findUnder (bindings : Bindings) (document : Json) (path : String) :
    Answers settings (findUnder settings bindings document path)
      (matchesOf settings bindings document path, bindings) := by
  have hparse := answers_parse settings path
  cases hread : (Path.read settings path).result with
  | error error =>
    rw [hread] at hparse
    rw [matchesOf_of_error hread]
    exact answers_bind hparse (answers_pure _)
  | ok steps =>
    rw [matchesOf_of_read hread]
    cases hempty : document.isEmpty with
    | true =>
      rw [hread] at hparse
      unfold findUnder
      refine answers_bind hparse ?_
      simp only [hempty, if_true]
      exact answers_bind (answers_tell _) (answers_pure _)
    | false => exact (leaves_findUnder settings bindings hread hempty).answers

theorem leaves_find {document : Json} {path : String} {steps : List Step}
    (hread : (Path.read settings path).result = .ok steps) (hempty : document.isEmpty = false) :
    Leaves settings (find settings document path).run
      (.ok (Walk.found settings.functions steps Walk.root document .empty)) [path]
      ((Path.read settings path).run.requests ++
        ((Walk.along settings.functions steps Walk.root document).run .empty).requests) := by
  rw [← List.append_nil (_ ++ _)]
  exact leaves_bind (leaves_findUnder settings .empty hread hempty) (leaves_pure _)

theorem answers_find (document : Json) (path : String) :
    Answers settings (find settings document path).run
      (matchesOf settings .empty document path) := by
  unfold find
  exact answers_bind (answers_findUnder settings .empty document path) (answers_pure _)

theorem answers_valueIn (expression : String) (node : Json) :
    Answers settings (valueIn settings expression node).run
      (Filter.valueIn settings.functions expression node).result :=
  answers_inSession _

/-! ## Attributes -/

/-- The member of an object under a name, unless it is null. -/
def member? (members : List (String × Json)) (name : String) : Option Json :=
  (members.lookup name).filter fun value => !value.isNull

theorem member?_eq_some_iff {members : List (String × Json)} {name : String} {value : Json} :
    member? members name = some value ↔ members.lookup name = some value ∧ value ≠ .null := by
  unfold member?
  rw [Option.filter_eq_some_iff]
  cases value <;> simp [Json.isNull]

/-- The value of an attribute from those of the two look-ups. -/
def onlyOf (name : String) : Option Json → Option Json → Except QueryError (Option Json)
  | some field, some value => .error (.ambiguousAttribute name field value)
  | field, value => .ok (field.or value)

theorem onlyOf_eq_ok {name : String} {field value : Option Json} (h : field = none ∨ value = none) :
    onlyOf name field value = .ok (field.or value) := by
  rcases h with rfl | rfl
  · rfl
  · cases field <;> rfl

/-- What a name finds in a value as an expression. A name without a dot is not tried as one. -/
def expressed (name : String) (value : Json) : Except QueryError (Option Json) :=
  if '.' ∈ name.toList then (Filter.valueIn settings.functions name value).result else .ok none

def attributeOf (path name : String) : Json → Except QueryError (Option Json)
  | .object members =>
    expressed settings name (.object members) >>= onlyOf name (member? members name)
  | found => .error (.notAnObject path found)

def attributeIn (document : Json) (path name : String) : Except QueryError (Option Json) := do
  match ← matchesOf settings .empty document path with
  | [m] => attributeOf settings path name m.value
  | _ => return none

theorem answers_memberOrExpression (members : List (String × Json)) (name : String) :
    Answers settings (memberOrExpression settings members name).run
      (expressed settings name (.object members) >>= onlyOf name (member? members name)) := by
  unfold memberOrExpression expressed member?
  generalize (members.lookup name).filter (fun value => !value.isNull) = field
  by_cases hdot : '.' ∈ name.toList
  · rw [if_neg (by simpa using hdot), if_pos hdot]
    refine answers_bindExcept (answers_valueIn settings name _) ?_
    intro value _
    rcases field with _ | field <;> rcases value with _ | value <;> exact answers_pure _
  · rw [if_pos (by simpa using hdot), if_neg hdot]
    change Answers settings (pure (.ok field)) (onlyOf name field none)
    rw [onlyOf_eq_ok (.inr rfl), Option.or_none]
    exact answers_pure _

theorem answers_readAttribute (document : Json) (path name : String) :
    Answers settings (readAttribute settings document path name).run
      (attributeIn settings document path name) := by
  refine answers_bindExcept (answers_find settings document path) ?_
  rintro found -
  rcases found with _ | ⟨⟨place, bindings, value⟩, _ | ⟨_, _⟩⟩
  · exact answers_pure _
  · cases value with
    | object members => exact answers_memberOrExpression settings members name
    | _ => exact answers_pure _
  · exact answers_bindExcept (answers_lift (answers_tell _)) fun _ _ => answers_pure _

end PathQuery.Engine
