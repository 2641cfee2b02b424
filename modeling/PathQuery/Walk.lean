import PathQuery.Match
import PathQuery.Path.Evaluation

/-!
# Walking a document

The steps of a path are walked from the root of a document, depth first. Where a step leads to
several values, the walk branches in the order of keys or positions. A branch ends without a match
at null and where a step does not apply; a document may change its shape, so neither is an error.

The bindings are one table for the whole walk. Each branch that binds a name does so in a scope of
its own (`Walk.inScope`), so a branch never sees what a branch before it has bound.
-/

namespace PathQuery

/-- A part of a walk: it may ask for pieces, write notices, and change the bindings. -/
abbrev Walk := StateT Bindings Routine

namespace Walk

/-- Walks a branch under further bindings, which end with it. -/
def inScope (names : List (String × String)) (branch : Walk α) : Walk α := do
  let scope := (Scope.opened (← get)).bindAll names
  set scope.bindings
  let result ← branch
  set { scope with bindings := ← get }.close
  return result

def branches (branch : α → Walk (List Match)) : List α → Walk (List Match)
  | [] => return []
  | a :: rest => do
    let first ← branch a
    return first ++ (← branches branch rest)

def memberPlace (place key : String) : String := place ++ "." ++ Segment.escapeKey key

def elementPlace (place : String) (position : Nat) : String :=
  place ++ "[" ++ toString position ++ "]"

def functionPlace (place name : String) : String := place ++ "." ++ name ++ "()"

def filterPlace (place : String) (clauses : List Clause) (texts : List String) : String :=
  place ++ "[?(" ++ " && ".intercalate (List.zipWith Clause.render clauses texts) ++ ")]"

/-- What the clauses of a filter bind. -/
def filterBindings (clauses : List Clause) (texts : List String) : List (String × String) :=
  (List.zipWith Clause.binding? clauses texts).filterMap id

/-- Walks steps from a value at some path. A step that does not fit the value ends its branch, with a
notice if the step is a selector or a function. -/
def along (functions : Registry) : List Step → String → Json → Walk (List Match)
  | [], place, value => do if value.isNull then return [] else return [⟨place, ← get, value⟩]
  | step :: rest, place, value =>
    match step, value with
    -- Null ends a branch before any step is tried, so no function sees it.
    | _, .null => return []
    | .key name, .object members =>
      match members.lookup name with
      | some child => along functions rest (memberPlace place name) child
      | none => return []
    | .placeholder name, .object members =>
      branches (fun (key, child) =>
        inScope [(name, key)] (along functions rest (memberPlace place key) child)) members
    | .placeholder name, .array items =>
      branches (fun (child, k) =>
        inScope [(name, toString k)] (along functions rest (elementPlace place k) child))
        items.zipIdx
    | .passthrough, .array items => along functions rest place (.array items)
    | .function name, value =>
      match functions.evaluate name value with
      | .ok result => along functions rest (functionPlace place name) result
      | .error error => do
        Routine.tell (.functionFailed name place error)
        return []
    | .select (.index position), .array items =>
      match items[position]? with
      | some child => along functions rest (elementPlace place position) child
      | none => do
        Routine.tell (.positionOutside position items.length place)
        return []
    | .select (.range start stop), .array items =>
      branches (fun (child, k) => along functions rest (elementPlace place k) child)
        (items.zipIdx.filter fun (_, k) => start ≤ k ∧ k < stop)
    | .select (.filter clauses), .array items =>
      branches (fun child => do
        match ← Clause.resolveAll functions child clauses with
        | none => return []
        | some texts =>
          inScope (filterBindings clauses texts)
            (along functions rest (filterPlace place clauses texts) child))
        items
    | .select _, value => do
      Routine.tell (.notAList place value)
      return []
    | _, _ => return []

def root : String := "$"

end Walk

end PathQuery
