import PathQuery.Path.Filter

/-!
# Dotted expressions and clauses on a value

A dotted expression such as `routing.node` or `pools.length()` names a value inside another one.
Each segment goes to the member of that name; a function, which may only come last, is applied to
what has been reached.

A clause holds for an element if its expression finds a value that meets its condition. An error
on the way only makes the clause fail, with a notice.
-/

namespace PathQuery

namespace Filter

/-- Follows the segments of an expression. There is no value if a member is missing, if something
on the way is not an object, or if null is reached. -/
def follow (functions : Registry) (expression : String) :
    List String → Json → Except QueryError (Option Json)
  | [], current => .ok (if current.isNull then none else some current)
  | segment :: rest, current =>
    if current.isNull then .ok none
    else
      let segment := Text.trim segment
      match Segment.callName? segment with
      | some name =>
        if rest ≠ [] then .error (.functionNotLast expression)
        else do follow functions expression rest (← functions.evaluate name current)
      | none =>
        match current with
        | .object members =>
          match members.lookup segment with
          | some child => follow functions expression rest child
          | none => .ok none
        | _ => .ok none

def valueIn (functions : Registry) (expression : String) (node : Json) : Attempt (Option Json) := do
  Attempt.ofExcept (follow functions expression (← Attempt.pieces dot expression) node)

end Filter

namespace Clause

/-- Whether the text of a value meets the condition. Alternatives are compared without the blanks
around them. -/
def accepts (clause : Clause) (text : String) : Bool :=
  match clause.condition with
  | .oneOf _ alternatives => alternatives.any fun alternative => Text.trim alternative = text
  | .bind _ => true

/-- The text of the value that the clause finds in an element, if the clause holds for it. -/
def resolve (functions : Registry) (clause : Clause) (element : Json) :
    Routine (Option String) := do
  match ← ExceptT.run (Filter.valueIn functions clause.path element) with
  | .error error =>
    Routine.tell (.clauseFailed clause.path error)
    return none
  | .ok none => return none
  | .ok (some found) =>
    return if clause.accepts found.plainText then some found.plainText else none

/-- The texts that clauses find in an element, if all of them hold. The first one that fails ends
the search. -/
def resolveAll (functions : Registry) (element : Json) :
    List Clause → Routine (Option (List String))
  | [] => return some []
  | clause :: clauses => do
    match ← clause.resolve functions element with
    | none => return none
    | some text => return (← resolveAll functions element clauses).map (text :: ·)

/-- The clause as it stands in the path of a match: alternatives as they were written, a
placeholder as the text it was bound to. -/
def render (clause : Clause) (text : String) : String :=
  Filter.marker ++ clause.path ++ "=" ++
    match clause.condition with
    | .oneOf written _ => written
    | .bind _ => text

def binding? (clause : Clause) (text : String) : Option (String × String) :=
  match clause.condition with
  | .oneOf _ _ => none
  | .bind name => some (name, text)

end Clause

end PathQuery
