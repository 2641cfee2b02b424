import PathQuery.Path.Segment
import PathQuery.Path.Step
import PathQuery.Aggregate.Registry
import PathQuery.Routine

/-!
# Filters

The text between `?(` and `)` is a filter: clauses `@.path=value`, joined by `&&`.

* The text is cut at every `@.`, and a piece that is blank up to a final `&&` is passed over.
* A clause is cut at its first equals sign. Its path is dotted, and only the last segment may call
  a function.
* A value is a placeholder, or alternatives between `||`.
-/

namespace PathQuery.Filter

def marker : String := "@."

def conjunction : String := "&&"

def disjunction : String := "||"

def dot : String := "."

def knownFunction (functions : Registry) (name : String) : Except QueryError String :=
  if functions.contains name then .ok name else .error (.unknownFunction name)

/-- The segments of a dotted path call no function but a registered one at the end. -/
def checkSegments (functions : Registry) (path : String) : List String → Except QueryError Unit
  | [] => .ok ()
  | segment :: rest =>
    match Segment.callName? segment with
    | none => checkSegments functions path rest
    | some name =>
      if rest ≠ [] then .error (.functionNotLast path)
      else do let _ ← knownFunction functions name

def readCondition (value : String) : Attempt Condition :=
  match Segment.placeholderName? value with
  | some name => return .bind name
  | none => return .oneOf value (← Attempt.pieces disjunction value)

/-- The clause that a text without its marker spells. -/
def readClause (functions : Registry) (text : String) : Attempt Clause :=
  match Text.cutAt? '=' text with
  | none => throw (.clauseWithoutValue text)
  | some (path, value) => do
    let path := Text.trim path
    if path = "" then throw (.clauseWithoutPath text)
    Attempt.ofExcept (checkSegments functions path (← Attempt.pieces dot path))
    return ⟨path, ← readCondition (Text.trim value)⟩

/-- The text of a clause in a piece of a filter, unless the piece is blank. -/
def clauseText? (piece : String) : Option String :=
  let piece := Text.trim piece
  let clause := match Text.beforeSuffix? conjunction piece with
    | some before => Text.trimEnd before
    | none => piece
  if clause = "" then none else some clause

def readClauses (functions : Registry) (body : String) : Attempt (List Clause) := do
  if (Text.afterPrefix? marker (Text.trimStart body)).isNone then throw (.filterWithoutMarker body)
  let pieces ← Attempt.pieces marker body
  let clauses ← (pieces.filterMap clauseText?).mapM (readClause functions)
  if clauses = [] then throw (.filterWithoutClauses body)
  return clauses

end PathQuery.Filter
