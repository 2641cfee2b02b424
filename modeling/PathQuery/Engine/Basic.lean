import PathQuery.Cache
import PathQuery.Path.Parser
import PathQuery.Reduction
import PathQuery.Walk

/-!
# The engine

An engine has `Settings` and works in a session, whose cache it fills. Each function here is one
question to it.

* `Engine.parse` reads a path, and `Engine.find` lists its matches in a document.
* `Engine.valueIn` evaluates a dotted expression, and `Engine.readAttribute` an attribute of the
  one object that a path leads to.
* `Engine.extract` reduces the matches of a path with a return expression.
-/

namespace PathQuery.Engine

abbrev Query := ExceptT QueryError Session

/-- The outcome of a question, which is then no failure of the whole. -/
def outcome (query : Query α) : Query (Except QueryError α) := ExceptT.lift query.run

def parse (settings : Settings) (path : String) : Query (List Step) :=
  Session.stepsOf path (Path.read settings path)

/-- The matches of a path in a document under given bindings, and the bindings afterwards. -/
def findUnder (settings : Settings) (bindings : Bindings) (document : Json) (path : String) :
    Session (Except QueryError (List Match) × Bindings) := do
  match ← (parse settings path).run with
  | .error error => return (.error error, bindings)
  | .ok steps =>
    if document.isEmpty then
      Session.tell (.emptyDocument path)
      return (.ok [], bindings)
    else
      let walk := Walk.along settings.functions steps Walk.root document
      let (found, bindings) ← (walk.run bindings).inSession
      Session.tell (.matched found.length path)
      return (.ok found, bindings)

def find (settings : Settings) (document : Json) (path : String) : Query (List Match) :=
  ExceptT.mk (return (← findUnder settings .empty document path).1)

/-- The matches of a path in a document, the first for each resolved path. -/
def findDistinct (settings : Settings) (document : Json) (path : String) : Query (List Match) :=
  return Match.distinct (← find settings document path)

/-- The matches of a path, each with the outcome of its own path on the same document. -/
def requery (settings : Settings) (document : Json) (path : String) :
    Query (List (Match × Except QueryError (List Match))) := do
  (← find settings document path).mapM fun m => do
    return (m, ← outcome (find settings document m.path))

def valueIn (settings : Settings) (expression : String) (node : Json) : Query (Option Json) :=
  (Filter.valueIn settings.functions expression node).inSession

def evaluate (settings : Settings) (name : String) (node : Json) : Query Json :=
  ExceptT.mk (return settings.functions.evaluate name node)

/-- The value of an attribute of an object: its member of that name, or the value of the attribute
as a dotted expression. Both at once are refused. -/
def memberOrExpression (settings : Settings) (members : List (String × Json)) (name : String) :
    Query (Option Json) := do
  let field := (members.lookup name).filter fun value => !value.isNull
  -- Only a name with a dot is tried as an expression too.
  if !name.toList.contains '.' then return field
  match field, ← valueIn settings name (.object members) with
  | some field, some value => throw (.ambiguousAttribute name field value)
  | some field, none => return some field
  | none, value => return value

/-- An attribute of the object that a path leads to. Several matches count as none. -/
def readAttribute (settings : Settings) (document : Json) (path name : String) :
    Query (Option Json) := do
  match ← find settings document path with
  | [] => return none
  | [m] =>
    match m.value with
    | .object members => memberOrExpression settings members name
    | found => throw (.notAnObject path found)
  | _ =>
    Session.tell (.severalMatches name path)
    return none

def extract (settings : Settings) (document : Json) (path : String) (reduction : Reduction) :
    Query Json := do
  let found ← find settings document path
  ExceptT.mk (return reduction.evaluate found)

end PathQuery.Engine
