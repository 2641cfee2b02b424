import PathQuery.Engine.Basic

/-!
# Operations on an engine

The questions to an engine as data, so that a sequence of them can be run on one engine and
spoken about.

`Operation.perform` answers one operation. `Operation.performAll` runs a sequence in one session,
and gives for each answer the sizes of the cache after it.
-/

namespace PathQuery

inductive Operation where
  | parse (path : String)
  | find (document : Json) (path : String)
  | findDistinct (document : Json) (path : String)
  | findUnder (bindings : Bindings) (document : Json) (path : String)
  | requery (document : Json) (path : String)
  | valueIn (document : Json) (expression : String)
  | evaluate (document : Json) (name : String)
  | readAttribute (document : Json) (path name : String)
  | extract (document : Json) (path : String) (reduction : Reduction)
  deriving DecidableEq

inductive Answer where
  | steps (steps : List Step)
  | found (found : List Match)
  | foundUnder (found : Except QueryError (List Match)) (after : Bindings)
  | requeried (found : List (Match × Except QueryError (List Match)))
  | value (value : Option Json)

namespace Operation

def perform (settings : Settings) : Operation → Engine.Query Answer
  | .parse path => .steps <$> Engine.parse settings path
  | .find document path => .found <$> Engine.find settings document path
  | .findDistinct document path => .found <$> Engine.findDistinct settings document path
  | .findUnder bindings document path => do
    let (found, after) ← Engine.findUnder settings bindings document path
    return .foundUnder found after
  | .requery document path => .requeried <$> Engine.requery settings document path
  | .valueIn document expression => .value <$> Engine.valueIn settings expression document
  | .evaluate document name => (.value ∘ some) <$> Engine.evaluate settings name document
  | .readAttribute document path name =>
    .value <$> Engine.readAttribute settings document path name
  | .extract document path reduction =>
    (.value ∘ some) <$> Engine.extract settings document path reduction

/-- An answer, with the sizes of the cache after it. -/
structure Report where
  answer : Except QueryError Answer
  parsedPaths : Nat
  cachedSplits : Nat

def report (settings : Settings) (operation : Operation) : Session Report := do
  let answer ← (operation.perform settings).run
  let cache := (← get).cache
  return ⟨answer, cache.parsedPaths, cache.cachedSplits⟩

def performAll (settings : Settings) (operations : List Operation) : Session (List Report) :=
  operations.mapM (report settings)

end Operation

end PathQuery
