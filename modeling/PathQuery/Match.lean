import PathQuery.Bindings
import PathQuery.Json.Basic

/-!
# Matches

A match of a path in a document is a value, with the path that leads to it alone and the bindings
on the way.

`Match.distinct` keeps the first match of each path.
-/

namespace PathQuery

structure Match where
  /-- the path of this match, with placeholders replaced by what they were bound to -/
  path : String
  /-- what the placeholders were bound to -/
  bindings : Bindings
  value : Json
  deriving DecidableEq

namespace Match

/-- The first match of each path, in order. -/
def distinct : List Match → List Match
  | [] => []
  | m :: ms => m :: (distinct ms).filter fun other => other.path ≠ m.path

def toJson (m : Match) : Json :=
  .ofMembers [
    ("fullObjectPath", .string m.path),
    ("pathAttributes", .object (m.bindings.entries.map fun (name, text) => (name, .string text))),
    ("matchedObject", m.value)]

end Match

end PathQuery
