import PathQuery.Aggregate.Basic

/-!
# Registries

A `Registry` holds the aggregates that paths may name, each under its own name. Registering a name
again replaces it.

`Registry.evaluate` applies a registered aggregate to a value. An empty collection gives null,
whatever the aggregate is, so that missing data is never taken for a measured zero.
-/

namespace PathQuery

abbrev Registry := Dictionary Aggregate

namespace Registry

def register (functions : Registry) (aggregate : Aggregate) : Registry :=
  functions.insert aggregate.name aggregate

def contains (functions : Registry) (name : String) : Bool := (functions.get? name).isSome

def builtins : Registry := Aggregate.builtins.foldl register Dictionary.empty

/-- The elements of a list, or the values of an object. -/
def elements? : Json → Option (List Json)
  | .array items => some items
  | .object members => some (members.map Prod.snd)
  | _ => none

/-- Applies a registered aggregate to a list or an object. -/
def evaluate (functions : Registry) (name : String) (node : Json) : Except QueryError Json :=
  match elements? node with
  | none => .error (.notACollection name node)
  | some elements =>
    match functions.get? name with
    | none => .error (.unknownFunction name)
    | some aggregate => if elements.isEmpty then .ok .null else aggregate.call elements

def describe (functions : Registry) : String :=
  "Registry \x7b functions: [" ++ ", ".intercalate (functions.names.map Json.quoted) ++ "] \x7d"

/-! ## Registries by name -/

/-- The aggregate that a configuration may ask for by this word. -/
def aggregateOf? : String → Option Aggregate
  | "length" => some .length
  | "max" => some .max
  | "min" => some .min
  | "sum" => some .sum
  | "avg" => some .avg
  | "first" => some .first
  | "fail" => some .fail
  | "last_as_max" => some .lastAsMax
  | _ => none

/-- Adds what a word asks for. The word `builtins` replaces the registry by the built-in one. -/
def add? (functions : Registry) (word : String) : Option Registry :=
  if word = "builtins" then some builtins else (aggregateOf? word).map functions.register

def ofWords? (words : List String) : Option Registry := words.foldlM add? Dictionary.empty

example : (builtins.describe) =
    "Registry \x7b functions: [\"avg\", \"length\", \"max\", \"min\", \"sum\"] \x7d" := by decide

end Registry

end PathQuery
