/-!
# Steps of a path

A path is read as a list of steps. Each step leads from a value to some of the values in it, or to
the value that a function makes of it.
-/

namespace PathQuery

/-- What a clause asks of the value it finds. -/
inductive Condition where
  /-- the value stands for one of the alternatives; `written` is the text they were cut from -/
  | oneOf (written : String) (alternatives : List String)
  /-- any value, which is bound to a name -/
  | bind (name : String)
  deriving DecidableEq

/-- A condition on the value at a dotted path inside an element. -/
structure Clause where
  path : String
  condition : Condition
  deriving DecidableEq

inductive Selector where
  /-- the element at a position -/
  | index (position : Nat)
  /-- the elements from `start` on and before `stop` -/
  | range (start stop : Nat)
  /-- the elements that satisfy every clause -/
  | filter (clauses : List Clause)
  deriving DecidableEq

inductive Step where
  /-- the member of an object with this key -/
  | key (name : String)
  /-- each member of an object or element of a list, whose key or position is bound to a name -/
  | placeholder (name : String)
  /-- a list itself -/
  | passthrough
  /-- the value of a function of a list or an object -/
  | function (name : String)
  /-- some elements of a list -/
  | select (selector : Selector)
  deriving DecidableEq

end PathQuery
