import PathQuery.Json.Basic
import PathQuery.Error

/-!
# Aggregates

An `Aggregate` turns the elements of a list, or the values of an object, into one value. The five
built-in ones are `length`, `max`, `min`, `sum` and `avg`.

* `max` and `min` keep the first best element, and need every element to be comparable with the
  best one before it.
* `sum` and `avg` add in binary floating point from zero on. A result that overflows, and the mean
  of nothing, is null.
-/

namespace PathQuery

/-- A named function of the elements of a collection. -/
structure Aggregate where
  name : String
  call : List Json → Except QueryError Json

namespace Aggregate

/-! ## Counting -/

def length : Aggregate := ⟨"length", fun elements => .ok (.number (.int elements.length))⟩

/-! ## Extremes -/

/-- The better of two elements: the candidate only if it compares with the best one as wanted. -/
def better (name : String) (wanted : Ordering) (best candidate : Json) : Except QueryError Json :=
  match candidate.compare? best with
  | none => .error (.notComparable name best candidate)
  | some order => .ok (if order = wanted then candidate else best)

/-- The first best element; null if there is none. -/
def extreme (name : String) (wanted : Ordering) : List Json → Except QueryError Json
  | [] => .ok .null
  | first :: rest => rest.foldlM (better name wanted) first

def max : Aggregate := ⟨"max", extreme "max" .gt⟩

def min : Aggregate := ⟨"min", extreme "min" .lt⟩

/-! ## Sums -/

/-- Adds an element to a sum; a sum that has overflowed stays so. -/
def plus (name : String) (total : Option Double) : Json → Except QueryError (Option Double)
  | .number n => .ok (total.bind fun x => x.add? n.toDouble)
  | found => .error (.notANumber name found)

/-- The sum of the elements, unless it overflows. -/
def total (name : String) (elements : List Json) : Except QueryError (Option Double) :=
  elements.foldlM (plus name) (some .zero)

/-- A number as a value; what is not finite is null. -/
def valueOf : Option Double → Json
  | none => .null
  | some x => .number (.real x)

def sum : Aggregate := ⟨"sum", fun elements => valueOf <$> total "sum" elements⟩

def avg : Aggregate :=
  ⟨"avg", fun elements => do
    let x ← total "avg" elements
    return if elements.isEmpty then .null else valueOf (x.map (·.divide elements.length))⟩

/-- The aggregates that every engine knows unless it is told otherwise. -/
def builtins : List Aggregate := [length, max, min, sum, avg]

/-! ## Further aggregates -/

def first : Aggregate := ⟨"first", fun elements => .ok (elements.headD .null)⟩

def fail : Aggregate := ⟨"fail", fun _ => .error (.raised "fail always fails")⟩

/-- The last element, under the name of the greatest one. -/
def lastAsMax : Aggregate := ⟨"max", fun elements => .ok (elements.getLastD .null)⟩

end Aggregate

end PathQuery
