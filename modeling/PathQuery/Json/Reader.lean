import PathQuery.Json.Basic
import PathQuery.Json.Source
import PathQuery.Text.Split

/-!
# Reading documents

The values of a `JsonSource` are read under these rules.

* An integer between `-2 ^ 63` and `2 ^ 64 - 1` is an integer; `-0`, other integers and every
  number with a point or a power of ten is a binary fraction, and one that overflows is refused.
* The code units of a string must pair up as surrogates.
* Of a repeated name the last value counts.
* Arrays and objects nest at most 127 deep.

What is read is ordered (`Json.ordered_of_read?`).
-/

namespace PathQuery

/-! ## Numbers -/

/-- The value of a literal, unless it overflows. -/
def NumberLiteral.value? (literal : NumberLiteral) : Option Number :=
  let fraction := literal.fraction.getD []
  let power : Int := match literal.exponent with
    | none => 0
    | some (true, digits) => -Text.digitsValue digits
    | some (false, digits) => Text.digitsValue digits
  let real :=
    (Double.ofDecimal? literal.negative (Text.digitsValue (literal.whole ++ fraction))
      (power - fraction.length)).map Number.real
  match literal.fraction, literal.exponent, literal.negative with
  | none, none, false =>
    let n := Text.digitsValue literal.whole
    if n < UInt64.size then some (.int n) else real
  | none, none, true =>
    let n := Text.digitsValue literal.whole
    if n ≠ 0 ∧ 2 * n ≤ UInt64.size then some (.int (-n)) else real
  | _, _, _ => real

/-! ## Strings -/

namespace TextUnit

/-- First halves of surrogate pairs. -/
def isHigh (n : Nat) : Bool := 0xD800 ≤ n && n < 0xDC00

/-- Second halves of surrogate pairs. -/
def isLow (n : Nat) : Bool := 0xDC00 ≤ n && n < 0xE000

/-- The characters of a string, unless it holds half a surrogate pair. -/
def chars? : List TextUnit → Option (List Char)
  | [] => some []
  | .char c :: units => (chars? units).map (c :: ·)
  | .unit high :: .unit low :: units =>
    if isHigh high then
      if isLow low then
        let code := 0x10000 + (high - 0xD800) * 0x400 + (low - 0xDC00)
        (chars? units).map (Char.ofNat code :: ·)
      else none
    else if isLow high then none
    else (chars? (.unit low :: units)).map (Char.ofNat high :: ·)
  | .unit n :: units =>
    if isHigh n || isLow n then none else (chars? units).map (Char.ofNat n :: ·)

def text? (units : List TextUnit) : Option String := (chars? units).map String.ofList

end TextUnit

/-! ## Documents -/

namespace JsonSource

mutual

/-- The value of a tree in which arrays and objects nest at most `depth` deep. -/
def value? (depth : Nat) : JsonSource → Option Json
  | .null => some .null
  | .bool b => some (.bool b)
  | .number literal => literal.value?.map .number
  | .string units => (TextUnit.text? units).map .string
  | .array items =>
    match depth with
    | 0 => none
    | depth + 1 => (itemValues? depth items).map .array
  | .object members =>
    match depth with
    | 0 => none
    | depth + 1 => (memberValues? depth members).map .ofMembers

def itemValues? (depth : Nat) : List JsonSource → Option (List Json)
  | [] => some []
  | item :: items => do return (← item.value? depth) :: (← itemValues? depth items)

def memberValues? (depth : Nat) : List (List TextUnit × JsonSource) → Option (List (String × Json))
  | [] => some []
  | (name, value) :: members => do
    return (← TextUnit.text? name, ← value.value? depth) :: (← memberValues? depth members)

end

/-! ## Order of names -/

theorem ordered_ofMembers {members : List (String × Json)} (h : Json.OrderedMembers members) :
    (Json.ofMembers members).Ordered := by
  refine ⟨Entries.sorted_ofList members, Json.orderedMembers_iff.2 fun entry hentry => ?_⟩
  exact Json.orderedMembers_iff.1 h entry (Entries.mem_of_mem_ofList hentry)

mutual

theorem ordered_of_value? (depth : Nat) (source : JsonSource) (value : Json)
    (h : source.value? depth = some value) : value.Ordered := by
  match source, depth, h with
  | .null, _, h | .bool _, _, h =>
    simp only [value?, Option.some.injEq] at h
    exact h ▸ trivial
  | .number _, _, h | .string _, _, h =>
    simp only [value?, Option.map_eq_some_iff] at h
    obtain ⟨_, _, rfl⟩ := h
    trivial
  | .array _, 0, h | .object _, 0, h => simp [value?] at h
  | .array items, depth + 1, h =>
    simp only [value?, Option.map_eq_some_iff] at h
    obtain ⟨values, hvalues, rfl⟩ := h
    exact ordered_of_itemValues? depth items values hvalues
  | .object members, depth + 1, h =>
    simp only [value?, Option.map_eq_some_iff] at h
    obtain ⟨values, hvalues, rfl⟩ := h
    exact ordered_ofMembers (ordered_of_memberValues? depth members values hvalues)

theorem ordered_of_itemValues? (depth : Nat) (items : List JsonSource) (values : List Json)
    (h : itemValues? depth items = some values) : Json.OrderedItems values := by
  match items, h with
  | [], h =>
    simp only [itemValues?, Option.some.injEq] at h
    exact h ▸ trivial
  | item :: items, h =>
    simp only [itemValues?, Option.bind_eq_bind, Option.bind_eq_some_iff, Option.pure_def,
      Option.some.injEq] at h
    obtain ⟨value, hvalue, rest, hrest, rfl⟩ := h
    exact ⟨ordered_of_value? depth item value hvalue, ordered_of_itemValues? depth items rest hrest⟩

theorem ordered_of_memberValues? (depth : Nat) (members : List (List TextUnit × JsonSource))
    (values : List (String × Json)) (h : memberValues? depth members = some values) :
    Json.OrderedMembers values := by
  match members, h with
  | [], h =>
    simp only [memberValues?, Option.some.injEq] at h
    exact h ▸ trivial
  | (name, member) :: members, h =>
    simp only [memberValues?, Option.bind_eq_bind, Option.bind_eq_some_iff, Option.pure_def,
      Option.some.injEq] at h
    obtain ⟨_, _, value, hvalue, rest, hrest, rfl⟩ := h
    exact ⟨ordered_of_value? depth member value hvalue,
      ordered_of_memberValues? depth members rest hrest⟩

end

end JsonSource

/-- How deep arrays and objects may nest. -/
def Json.maxDepth : Nat := 127

def Json.read? (text : String) : Option Json := do (← JsonSource.ofText? text).value? Json.maxDepth

/-- Documents that are read from a text are ordered. -/
theorem Json.ordered_of_read? {text : String} {value : Json} (h : Json.read? text = some value) :
    value.Ordered := by
  simp only [Json.read?, Option.bind_eq_bind, Option.bind_eq_some_iff] at h
  obtain ⟨source, _, hvalue⟩ := h
  exact JsonSource.ordered_of_value? _ source value hvalue

end PathQuery
