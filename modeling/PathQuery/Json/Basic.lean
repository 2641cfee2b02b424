import PathQuery.Dictionary
import PathQuery.Json.Double

/-!
# Documents

A `Json` document holds integers apart from binary fractions, as `1` and `1.0` differ in text.
Objects are entry lists. A document is `Ordered` when each of its objects is sorted by name, so
that no name occurs twice in one object; documents read from a text are.

Two numbers, two strings or two booleans can be compared (`Json.compare?`); other values cannot.
Integers compare exactly. As soon as one number is a binary fraction, both are compared as binary
fractions.
-/

namespace PathQuery

inductive Number where
  | int (n : Int)
  | real (x : Double)
  deriving DecidableEq

def Number.toDouble : Number → Double
  | .int n => Double.ofInt n
  | .real x => x

inductive Json where
  | null
  | bool (b : Bool)
  | number (n : Number)
  | string (s : String)
  | array (items : List Json)
  | object (members : List (String × Json))
  deriving Inhabited

namespace Json

/-! ## Equality -/

mutual

def decEq : (a b : Json) → Decidable (a = b)
  | .null, .null => isTrue rfl
  | .bool a, .bool b => decidable_of_iff (a = b) (by simp)
  | .number a, .number b => decidable_of_iff (a = b) (by simp)
  | .string a, .string b => decidable_of_iff (a = b) (by simp)
  | .array as, .array bs =>
    have := decEqItems as bs
    decidable_of_iff (as = bs) (by simp)
  | .object as, .object bs =>
    have := decEqMembers as bs
    decidable_of_iff (as = bs) (by simp)
  | .null, .bool _ | .null, .number _ | .null, .string _ | .null, .array _ | .null, .object _
  | .bool _, .null | .bool _, .number _ | .bool _, .string _ | .bool _, .array _
  | .bool _, .object _ | .number _, .null | .number _, .bool _ | .number _, .string _
  | .number _, .array _ | .number _, .object _ | .string _, .null | .string _, .bool _
  | .string _, .number _ | .string _, .array _ | .string _, .object _ | .array _, .null
  | .array _, .bool _ | .array _, .number _ | .array _, .string _ | .array _, .object _
  | .object _, .null | .object _, .bool _ | .object _, .number _ | .object _, .string _
  | .object _, .array _ => isFalse (by simp)

def decEqItems : (as bs : List Json) → Decidable (as = bs)
  | [], [] => isTrue rfl
  | [], _ :: _ | _ :: _, [] => isFalse (by simp)
  | a :: as, b :: bs =>
    have := decEq a b
    have := decEqItems as bs
    decidable_of_iff (a = b ∧ as = bs) (by simp)

def decEqMembers : (as bs : List (String × Json)) → Decidable (as = bs)
  | [], [] => isTrue rfl
  | [], _ :: _ | _ :: _, [] => isFalse (by simp)
  | (nameA, a) :: as, (nameB, b) :: bs =>
    have := decEq a b
    have := decEqMembers as bs
    decidable_of_iff ((nameA = nameB ∧ a = b) ∧ as = bs) (by simp)

end

instance : DecidableEq Json := decEq

/-! ## Order of names -/

mutual

/-- Each object in the document is sorted by name. -/
def Ordered : Json → Prop
  | .array items => OrderedItems items
  | .object members => Entries.Sorted members ∧ OrderedMembers members
  | _ => True

def OrderedItems : List Json → Prop
  | [] => True
  | item :: items => item.Ordered ∧ OrderedItems items

def OrderedMembers : List (String × Json) → Prop
  | [] => True
  | (_, value) :: members => value.Ordered ∧ OrderedMembers members

end

mutual

def decideOrdered : (value : Json) → Decidable value.Ordered
  | .array items => decideOrderedItems items
  | .object members => @instDecidableAnd _ _ inferInstance (decideOrderedMembers members)
  | .null | .bool _ | .number _ | .string _ => .isTrue trivial

def decideOrderedItems : (items : List Json) → Decidable (OrderedItems items)
  | [] => .isTrue trivial
  | item :: items => @instDecidableAnd _ _ item.decideOrdered (decideOrderedItems items)

def decideOrderedMembers : (members : List (String × Json)) → Decidable (OrderedMembers members)
  | [] => .isTrue trivial
  | (_, value) :: members =>
    @instDecidableAnd _ _ value.decideOrdered (decideOrderedMembers members)

end

instance (value : Json) : Decidable value.Ordered := value.decideOrdered

theorem orderedMembers_iff {members : List (String × Json)} :
    OrderedMembers members ↔ ∀ entry ∈ members, entry.2.Ordered := by
  induction members with
  | nil => simp [OrderedMembers]
  | cons entry members ih => simp [OrderedMembers, ih]

theorem orderedItems_iff {items : List Json} :
    OrderedItems items ↔ ∀ item ∈ items, item.Ordered := by
  induction items with
  | nil => simp [OrderedItems]
  | cons item items ih => simp [OrderedItems, ih]

/-- The object of these entries; of a repeated name the last one counts. -/
def ofMembers (members : List (String × Json)) : Json := .object (Entries.ofList members)

def isNull : Json → Bool
  | .null => true
  | _ => false

/-- Null, or a list or an object without elements. -/
def isEmpty : Json → Bool
  | .null => true
  | .array items => items.isEmpty
  | .object members => members.isEmpty
  | _ => false

end Json

/-! ## The natural order of values -/

def Number.compare : Number → Number → Ordering
  | .int a, .int b => Ord.compare a b
  | a, b => a.toDouble.compare b.toDouble

/-- The order of two values of one kind. Strings go by code points, and false is below true. -/
def Json.compare? : Json → Json → Option Ordering
  | .number a, .number b => some (a.compare b)
  | .string a, .string b => some (Ord.compare a b)
  | .bool a, .bool b => some (Ord.compare a b)
  | _, _ => none

example : Json.compare? (.number (.int 2)) (.number (.int 10)) = some .lt := by decide
example : Json.compare? .null .null = none := by decide

end PathQuery
