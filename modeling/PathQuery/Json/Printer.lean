import PathQuery.Json.Basic
import PathQuery.Json.Shortest

/-!
# Writing documents

* `Json.compact` writes a document without blanks, `Json.pretty` with one element a line.
* `Json.plainText` is the text a value stands for in bindings, filters and messages: a string is
  its own text, everything else is written compactly.
-/

namespace PathQuery

/-- Integers in decimal, binary fractions as their shortest decimal. -/
def Number.text : Number → String
  | .int n => toString n
  | .real x => x.text

namespace Json

/-! ## Strings -/

/-- A character of a quoted string. Quotes, backslashes and control characters are escaped. -/
def escaped (c : Char) : List Char :=
  if c = '"' then ['\\', '"']
  else if c = '\\' then ['\\', '\\']
  else if c = '\x08' then ['\\', 'b']
  else if c = '\x0c' then ['\\', 'f']
  else if c = '\n' then ['\\', 'n']
  else if c = '\r' then ['\\', 'r']
  else if c = '\t' then ['\\', 't']
  else if c.toNat < 0x20 then
    ['\\', 'u', '0', '0', Nat.digitChar (c.toNat / 16), Nat.digitChar (c.toNat % 16)]
  else [c]

def quoted (s : String) : String := String.ofList ('"' :: s.toList.flatMap escaped ++ ['"'])

/-! ## Documents without blanks -/

mutual

def compact : Json → String
  | .null => "null"
  | .bool b => if b then "true" else "false"
  | .number n => n.text
  | .string s => quoted s
  | .array items => "[" ++ ",".intercalate (compactItems items) ++ "]"
  | .object members => "\x7b" ++ ",".intercalate (compactMembers members) ++ "\x7d"

def compactItems : List Json → List String
  | [] => []
  | item :: items => item.compact :: compactItems items

def compactMembers : List (String × Json) → List String
  | [] => []
  | (name, value) :: members => (quoted name ++ ":" ++ value.compact) :: compactMembers members

end

/-- The text a value stands for: a string is its own text. -/
def plainText : Json → String
  | .string s => s
  | value => value.compact

/-! ## Documents with one element a line -/

/-- The start of a line at a depth: two blanks for each level. -/
def newLine (depth : Nat) : String := String.ofList ('\n' :: List.replicate (2 * depth) ' ')

mutual

/-- The document with one element a line, from a place at some depth. -/
def indented (depth : Nat) : Json → String
  | .array (item :: items) =>
    "[" ++ newLine (depth + 1) ++
      ("," ++ newLine (depth + 1)).intercalate (indentedItems (depth + 1) (item :: items)) ++
      newLine depth ++ "]"
  | .object (member :: members) =>
    "\x7b" ++ newLine (depth + 1) ++
      ("," ++ newLine (depth + 1)).intercalate (indentedMembers (depth + 1) (member :: members)) ++
      newLine depth ++ "\x7d"
  | .null => "null"
  | .bool b => if b then "true" else "false"
  | .number n => n.text
  | .string s => quoted s
  | .array [] => "[]"
  | .object [] => "\x7b\x7d"

def indentedItems (depth : Nat) : List Json → List String
  | [] => []
  | item :: items => item.indented depth :: indentedItems depth items

def indentedMembers (depth : Nat) : List (String × Json) → List String
  | [] => []
  | (name, value) :: members =>
    (quoted name ++ ": " ++ value.indented depth) :: indentedMembers depth members

end

def pretty (value : Json) : String := value.indented 0

example : (ofMembers [("b", .array []), ("a\n", .number (.int (-1)))]).compact =
    "\x7b\"a\\n\":-1,\"b\":[]\x7d" := by decide

end Json

end PathQuery
