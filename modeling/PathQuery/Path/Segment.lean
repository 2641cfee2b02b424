import PathQuery.Text.Split
import PathQuery.Text.Blank

/-!
# Spellings of segments

A path is made of segments between dots. A segment can spell three things besides a plain key.

* `callName?` reads `name()`, a function, with blanks allowed around the name and in the
  parentheses.
* `placeholderName?` reads `$` and a name in braces, a placeholder.
* `emptyKey` is two quotes, the empty key.

`escapeKey` writes a key so that it reads back as that key.
-/

namespace PathQuery.Segment

/-! ## Reading -/

def callChars? (cs : List Char) : Option (List Char) :=
  let cs := Text.dropEndWhile Text.isBlank cs
  let arguments := cs.dropWhile (· ≠ '(')
  if arguments.filter (fun c => !Text.isBlank c) = ['(', ')'] then
    some (Text.trimBy Text.isBlank (cs.takeWhile (· ≠ '(')))
  else none

/-- The name in a function call such as `length()`. -/
def callName? (segment : String) : Option String :=
  (callChars? segment.toList).map String.ofList

/-- The name in a placeholder, without the blanks around it. It may be empty. -/
def placeholderName? (segment : String) : Option String := do
  let opened ← Text.afterPrefix? "$\x7b" segment
  let name ← Text.beforeSuffix? "\x7d" opened
  return Text.trim name

/-- The spelling of the empty key. -/
def emptyKey : String := "''"

/-! ## Writing -/

/-- The characters that have a meaning wherever they stand in a path. -/
def isSpecial (c : Char) : Bool :=
  c == '\\' || c == '.' || c == '[' || c == ']' || c == '$' || c == '(' || c == ')'

/-- A character of a key. Special characters and the blanks at both ends are escaped. -/
def escapeChar (atEdge : Bool) (c : Char) : List Char :=
  if isSpecial c || (atEdge && Text.isBlank c) then ['\\', c] else [c]

def escapeChars (atStart : Bool) : List Char → List Char
  | [] => []
  | [c] => escapeChar true c
  | c :: rest => escapeChar atStart c ++ escapeChars false rest

/-- The segment that stands for a key. The empty key and the key that looks like it are told apart
by an escape. -/
def escapeKey (key : String) : String :=
  if key = "" then emptyKey
  else if key = emptyKey then "\\" ++ emptyKey
  else String.ofList (escapeChars true key.toList)

example : callName? " max ( ) " = some "max" ∧ callName? "f(x)" = none := by decide
example : escapeKey " a.b " = "\\ a\\.b\\ " ∧ escapeKey "max()" = "max\\(\\)" := by decide

end PathQuery.Segment
