/-!
# Tokens of a document text

A text is cut into punctuation, quoted strings and words: names of values and number literals. The
cut is one pass over the characters by `Lexer.step`. White space is space, tab, line feed and
carriage return.

Strings and numbers are kept as they are written. A string is a list of `TextUnit`s, since a
`\u` escape may be half of a surrogate pair, and a number is a `NumberLiteral`.
-/

namespace PathQuery

/-! ## Written values -/

/-- One character of a quoted string, or the code unit of a `\u` escape in it. -/
inductive TextUnit where
  | char (c : Char)
  | unit (n : Nat)
  deriving DecidableEq

/-- A number as written: its sign, the digits before and after the point, and the power of ten. -/
structure NumberLiteral where
  negative : Bool
  whole : List Char
  fraction : Option (List Char)
  exponent : Option (Bool × List Char)
  deriving DecidableEq

namespace NumberLiteral

/-- The digits of a power of ten, with their sign. -/
def exponent? : List Char → Option (Bool × List Char)
  | '+' :: digits => if digits ≠ [] ∧ digits.all Char.isDigit then some (false, digits) else none
  | '-' :: digits => if digits ≠ [] ∧ digits.all Char.isDigit then some (true, digits) else none
  | digits => if digits ≠ [] ∧ digits.all Char.isDigit then some (false, digits) else none

/-- What follows the digits after the point: nothing, or a power of ten. -/
def power? : List Char → Option (Option (Bool × List Char))
  | [] => some none
  | 'e' :: rest | 'E' :: rest => (exponent? rest).map some
  | _ => none

/-- A literal without its sign. There is a digit on each side of a point, and no further digit
after a leading zero. -/
def ofUnsigned? (negative : Bool) (cs : List Char) : Option NumberLiteral := do
  let whole := cs.takeWhile Char.isDigit
  if whole = [] ∨ (whole.head? = some '0' ∧ whole.length ≠ 1) then none
  match cs.dropWhile Char.isDigit with
  | '.' :: rest =>
    let fraction := rest.takeWhile Char.isDigit
    if fraction = [] then none
    return ⟨negative, whole, some fraction, ← power? (rest.dropWhile Char.isDigit)⟩
  | rest => return ⟨negative, whole, none, ← power? rest⟩

def ofChars? : List Char → Option NumberLiteral
  | '-' :: cs => ofUnsigned? true cs
  | cs => ofUnsigned? false cs

end NumberLiteral

/-! ## Tokens -/

inductive Token where
  | openArray
  | closeArray
  | openObject
  | closeObject
  | comma
  | colon
  | null
  | bool (b : Bool)
  | number (literal : NumberLiteral)
  | string (units : List TextUnit)
  deriving DecidableEq

namespace Token

def ofPunctuation? : Char → Option Token
  | '[' => some .openArray
  | ']' => some .closeArray
  | '{' => some .openObject
  | '}' => some .closeObject
  | ',' => some .comma
  | ':' => some .colon
  | _ => none

def ofWord? (cs : List Char) : Option Token :=
  if cs = ['n', 'u', 'l', 'l'] then some .null
  else if cs = ['t', 'r', 'u', 'e'] then some (.bool true)
  else if cs = ['f', 'a', 'l', 's', 'e'] then some (.bool false)
  else (NumberLiteral.ofChars? cs).map .number

def ofEscape? : Char → Option Char
  | '"' => some '"'
  | '\\' => some '\\'
  | '/' => some '/'
  | 'b' => some '\x08'
  | 'f' => some '\x0c'
  | 'n' => some '\n'
  | 'r' => some '\r'
  | 't' => some '\t'
  | _ => none

def ofHexDigit? (c : Char) : Option Nat :=
  if c.isDigit then some (c.toNat - '0'.toNat)
  else if 'a' ≤ c ∧ c ≤ 'f' then some (c.toNat - 'a'.toNat + 10)
  else if 'A' ≤ c ∧ c ≤ 'F' then some (c.toNat - 'A'.toNat + 10)
  else none

end Token

/-! ## The pass -/

/-- What the next character belongs to. Unfinished words and strings are kept in reverse. -/
inductive Lexer.Mode where
  | between
  | word (read : List Char)
  | string (read : List TextUnit)
  | escape (read : List TextUnit)
  | hex (read : List TextUnit) (missing value : Nat)

/-- The tokens found so far, in reverse, and what the next character belongs to. -/
structure Lexer where
  tokens : List Token
  mode : Lexer.Mode

namespace Lexer

def isSpace (c : Char) : Bool := c == ' ' || c == '\t' || c == '\n' || c == '\r'

def start (tokens : List Token) (c : Char) : Lexer :=
  if isSpace c then ⟨tokens, .between⟩
  else if c = '"' then ⟨tokens, .string []⟩
  else match Token.ofPunctuation? c with
    | some token => ⟨token :: tokens, .between⟩
    | none => ⟨tokens, .word [c]⟩

/-- Ends a word or a gap; inside a string there is no end. -/
def tokens? (lexer : Lexer) : Option (List Token) :=
  match lexer.mode with
  | .between => some lexer.tokens
  | .word read => (Token.ofWord? read.reverse).map (· :: lexer.tokens)
  | _ => none

def endsWord (c : Char) : Bool := isSpace c || c == '"' || (Token.ofPunctuation? c).isSome

def step (lexer : Lexer) (c : Char) : Option Lexer :=
  match lexer.mode with
  | .between => some (start lexer.tokens c)
  | .word read =>
    if endsWord c then lexer.tokens?.map (start · c)
    else some { lexer with mode := .word (c :: read) }
  | .string read =>
    if c = '"' then some ⟨.string read.reverse :: lexer.tokens, .between⟩
    else if c = '\\' then some { lexer with mode := .escape read }
    else if c.toNat < 0x20 then none
    else some { lexer with mode := .string (.char c :: read) }
  | .escape read =>
    if c = 'u' then some { lexer with mode := .hex read 3 0 }
    else (Token.ofEscape? c).map fun d => { lexer with mode := .string (.char d :: read) }
  | .hex read missing value =>
    (Token.ofHexDigit? c).map fun digit =>
      let value := 16 * value + digit
      match missing with
      | 0 => { lexer with mode := .string (.unit value :: read) }
      | missing + 1 => { lexer with mode := .hex read missing value }

end Lexer

/-- The tokens of a text, if it can be cut. -/
def Token.ofText? (text : String) : Option (List Token) := do
  let lexer ← text.toList.foldlM Lexer.step ⟨[], .between⟩
  return (← lexer.tokens?).reverse

example : Token.ofText? "[-1.50e+2,\"\\ud83d\"]" = some [.openArray,
    .number ⟨true, ['1'], some ['5', '0'], some (false, ['2'])⟩, .comma,
    .string [.unit 0xd83d], .closeArray] := by decide
example : Token.ofText? "01" = none ∧ Token.ofText? "1." = none ∧
    Token.ofText? "truefalse" = none := by decide

end PathQuery
