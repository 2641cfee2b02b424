import PathQuery.Json.Token

/-!
# Document texts as trees

A `JsonSource` is the tree of a document text before its values are read: strings and numbers are
as written, and an object keeps every member in the order of the text. It is built from the tokens
by `Builder.step`, which keeps the open arrays and objects on a stack.
-/

namespace PathQuery

inductive JsonSource where
  | null
  | bool (b : Bool)
  | number (literal : NumberLiteral)
  | string (units : List TextUnit)
  | array (items : List JsonSource)
  | object (members : List (List TextUnit × JsonSource))

namespace JsonSource

/-! ## Building -/

/-- An array or an object that is still open, with what it holds so far in reverse. An object also
has the name of the member that is being read. -/
inductive Frame where
  | array (items : List JsonSource)
  | object (members : List (List TextUnit × JsonSource)) (name : List TextUnit)

inductive Place where
  /-- a value -/
  | value
  /-- a value or the end of the array that has just been opened -/
  | firstItem
  /-- a name or the end of the object that has just been opened -/
  | firstName
  /-- a name -/
  | name
  /-- the colon after a name -/
  | colon
  /-- a comma or the end of the innermost array or object -/
  | next
  /-- nothing, since the value is complete -/
  | done (value : JsonSource)

/-- The open arrays and objects, the innermost first, and what may come next. -/
structure Builder where
  frames : List Frame
  place : Place

namespace Builder

/-- Puts a complete value into the innermost open array or object. -/
def complete (frames : List Frame) (value : JsonSource) : Builder :=
  match frames with
  | [] => ⟨[], .done value⟩
  | .array items :: frames => ⟨.array (value :: items) :: frames, .next⟩
  | .object members name :: frames => ⟨.object ((name, value) :: members) [] :: frames, .next⟩

def startValue (frames : List Frame) : Token → Option Builder
  | .null => some (complete frames .null)
  | .bool b => some (complete frames (.bool b))
  | .number literal => some (complete frames (.number literal))
  | .string units => some (complete frames (.string units))
  | .openArray => some ⟨.array [] :: frames, .firstItem⟩
  | .openObject => some ⟨.object [] [] :: frames, .firstName⟩
  | _ => none

def close (frames : List Frame) (token : Token) : Option Builder :=
  match frames, token with
  | .array items :: frames, .closeArray => some (complete frames (.array items.reverse))
  | .object members _ :: frames, .closeObject => some (complete frames (.object members.reverse))
  | _, _ => none

def readName (frames : List Frame) (token : Token) : Option Builder :=
  match frames, token with
  | .object members _ :: frames, .string name => some ⟨.object members name :: frames, .colon⟩
  | _, _ => none

def step (builder : Builder) (token : Token) : Option Builder :=
  let frames := builder.frames
  match builder.place with
  | .value => startValue frames token
  | .firstItem => if token = .closeArray then close frames token else startValue frames token
  | .firstName => if token = .closeObject then close frames token else readName frames token
  | .name => readName frames token
  | .colon => if token = .colon then some ⟨frames, .value⟩ else none
  | .next =>
    match frames, token with
    | .array _ :: _, .comma => some ⟨frames, .value⟩
    | .object _ _ :: _, .comma => some ⟨frames, .name⟩
    | _, _ => close frames token
  | .done _ => none

end Builder

/-- The tree of a sequence of tokens, if they are one document. -/
def ofTokens? (tokens : List Token) : Option JsonSource := do
  match (← tokens.foldlM Builder.step ⟨[], .value⟩).place with
  | .done value => some value
  | _ => none

def ofText? (text : String) : Option JsonSource := do ofTokens? (← Token.ofText? text)

end JsonSource

end PathQuery
