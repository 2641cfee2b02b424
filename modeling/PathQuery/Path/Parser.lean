import PathQuery.Path.Filter
import PathQuery.Path.Outline

/-!
# Reading paths

A path is a dollar sign and a body. Blanks around the path are dropped, except for one that is
escaped at its end. The lexemes of the body are read from left to right, so the first mistake is
the one reported.

* A segment is trimmed of blanks that are not escaped, and an empty one gives no step. An escaped
  character never makes a segment a placeholder, a function or the empty key.
* A bracket holds a placeholder, a filter, a range or a position. In a bracket an escape only keeps
  a closing bracket from closing it.
* An escape without a character at the end of the body is kept as a backslash, or refused if
  escapes are strict.
-/

namespace PathQuery

/-! ## Settings -/

structure Options where
  /-- refuse a path that ends in an escape without a character -/
  strictEscapes : Bool
  deriving DecidableEq

def Options.default : Options := ⟨false⟩

/-- What a path is read under: the options, and the functions that it may name. -/
structure Settings where
  options : Options
  functions : Registry

namespace Path

/-! ## Segments -/

/-- A placeholder, unless its name is empty. -/
def placeholder (name segment : String) : Except QueryError Step :=
  if name = "" then .error (.namelessPlaceholder segment) else .ok (.placeholder name)

def hasEscaped (glyphs : List Glyph) (cs : List Char) : Bool :=
  glyphs.any fun glyph => glyph.escaped && cs.contains glyph.char

def textOf (glyphs : List Glyph) : String := String.ofList (glyphs.map Glyph.char)

/-- The glyphs of a segment without the blanks around it. -/
def trimGlyphs (glyphs : List Glyph) : List Glyph :=
  Text.trimBy (fun glyph => !glyph.escaped && Text.isBlank glyph.char) glyphs

/-- The step of a segment that is not empty. -/
def readName (functions : Registry) (glyphs : List Glyph) : Except QueryError Step :=
  let name := textOf glyphs
  let startsEscaped := (glyphs.head?.map Glyph.escaped).getD false
  if name = Segment.emptyKey ∧ hasEscaped glyphs ['\''] = false then .ok (.key "")
  else match (if startsEscaped then none else Segment.placeholderName? name) with
    | some inner => placeholder inner name
    | none =>
      match (if hasEscaped glyphs ['(', ')'] then none else Segment.callName? name) with
      | some function => Step.function <$> Filter.knownFunction functions function
      | none => .ok (.key name)

/-- The steps of a segment: one, or none if it is blank. -/
def readSegment (functions : Registry) (glyphs : List Glyph) : Except QueryError (List Step) :=
  match trimGlyphs glyphs with
  | [] => .ok []
  | glyphs => (readName functions glyphs).map ([·])

/-! ## Brackets -/

def readPosition (text content : String) : Except QueryError Nat :=
  match Text.position? text with
  | some n => .ok n
  | none => .error (.badPosition text content)

/-- The range between two texts in a bracket. It starts at the start of the list if the first one
is blank; its end must be given. -/
def readRange (content start stop : String) : Except QueryError Selector := do
  let start := Text.trim start
  let stop := Text.trim stop
  if stop = "" then throw (.openRange content)
  let first ← if start = "" then pure 0 else readPosition start content
  return .range first (← readPosition stop content)

def readSelector (functions : Registry) (content : String) : Attempt Selector :=
  if content = "*" then throw .wildcard
  else match Text.afterPrefix? "?(" content with
    | some rest =>
      match Text.beforeSuffix? ")" rest with
      | none => throw (.openFilter content)
      | some body => .filter <$> Filter.readClauses functions body
    | none =>
      match Text.cutAt? ':' content with
      | some (start, stop) => Attempt.ofExcept (readRange content start stop)
      | none => Attempt.ofExcept (Selector.index <$> readPosition content content)

def readBracket (functions : Registry) (content : String) : Attempt Step :=
  match Segment.placeholderName? (Text.trim content) with
  | some name => Attempt.ofExcept (placeholder name content)
  | none => Step.select <$> readSelector functions (Text.trim content)

/-! ## Paths -/

def readLexeme (functions : Registry) : Lexeme → Attempt (List Step)
  | .segment glyphs => Attempt.ofExcept (readSegment functions glyphs)
  | .passthrough => return [.passthrough]
  | .bracket content => return [← readBracket functions (String.ofList content)]

def readEnding (functions : Registry) (body : String) : Ending → Attempt (List Step)
  | .segment glyphs => Attempt.ofExcept (readSegment functions glyphs)
  | .bracket => throw (.openBracket body)

/-- Deals with an escape without a character at the end of a body. -/
def readDangling (options : Options) (body : String) : Attempt Unit := do
  if Glyph.isDangling body.toList then
    if options.strictEscapes then throw (.danglingEscape body)
    Attempt.tell (.escapeKept body)

def readBody (settings : Settings) (body : String) : Attempt (List Step) := do
  let outline := Outline.ofGlyphs (Glyph.ofChars body.toList)
  let steps ← outline.lexemes.mapM (readLexeme settings.functions)
  -- The end is looked at last: a mistake before it is reported first.
  readDangling settings.options body
  return steps.flatten ++ (← readEnding settings.functions body outline.ending)

/-- A path without the blanks at its end; one that is escaped is kept. -/
def trimPathEnd (cs : List Char) : List Char :=
  let trimmed := Text.dropEndWhile Text.isBlank cs
  let backslashes := (trimmed.reverse.takeWhile (· == '\\')).length
  -- After an odd number of backslashes the blank that follows is escaped.
  if backslashes % 2 = 0 then trimmed else cs.take (trimmed.length + 1)

def read (settings : Settings) (path : String) : Attempt (List Step) :=
  match trimPathEnd (path.toList.dropWhile Text.isBlank) with
  | '$' :: rest => readBody settings (String.ofList (rest.dropWhile Text.isBlank))
  | _ => throw (.noRoot path)

example : (read ⟨.default, .builtins⟩ " $.a.[?(@.b=x || y)].$\x7b c \x7d.max()").result.toOption =
    some [.key "a", .passthrough, .select (.filter [⟨"b", .oneOf "x || y" ["x ", " y"]⟩]),
      .placeholder "c", .function "max"] := by decide +kernel
example : (read ⟨.default, .builtins⟩ "$.a[*].nope()").result = .error .wildcard := by rfl

end Path

end PathQuery
