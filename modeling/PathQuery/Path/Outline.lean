/-!
# The outline of a path

The part of a path after its dollar sign is cut in two passes.

* `Glyph.ofChars` takes the escapes away: a glyph is a character together with whether it was
  escaped. Only an escape at the very end has no character; it stays as a plain backslash, and
  `Glyph.isDangling` tells it.
* `Outline.ofGlyphs` cuts the glyphs into lexemes: segments, which end at a plain dot or opening
  bracket, and the contents of brackets. A bracket closes at a plain closing bracket that stands
  before a plain dot, before a plain opening bracket or at the end.
-/

namespace PathQuery

/-! ## Glyphs -/

/-- A character of a path, and whether it was escaped. -/
structure Glyph where
  char : Char
  escaped : Bool
  deriving DecidableEq

namespace Glyph

def plain (c : Char) : Glyph := ⟨c, false⟩

def ofChars : List Char → List Glyph
  | [] => []
  | ['\\'] => [plain '\\']
  | '\\' :: c :: rest => ⟨c, true⟩ :: ofChars rest
  | c :: rest => plain c :: ofChars rest

/-- Whether a text ends in an escape without a character. -/
def isDangling : List Char → Bool
  | [] => false
  | ['\\'] => true
  | '\\' :: _ :: rest => isDangling rest
  | _ :: rest => isDangling rest

end Glyph

/-! ## Lexemes -/

inductive Lexeme where
  /-- the glyphs of a segment -/
  | segment (glyphs : List Glyph)
  /-- a dot right before a bracket -/
  | passthrough
  /-- the characters between brackets -/
  | bracket (content : List Char)
  deriving DecidableEq

/-- Where a path ends: after its last segment, or in a bracket that is never closed. -/
inductive Ending where
  | segment (glyphs : List Glyph)
  | bracket
  deriving DecidableEq

structure Outline where
  lexemes : List Lexeme
  ending : Ending
  deriving DecidableEq

namespace Outline

def after (lexemes : List Lexeme) (outline : Outline) : Outline :=
  { outline with lexemes := lexemes ++ outline.lexemes }

def opensBracket : List Glyph → Bool
  | glyph :: _ => glyph = .plain '['
  | [] => false

/-- Whether a bracket may close before what follows. -/
def mayClose : List Glyph → Bool
  | glyph :: _ => glyph = .plain '.' || glyph = .plain '['
  | [] => true

mutual

/-- The outline from inside a segment, whose glyphs so far are in reverse. -/
def inSegment (read : List Glyph) : List Glyph → Outline
  | [] => ⟨[], .segment read.reverse⟩
  | glyph :: rest =>
    if glyph = .plain '.' then
      -- A dot before a bracket asks for a list, which the bracket then selects from.
      (inSegment [] rest).after
        (.segment read.reverse :: if opensBracket rest then [.passthrough] else [])
    else if glyph = .plain '[' then (inBracket [] rest).after [.segment read.reverse]
    else inSegment (glyph :: read) rest

/-- The outline from inside a bracket, whose characters so far are in reverse. -/
def inBracket (read : List Char) : List Glyph → Outline
  | [] => ⟨[], .bracket⟩
  | glyph :: rest =>
    -- Any other closing bracket belongs to the content, so `[?(@.a=x]y)]` needs no escape.
    if glyph = .plain ']' ∧ mayClose rest then (inSegment [] rest).after [.bracket read.reverse]
    else inBracket (glyph.char :: read) rest

end

def ofGlyphs (glyphs : List Glyph) : Outline := inSegment [] glyphs

example : (ofGlyphs (Glyph.ofChars ".a.[0]x]".toList)).lexemes =
    [.segment [], .segment [.plain 'a'], .passthrough, .segment [], .bracket "0]x".toList] := by
  decide

end Outline

end PathQuery
