import PathQuery.Error

/-!
# Notices

Some situations are not errors: a path goes on, or a branch of a walk ends, and a line is written
to the log. A `Notice` is the cause of such a line.
-/

namespace PathQuery

inductive Level where
  | warn
  | debug
  deriving DecidableEq

inductive Notice where
  /-- a lone escape character that is kept as a character -/
  | escapeKept (body : String)
  /-- a clause that could not be evaluated on an element -/
  | clauseFailed (path : String) (error : QueryError)
  /-- a function that failed on the way of a path -/
  | functionFailed (name place : String) (error : QueryError)
  /-- a position beyond the end of a list -/
  | positionOutside (position length : Nat) (place : String)
  /-- a selector for lists on another value -/
  | notAList (place : String) (found : Json)
  /-- an attribute of several matches -/
  | severalMatches (name path : String)
  /-- a path that is parsed for the first time -/
  | parsing (path : String)
  /-- a document without content -/
  | emptyDocument (path : String)
  /-- the number of matches of a path -/
  | matched (count : Nat) (path : String)
  deriving DecidableEq

namespace Notice

def level : Notice → Level
  | .parsing _ | .emptyDocument _ | .matched _ _ => .debug
  | _ => .warn

def text : Notice → String
  | .escapeKept body => s!"ignoring trailing escape character at end of path {body}"
  | .clauseFailed path error =>
    s!"filter clause @.{path} could not be evaluated: " ++ error.message
  | .functionFailed name place error => s!"{name}() at {place} failed: " ++ error.message
  | .positionOutside position length place =>
    s!"tried to extract element at position {position} while there are only {length} elements; " ++
      s!"path so far was {place}"
  | .notAList place found => s!"expected to find a list at {place}, instead found " ++ found.compact
  | .severalMatches name path =>
    s!"multiple matches found for attribute {name} for path {path}, discarding all matches"
  | .parsing path => s!"parsing path expression {path}"
  | .emptyDocument path => s!"empty document, no matches for {path}"
  | .matched count path => s!"{count} matching paths for {path}"

def line (notice : Notice) : String :=
  (match notice.level with | .warn => "WARN " | .debug => "DEBUG ") ++ notice.text

end Notice

end PathQuery
