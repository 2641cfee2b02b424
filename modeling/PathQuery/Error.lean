import PathQuery.Json.Printer

/-!
# Errors

An error is the cause of a failure with the texts and values it is about. Its kind tells when it
surfaces, and its message is the text shown to the user.
-/

namespace PathQuery

/-- When an error surfaces: in a malformed path, in a path or an expression that is not supported,
in an aggregate function, or while results are put together. -/
inductive ErrorKind where
  | parse
  | config
  | function
  | runtime
  deriving DecidableEq

inductive QueryError where
  /-- a path that does not start with a dollar sign -/
  | noRoot (path : String)
  /-- an escape character with nothing after it -/
  | danglingEscape (body : String)
  /-- a bracket that is never closed -/
  | openBracket (body : String)
  /-- a filter without its last parenthesis -/
  | openFilter (content : String)
  /-- a clause without an equals sign -/
  | clauseWithoutValue (clause : String)
  /-- a clause with nothing before its equals sign -/
  | clauseWithoutPath (clause : String)
  /-- a placeholder without a name -/
  | namelessPlaceholder (segment : String)
  /-- a function that is not registered -/
  | unknownFunction (name : String)
  /-- a star in brackets -/
  | wildcard
  /-- a range without its end -/
  | openRange (content : String)
  /-- a text in brackets that is not a position -/
  | badPosition (text content : String)
  /-- a filter that does not start with a clause -/
  | filterWithoutMarker (body : String)
  /-- a filter in which every clause is blank -/
  | filterWithoutClauses (body : String)
  /-- a function before the last segment of a dotted path -/
  | functionNotLast (path : String)
  /-- a substring expression of another form -/
  | badSubstring (text : String)
  /-- a return expression of another form -/
  | unknownReturn (text : String)
  /-- a function on a value that is neither a list nor an object -/
  | notACollection (function : String) (found : Json)
  /-- two elements without an order -/
  | notComparable (function : String) (best candidate : Json)
  /-- an element that is not a number -/
  | notANumber (function : String) (found : Json)
  /-- a failure that an aggregate reports in its own words -/
  | raised (text : String)
  /-- an attribute of something that is not an object -/
  | notAnObject (path : String) (found : Json)
  /-- an attribute that is both a field and an expression -/
  | ambiguousAttribute (name : String) (field expression : Json)
  /-- several matches where one is needed -/
  | manyMatches (count : Nat)
  /-- a key of something that is not an object -/
  | keyOfNonObject (key : String) (found : Json)
  /-- a substring outside its text -/
  | cutOutside (start stop : Nat) (text : String)
  deriving DecidableEq

namespace QueryError

def kind : QueryError → ErrorKind
  | .noRoot _ | .danglingEscape _ | .openBracket _ | .openFilter _ | .clauseWithoutValue _
  | .clauseWithoutPath _ => .parse
  | .namelessPlaceholder _ | .unknownFunction _ | .wildcard | .openRange _ | .badPosition _ _
  | .filterWithoutMarker _ | .filterWithoutClauses _ | .functionNotLast _ | .badSubstring _
  | .unknownReturn _ => .config
  | .notACollection _ _ | .notComparable _ _ _ | .notANumber _ _ => .function
  | .raised _ | .notAnObject _ _ | .ambiguousAttribute _ _ _ | .manyMatches _
  | .keyOfNonObject _ _ | .cutOutside _ _ _ => .runtime

def detail : QueryError → String
  | .noRoot path => s!"path should start with $: {path}"
  | .danglingEscape body => s!"trailing escape character at end of {body}"
  | .openBracket body => s!"unterminated bracket expression in {body}"
  | .openFilter content => s!"filter expression is missing its closing ')': {content}"
  | .clauseWithoutValue clause => s!"filter clause without '=': @.{clause}"
  | .clauseWithoutPath clause => s!"filter clause without a path: @.{clause}"
  | .namelessPlaceholder segment => s!"placeholder without a name: {segment}"
  | .unknownFunction name => s!"unknown function {name}()"
  | .wildcard => "ambiguous wildcard array expression [*] not supported"
  | .openRange content => s!"array expression 'from tail' not supported: {content}"
  | .badPosition text content =>
    s!"expected position in array as a non-negative integer, found '{text}' in [{content}]"
  | .filterWithoutMarker body => s!"filter clauses must start with '@.': ?({body})"
  | .filterWithoutClauses body => s!"filter without clauses: ?({body})"
  | .functionNotLast path => s!"function should be the last node in the expression: {path}"
  | .badSubstring text => s!"bad substring expression: {text}"
  | .unknownReturn text => s!"unsupported return expression: {text}"
  | .notACollection _ found =>
    "functions are allowed only on collections and maps, found " ++ found.compact
  | .notComparable _ best candidate =>
    "elements " ++ best.compact ++ " and " ++ candidate.compact ++ " are not comparable"
  | .notANumber _ found => "found element which is not a number: " ++ found.compact
  | .raised text => text
  | .notAnObject path found =>
    s!"expected to match an object with path {path}, instead found " ++ found.compact
  | .ambiguousAttribute name field expression =>
    s!"for attribute/expression {name} found ambiguous result, both field (" ++
      field.compact ++ ") and expression (" ++ expression.compact ++ ") produce a value"
  | .manyMatches count => s!"found {count} matching paths where only 1 should match"
  | .keyOfNonObject key found => s!"can't return valueOfKey:{key} for " ++ found.compact
  | .cutOutside start stop text => s!"can't take substring [{start}, {stop}) of '{text}'"

/-- The message: the kind of the error, for a function error with the name of the function, and
what went wrong. -/
def message (error : QueryError) : String :=
  let heading := match error with
    | .notACollection function _ | .notComparable function _ _ | .notANumber function _ =>
      s!"function '{function}' error"
    | _ => match error.kind with
      | .parse => "parse error"
      | .config => "configuration error"
      | .function => "function error"
      | .runtime => "runtime error"
  heading ++ ": " ++ error.detail

end QueryError

end PathQuery
