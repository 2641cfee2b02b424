import PathQuery.CommandLine.Arguments
import PathQuery.Engine.Basic
import PathQuery.Engine.Options

/-!
# Running the command

The command reads its document, then its options, and asks an engine of its own: for an attribute,
for the value of a return expression, or for the matches of the path. A result that is null or an
empty list is replaced by the fallback, if one is given. The result is written with one element a
line.
-/

namespace PathQuery.CommandLine

structure Outcome where
  exitCode : Nat
  stdout : String
  stderr : String
  deriving DecidableEq

/-- The options of the engine: those of the configuration file, with strict escapes if asked for. -/
def optionsOf (files : String → Option String) (arguments : Arguments) : Except String Options := do
  let options ← match arguments.config with
    | none => .ok Options.default
    | some file =>
      match files file with
      | none => .error "Cannot read config"
      | some text =>
        match Options.read? text with
        | none => .error "Invalid config"
        | some options => .ok options
  return if arguments.strictEscapes then ⟨true⟩ else options

def resultOf (settings : Settings) (document : Json) (arguments : Arguments) :
    Engine.Query Json := do
  match arguments.attributeName, arguments.returnText with
  | some name, _ =>
    return (← Engine.readAttribute settings document arguments.path name).getD .null
  | none, some text =>
    let reduction ← ExceptT.mk (return Reduction.read text)
    Engine.extract settings document arguments.path reduction
  | none, none =>
    let found ← if arguments.distinct then Engine.findDistinct settings document arguments.path
      else Engine.find settings document arguments.path
    return .array (found.map Match.toJson)

/-- The fallback as a value: a document if it is one, otherwise a string. -/
def fallbackValue (text : String) : Json := (Json.read? text).getD (.string text)

/-- The result, or the fallback in place of a result that is null or an empty list. -/
def withFallback (fallback : Option String) (result : Json) : Json :=
  match fallback, result with
  | some text, .null | some text, .array [] => fallbackValue text
  | _, result => result

def answer (files : String → Option String) (arguments : Arguments) :
    Session (Except String Json) := do
  match Json.read? arguments.document with
  | none => return .error "Invalid JSON"
  | some document =>
    match optionsOf files arguments with
    | .error message => return .error message
    | .ok options =>
      match ← (resultOf ⟨options, Registry.builtins⟩ document arguments).run with
      | .error error => return .error error.message
      | .ok result => return .ok (withFallback arguments.fallback result)

def versionLine : String := "json-path-extract 0.1.0"

def helpText : String := "\n".intercalate [
  "Match a path expression against a JSON document.",
  "",
  "Arguments: JSON PATH [--distinct] [--return EXPR | --attribute NAME] [--config FILE]",
  "           [--strict-escapes] [--default VALUE] [--verbose]"]

/-- Runs a request. The files are given by name. -/
def Request.outcome (files : String → Option String) : Request → Session Outcome
  | .refuse => return ⟨2, "", ""⟩
  | .showVersion => return ⟨0, versionLine ++ "\n", ""⟩
  | .showHelp => return ⟨0, helpText ++ "\n", ""⟩
  | .run arguments => do
    match ← answer files arguments with
    | .error message => return ⟨1, "", message⟩
    | .ok value => return ⟨0, value.pretty ++ "\n", ""⟩

end PathQuery.CommandLine
