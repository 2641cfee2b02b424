/-!
# Arguments of the command

The command takes a document and a path, and options anywhere before `--`. The arguments are read
from left to right; the first one that is wrong, or that asks for the version or for help, decides.

* A switch is given once and without a value.
* Other options are given once, as `--name value` or `--name=value`. A value after a blank may not
  start with a dash, unless it is a single dash.
* One dash starts a group of one-letter switches. A single dash is a plain argument.
-/

namespace PathQuery.CommandLine

structure Arguments where
  document : String
  path : String
  distinct : Bool
  strictEscapes : Bool
  verbose : Bool
  returnText : Option String
  attributeName : Option String
  config : Option String
  fallback : Option String
  deriving DecidableEq

inductive Request where
  | run (arguments : Arguments)
  | showVersion
  | showHelp
  | refuse
  deriving DecidableEq

inductive Switch where
  | distinct
  | strictEscapes
  | verbose
  | version
  | help
  deriving DecidableEq

inductive Setting where
  | returnText
  | attributeName
  | config
  | fallback
  deriving DecidableEq

def Switch.ofName? : String → Option Switch
  | "distinct" => some .distinct
  | "strict-escapes" => some .strictEscapes
  | "verbose" => some .verbose
  | "version" => some .version
  | "help" => some .help
  | _ => none

def Switch.ofLetter? : Char → Option Switch
  | 'v' => some .verbose
  | 'V' => some .version
  | 'h' => some .help
  | _ => none

def Setting.ofName? : String → Option Setting
  | "return" => some .returnText
  | "attribute" => some .attributeName
  | "config" => some .config
  | "default" => some .fallback
  | _ => none

/-! ## Reading -/

/-- What has been read so far; plain arguments and option values are in reverse. -/
structure Reading where
  plain : List String
  switches : List Switch
  values : List (Setting × String)

namespace Reading

def start : Reading := ⟨[], [], []⟩

def value? (reading : Reading) (setting : Setting) : Option String :=
  (reading.values.find? fun entry => entry.1 = setting).map Prod.snd

/-- Reads a plain argument. There are at most two. -/
def addPlain (reading : Reading) (argument : String) : Except Request Reading :=
  if reading.plain.length < 2 then .ok { reading with plain := argument :: reading.plain }
  else .error .refuse

def addSwitch (reading : Reading) (switch : Switch) : Except Request Reading :=
  match switch with
  | .version => .error .showVersion
  | .help => .error .showHelp
  | _ =>
    if switch ∈ reading.switches then .error .refuse
    else .ok { reading with switches := switch :: reading.switches }

/-- Reads an option with its value. The name of a file is not empty. -/
def addValue (reading : Reading) (setting : Setting) (value : String) : Except Request Reading :=
  if (reading.value? setting).isSome ∨ (setting = .config ∧ value = "") then .error .refuse
  else .ok { reading with values := (setting, value) :: reading.values }

def addLetters (reading : Reading) (letters : List Char) : Except Request Reading :=
  letters.foldlM (fun reading letter =>
    match Switch.ofLetter? letter with
    | some switch => reading.addSwitch switch
    | none => .error .refuse) reading

def finish (reading : Reading) : Request :=
  match reading.plain with
  | [path, document] =>
    if (reading.value? .attributeName).isSome ∧ (reading.value? .returnText).isSome then .refuse
    else .run {
      document := document
      path := path
      distinct := .distinct ∈ reading.switches
      strictEscapes := .strictEscapes ∈ reading.switches
      verbose := .verbose ∈ reading.switches
      returnText := reading.value? .returnText
      attributeName := reading.value? .attributeName
      config := reading.value? .config
      fallback := reading.value? .fallback }
  | _ => .refuse

end Reading

inductive Shape where
  /-- two dashes alone -/
  | endOfOptions
  /-- a long name, with a value if there is an equals sign -/
  | long (name : String) (value : Option String)
  /-- one-letter switches -/
  | letters (letters : List Char)
  | plain

def Shape.of (argument : String) : Shape :=
  match argument.toList with
  | ['-', '-'] => .endOfOptions
  | '-' :: '-' :: name =>
    match name.dropWhile (· ≠ '=') with
    | _ :: value => .long (String.ofList (name.takeWhile (· ≠ '='))) (some (String.ofList value))
    | [] => .long (String.ofList name) none
  | '-' :: first :: others => .letters (first :: others)
  | _ => .plain

/-- Reads arguments from left to right. After the end of the options every argument is plain. -/
def read (reading : Reading) : List String → Except Request Reading
  | [] => .ok reading
  | argument :: rest =>
    match Shape.of argument with
    | .endOfOptions => rest.foldlM Reading.addPlain reading
    | .plain => do read (← reading.addPlain argument) rest
    | .letters letters => do read (← reading.addLetters letters) rest
    | .long name value =>
      match Switch.ofName? name, Setting.ofName? name, value with
      | some switch, _, none => do read (← reading.addSwitch switch) rest
      | none, some setting, some value => do read (← reading.addValue setting value) rest
      | none, some setting, none =>
        match rest with
        | value :: rest =>
          -- A value in an argument of its own may not look like an option.
          match Shape.of value with
          | .plain => do read (← reading.addValue setting value) rest
          | _ => .error .refuse
        | [] => .error .refuse
      | _, _, _ => .error .refuse

def Request.ofArguments (arguments : List String) : Request :=
  match read .start arguments with
  | .ok reading => reading.finish
  | .error request => request

example : Request.ofArguments ["-1", "$"] = .refuse := by decide
example : Request.ofArguments ["--distinct", "--version", "--nope"] = .showVersion := by decide

end PathQuery.CommandLine
