import PathQuery.Json.Reader
import PathQuery.Path.Parser

/-!
# Options as texts

The options of an engine are written as an object with the field `strict_escapes`, or as a list of
at most one element. A missing field has its default, and other fields are passed over without
looking at their values. The field may not be repeated.
-/

namespace PathQuery.Options

def strictEscapesField : String := "strict_escapes"

def ofField? : JsonSource → Option Options
  | .bool b => some ⟨b⟩
  | _ => none

/-- The options that a document spells. -/
def ofSource? : JsonSource → Option Options
  | .array [] => some .default
  | .array [field] => ofField? field
  | .object members => do
    let named ← members.mapM fun (name, value) => do return (← TextUnit.text? name, value)
    match named.filter fun (name, _) => name = strictEscapesField with
    | [] => some .default
    | [(_, field)] => ofField? field
    | _ => none
  | _ => none

def read? (text : String) : Option Options := do ofSource? (← JsonSource.ofText? text)

def toJson (options : Options) : Json :=
  .ofMembers [(strictEscapesField, .bool options.strictEscapes)]

end PathQuery.Options
