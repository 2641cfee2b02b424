import PathQuery.Error
import PathQuery.Match
import PathQuery.Text.Blank
import PathQuery.Text.Split

/-!
# Return expressions

A return expression reduces the matches of a path to one value. It is written as one of

* nothing: the value of the match;
* `pathTags:name`: the text that the name is bound to;
* `valueOfKey:key`: the member of the value with that key;
* `countMatches`, in any letter case: the number of matches;
* `substring_start(inner)` or `substring_start_stop(inner)`: a part of the text of another return
  expression.

Only `countMatches` takes several matches. Without a match every other expression gives null.
-/

namespace PathQuery

/-- A reduction of matches to one value. -/
inductive Reduction where
  | matched
  | pathTag (name : String)
  | valueOfKey (key : String)
  | countMatches
  | substring (start : Nat) (stop : Option Nat) (inner : Reduction)
  deriving DecidableEq

namespace Reduction

/-! ## Reading -/

/-- A letter in lower case; other characters are left as they are. -/
def lower (c : Char) : Char := if 'A' ≤ c ∧ c ≤ 'Z' then Char.ofNat (c.toNat + 32) else c

def isWordChar (c : Char) : Bool := c.isAlphanum || c == '_'

/-- The bounds that a text spells: where the substring starts, and where it stops if that is
given. -/
def bounds? (text : String) : Option (Nat × Option Nat) :=
  match Text.cutAt? '_' text with
  | some (start, stop) => do return (← Text.position? start, some (← Text.position? stop))
  | none => do return (← Text.position? text, none)

/-- The text of the bounds, and the expression in parentheses after it. -/
def substringParts? (cs : List Char) : Option (List Char × List Char) :=
  match (cs.dropWhile isWordChar).dropWhile Text.isBlank with
  | '(' :: rest => do
    let inner ← Text.dropFinish? [')'] (Text.dropEndWhile Text.isBlank rest)
    return (cs.takeWhile isWordChar, inner)
  | _ => none

/-- An expression up to the expression inside it, which is still a text. -/
inductive Head where
  | whole (reduction : Reduction)
  | substring (start : Nat) (stop : Option Nat) (inner : List Char)

/-- The substring that the characters after `substring_` spell. -/
def readSubstring? (rest : List Char) : Option Head := do
  let (bounds, inner) ← substringParts? rest
  let (start, stop) ← bounds? (String.ofList bounds)
  return .substring start stop inner

/-- The head of the expression that a trimmed text spells. -/
def readHead (cs : List Char) : Except QueryError Head :=
  if cs = [] then .ok (.whole .matched)
  else match Text.dropStart? "pathTags:".toList cs with
    | some name => .ok (.whole (.pathTag (Text.trim (String.ofList name))))
    | none =>
      match Text.dropStart? "valueOfKey:".toList cs with
      | some key => .ok (.whole (.valueOfKey (Text.trim (String.ofList key))))
      | none =>
        if cs.map lower = "countmatches".toList then .ok (.whole .countMatches)
        else match Text.dropStart? "substring_".toList cs with
          | none => .error (.unknownReturn (String.ofList cs))
          | some rest =>
            match readSubstring? rest with
            | none => .error (.badSubstring (String.ofList cs))
            | some head => .ok head

/-- The expression in parentheses is shorter than the text it stands in. -/
theorem length_lt_of_readSubstring? {cs inner : List Char} {start : Nat} {stop : Option Nat}
    (h : readSubstring? cs = some (.substring start stop inner)) : inner.length < cs.length := by
  simp only [readSubstring?, substringParts?, Option.bind_eq_bind, Option.bind_eq_some_iff] at h
  obtain ⟨⟨bounds, text⟩, hparts, _, _, hhead⟩ := h
  obtain ⟨_, _, (rfl : text = inner)⟩ := Head.substring.inj (Option.some.inj hhead)
  split at hparts
  · next rest hrest =>
    simp only [Option.bind_eq_some_iff, Option.pure_def, Option.some.injEq, Prod.mk.injEq,
      Text.dropFinish?_eq_some_iff] at hparts
    obtain ⟨_, hinner, _, rfl⟩ := hparts
    have h1 := congrArg List.length hinner
    have h2 := congrArg List.length hrest
    have h3 := Text.length_dropEndWhile_le Text.isBlank rest
    have h4 := (List.dropWhile_sublist Text.isBlank (l := cs.dropWhile isWordChar)).length_le
    have h5 := (List.dropWhile_sublist isWordChar (l := cs)).length_le
    simp only [List.length_append, List.length_cons] at h1 h2
    omega
  · simp at hparts

theorem length_lt_of_readHead {cs inner : List Char} {start : Nat} {stop : Option Nat}
    (h : readHead cs = .ok (.substring start stop inner)) : inner.length < cs.length := by
  unfold readHead at h
  split at h
  · simp at h
  · split at h
    · simp at h
    · split at h
      · simp at h
      · split at h
        · simp at h
        · split at h
          · simp at h
          · next rest hrest =>
            split at h
            · simp at h
            · next head hhead =>
              obtain rfl : head = .substring start stop inner := by simpa using h
              have h1 := length_lt_of_readSubstring? hhead
              have h2 := congrArg List.length (Text.dropStart?_eq_some_iff.1 hrest)
              rw [List.length_append] at h2
              omega

def ofChars (cs : List Char) : Except QueryError Reduction :=
  match _h : readHead (Text.trimBy Text.isBlank cs) with
  | .error error => .error error
  | .ok (.whole reduction) => .ok reduction
  | .ok (.substring start stop inner) => do return .substring start stop (← ofChars inner)
termination_by cs.length
decreasing_by
  exact Nat.lt_of_lt_of_le (length_lt_of_readHead _h) (Text.length_trimBy_le _ cs)

def read (text : String) : Except QueryError Reduction := ofChars text.toList

example : (read "substring_0_2( COUNTMATCHES )").toOption =
    some (.substring 0 (some 2) .countMatches) := by decide +kernel

/-! ## Reducing -/

def acceptsMany : Reduction → Bool
  | .countMatches => true
  | _ => false

/-- The characters of a text from `start` on and before `stop`, which is the end if not given. -/
def cut (start : Nat) (stop : Option Nat) (text : String) : Except QueryError String :=
  let stop := stop.getD text.length
  if start ≤ stop ∧ stop ≤ text.length then
    .ok (String.ofList ((text.toList.take stop).drop start))
  else .error (.cutOutside start stop text)

/-- The value of the expression for the first of the matches. -/
def apply (matched : List Match) : Reduction → Except QueryError Json
  | .countMatches => .ok (.number (.int matched.length))
  | .matched => .ok ((matched.head?.map Match.value).getD .null)
  | .pathTag name =>
    .ok (((matched.head?.bind fun m => m.bindings.get? name).map Json.string).getD .null)
  | .valueOfKey key =>
    match matched.head?.map Match.value with
    | none => .ok .null
    | some (.object members) => .ok ((members.lookup key).getD .null)
    | some found => .error (.keyOfNonObject key found)
  | .substring start stop inner =>
    if matched = [] then .ok .null
    else do
      let value ← apply matched inner
      if value.isNull then return .null else return .string (← cut start stop value.plainText)

/-- The value of the expression for the matches of a path. -/
def evaluate (reduction : Reduction) (matched : List Match) : Except QueryError Json :=
  if 1 < matched.length ∧ reduction.acceptsMany = false then .error (.manyMatches matched.length)
  else reduction.apply matched

end Reduction

end PathQuery
