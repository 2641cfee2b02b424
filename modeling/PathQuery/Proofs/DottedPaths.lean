import Mathlib.Data.List.Forall2
import PathQuery.Proofs.Walk.Branch
import PathQuery.Proofs.Walk.Notices

/-!
# The parts of a dotted path

A dotted path is looked at twice: its functions are checked when a filter is read, and the path is
followed when it is evaluated. The check takes its segments as they are written, and following takes
them without the blanks around them. Both come to the same parts: a segment that spells a call is a
call, and any other segment is a key.

So the check is exact. It refuses a path with an error exactly if following the path can come to
this error on some value. The value is built from the keys before the call: an object around an
object and so on, down to an empty list.

Results:
1. `spells_iff`: each segment spells one part.
2. `checkSegments_eq`, `follow_eq`: the check and the evaluation by parts.
3. `segments_read_alike`: what is read as a call, wherever it is read.
4. `checkSegments_eq_error_iff`: what the check refuses, and why.
-/

namespace PathQuery.Filter

/-! ## Parts -/

/-- What a segment of a dotted path asks for: a member of an object, or the value of a function. -/
inductive Part where
  | member (key : String)
  | call (name : String)

/-- A segment spells a call if it can, and otherwise a key without the blanks around it. -/
inductive Part.Spells (segment : String) : Part → Prop
  | call {name : String} : Segment.SpellsCall segment.toList name → Spells segment (.call name)
  | member : (∀ name, ¬ Segment.SpellsCall segment.toList name) →
      Spells segment (.member (Text.trim segment))

namespace Part

def ofSegment (segment : String) : Part :=
  match Segment.callName? segment with
  | some name => .call name
  | none => .member (Text.trim segment)

/-- A call stands at the end and has a registered name. -/
def check (functions : Registry) (path : String) : List Part → Except QueryError Unit
  | [] => .ok ()
  | .member _ :: rest => check functions path rest
  | .call name :: rest =>
    if rest ≠ [] then .error (.functionNotLast path)
    else if functions.contains name then .ok ()
    else .error (.unknownFunction name)

/-- Goes to the member of each key, and calls a function of what has been reached. Null is nothing
to go on from, and no value either. -/
def follow (functions : Registry) (path : String) :
    List Part → Json → Except QueryError (Option Json)
  | [], value => .ok (if value.isNull then none else some value)
  | .member key :: rest, value =>
    match value.child? (.member key) with
    | some child => follow functions path rest child
    | none => .ok none
  | .call name :: rest, value =>
    if value.isNull then .ok none
    else if rest ≠ [] then .error (.functionNotLast path)
    else (fun result => if result.isNull then none else some result) <$>
      functions.evaluate name value

theorem spells_iff {segment : String} {part : Part} :
    Spells segment part ↔ part = ofSegment segment := by
  unfold ofSegment
  cases hcall : Segment.callName? segment with
  | some name =>
    have hspells := Segment.callName?_eq_some_iff.1 hcall
    constructor
    · intro h
      cases h with
      | call hown =>
        rw [Segment.callName?_eq_some_iff.2 hown] at hcall
        exact congrArg call (Option.some.inj hcall)
      | member hnone => exact absurd hspells (hnone name)
    · rintro rfl
      exact .call hspells
  | none =>
    have hnone (name : String) : ¬ Segment.SpellsCall segment.toList name := fun h => by
      rw [Segment.callName?_eq_some_iff.2 h] at hcall
      cases hcall
    constructor
    · intro h
      cases h with
      | call hown => exact absurd hown (hnone _)
      | member => rfl
    · rintro rfl
      exact .member hnone

theorem forall₂_spells_iff {segments : List String} {parts : List Part} :
    List.Forall₂ Spells segments parts ↔ parts = segments.map ofSegment := by
  induction segments generalizing parts with
  | nil => exact List.forall₂_nil_left_iff
  | cons segment rest ih =>
    rw [List.forall₂_cons_left_iff, List.map_cons]
    constructor
    · rintro ⟨part, parts, hpart, hparts, rfl⟩
      rw [spells_iff.1 hpart, ih.1 hparts]
    · rintro rfl
      exact ⟨_, _, spells_iff.2 rfl, ih.2 rfl, rfl⟩

end Part

variable {functions : Registry}

/-! ## The check and the evaluation by parts -/

theorem checkSegments_eq (path : String) (segments : List String) :
    checkSegments functions path segments =
      Part.check functions path (segments.map Part.ofSegment) := by
  induction segments with
  | nil => rfl
  | cons segment rest ih =>
    rw [List.map_cons, Part.ofSegment, checkSegments]
    cases Segment.callName? segment with
    | none => exact ih
    | some name =>
      simp only [Part.check, ne_eq, List.map_eq_nil_iff, knownFunction]
      split
      · rfl
      · split
        · rfl
        · rfl

theorem follow_eq (path : String) (segments : List String) (value : Json) :
    follow functions path segments value =
      Part.follow functions path (segments.map Part.ofSegment) value := by
  induction segments generalizing value with
  | nil => rfl
  | cons segment rest ih =>
    rw [List.map_cons, Part.ofSegment, follow]
    simp only [Segment.callName?_trim]
    cases Segment.callName? segment with
    | none =>
      -- Null has no members, so it needs no test of its own before a key.
      cases value with
      | object members =>
        simp only [Part.follow, Json.child?, ← ih]
        rfl
      | _ => rfl
    | some name =>
      simp only [Part.follow, ne_eq, List.map_eq_nil_iff]
      split
      · rfl
      · split
        · rfl
        · next hlast =>
          obtain rfl := not_not.1 hlast
          cases functions.evaluate name value with
          | _ => rfl

/-- A segment is read as a call exactly if it spells this call, and the blanks around it make no
difference. So the segments of a dotted path spell its parts in one way, and the check of a filter
and the evaluation of the path both go by these parts, whatever the functions and the value are. -/
theorem segments_read_alike :
    (∀ segment name : String,
      Segment.callName? segment = some name ↔ Segment.SpellsCall segment.toList name) ∧
    (∀ segment : String, Segment.callName? (Text.trim segment) = Segment.callName? segment) ∧
    ∀ path : String, ∃ parts : List Part,
      (∀ others, List.Forall₂ Part.Spells (Text.split dot path) others ↔ others = parts) ∧
      ∀ functions : Registry,
        checkSegments functions path (Text.split dot path) = Part.check functions path parts ∧
        ∀ node : Json,
          (valueIn functions path node).result = Part.follow functions path parts node := by
  refine ⟨fun segment name => Segment.callName?_eq_some_iff, Segment.callName?_trim,
    fun path => ⟨(Text.split dot path).map Part.ofSegment, fun others => Part.forall₂_spells_iff,
      fun functions => ⟨checkSegments_eq path _, fun node => ?_⟩⟩⟩
  rw [result_valueIn, follow_eq]

/-! ## What the check refuses -/

namespace Part

variable {path name : String} {rest : List Part} {error : QueryError}

theorem check_call_eq_error_iff :
    check functions path (.call name :: rest) = .error error ↔
      rest ≠ [] ∧ error = .functionNotLast path ∨
      rest = [] ∧ functions.contains name = false ∧ error = .unknownFunction name := by
  rw [check]
  by_cases hrest : rest = []
  · cases hknown : functions.contains name with
    | true => simp [hrest]
    | false => simp [hrest, @eq_comm _ error]
  · simp [hrest, @eq_comm _ error]

theorem follow_call_eq_error_iff {value : Json} :
    follow functions path (.call name :: rest) value = .error error ↔
      value.isNull = false ∧ (rest ≠ [] ∧ error = .functionNotLast path ∨
        rest = [] ∧ functions.evaluate name value = .error error) := by
  rw [follow]
  cases hnull : value.isNull with
  | true => simp
  | false =>
    by_cases hrest : rest = []
    · cases functions.evaluate name value with
      | ok result => simp [hrest]
      | error own => simp [hrest]
    · simp [hrest, @eq_comm _ error]

/-- An error of the check is met on some value. -/
theorem exists_follow_of_check {parts : List Part}
    (h : check functions path parts = .error error) :
    error.kind = .config ∧
      ∃ value : Json, value.Ordered ∧ follow functions path parts value = .error error := by
  induction parts with
  | nil => cases h
  | cons part rest ih =>
    cases part with
    | member key =>
      -- The key is followed in an object that has nothing else.
      obtain ⟨hkind, value, hordered, hvalue⟩ := ih h
      refine ⟨hkind, .object [(key, value)], ⟨List.pairwise_singleton _ _, hordered, trivial⟩, ?_⟩
      have hchild : (Json.object [(key, value)]).child? (.member key) = some value := by
        simp [Json.child?]
      rw [follow, hchild]
      exact hvalue
    | call name =>
      -- Neither error depends on the elements, so the empty list will do.
      rcases check_call_eq_error_iff.1 h with ⟨hrest, rfl⟩ | ⟨hrest, hunknown, rfl⟩
      · exact ⟨rfl, .array [], trivial, follow_call_eq_error_iff.2 ⟨rfl, .inl ⟨hrest, rfl⟩⟩⟩
      · have hvalue : functions.evaluate name (.array []) = .error (.unknownFunction name) :=
          Registry.evaluate_of_not_contains hunknown rfl
        exact ⟨rfl, .array [], trivial, follow_call_eq_error_iff.2 ⟨rfl, .inr ⟨hrest, hvalue⟩⟩⟩

/-- A configuration error on the way is the one that the check finds, as no member leads around the
first call. -/
theorem check_of_follow (hfunctions : functions.NoConfig) {parts : List Part} {value : Json}
    (hkind : error.kind = .config) (h : follow functions path parts value = .error error) :
    check functions path parts = .error error := by
  induction parts generalizing value with
  | nil => cases h
  | cons part rest ih =>
    cases part with
    | member key =>
      rw [follow] at h
      split at h
      · exact ih h
      · cases h
    | call name =>
      obtain ⟨-, ⟨hrest, rfl⟩ | ⟨hrest, hvalue⟩⟩ := follow_call_eq_error_iff.1 h
      · exact check_call_eq_error_iff.2 (.inl ⟨hrest, rfl⟩)
      · obtain ⟨hunknown, rfl⟩ := Registry.unknown_of_evaluate hfunctions hvalue hkind
        exact check_call_eq_error_iff.2 (.inr ⟨hrest, hunknown, rfl⟩)

end Part

/-- The check refuses a dotted path with an error exactly if this is a configuration error that the
evaluation of the path meets on some document, unless functions give such errors of their own. -/
theorem checkSegments_eq_error_iff (hfunctions : functions.NoConfig) {path : String}
    {error : QueryError} :
    checkSegments functions path (Text.split dot path) = .error error ↔
      error.kind = .config ∧
        ∃ node : Json, node.Ordered ∧ (valueIn functions path node).result = .error error := by
  simp only [checkSegments_eq, result_valueIn, follow_eq]
  constructor
  · exact Part.exists_follow_of_check
  · rintro ⟨hkind, node, -, hnode⟩
    exact Part.check_of_follow hfunctions hkind hnode

end PathQuery.Filter
