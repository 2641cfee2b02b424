import PathQuery.Proofs.Session.Transparency

/-!
# The value of an attribute

An attribute of the one object that a path leads to is its member of that name, or, if the name has
a dot, what the name finds as an expression. There is a value if exactly one of them is there, and
both at once are refused.

An expression can fail only where it calls a function. Such a failure is the answer even beside a
member that could be read: unlike a clause of a filter, an attribute does not take it for no value.
-/

namespace PathQuery

namespace Filter

/-- Without a call there is nothing in an expression that could fail. -/
theorem exists_follow_of_no_call (functions : Registry) (expression : String)
    {segments : List String}
    (hplain : ∀ segment ∈ segments, Segment.callName? (Text.trim segment) = none) (node : Json) :
    ∃ value?, follow functions expression segments node = .ok value? := by
  induction segments generalizing node with
  | nil => exact ⟨_, rfl⟩
  | cons segment rest ih =>
    obtain ⟨hsegment, hrest⟩ := List.forall_mem_cons.1 hplain
    unfold follow
    split
    · exact ⟨none, rfl⟩
    · simp only [hsegment]
      cases node with
      | object members =>
        cases hchild : members.lookup (Text.trim segment) with
        | none => exact ⟨none, by simp only [hchild]⟩
        | some child => simpa only [hchild] using ih hrest child
      | _ => exact ⟨none, rfl⟩

theorem exists_result_valueIn_of_no_call (functions : Registry) {expression : String}
    (hplain : ∀ segment ∈ Text.split dot expression,
      Segment.callName? (Text.trim segment) = none) (node : Json) :
    ∃ value?, (valueIn functions expression node).result = .ok value? :=
  exists_follow_of_no_call functions expression hplain node

end Filter

namespace Engine

open Session

/-- How an attribute of an object is answered, by its member of that name and the outcome of the
name as an expression. -/
structure Reads (name : String) (field : Option Json)
    (expression answer : Except QueryError (Option Json)) : Prop where
  /-- two values are the only reason to refuse -/
  refused_iff {value : Option Json} : expression = .ok value →
    ((∃ error, answer = .error error) ↔ field.isSome ∧ value.isSome)
  ambiguous {member value : Json} : field = some member → expression = .ok (some value) →
    answer = .error (.ambiguousAttribute name member value)
  /-- the one value there is, or none -/
  single {value : Option Json} : expression = .ok value → field = none ∨ value = none →
    answer = .ok (field.or value)
  /-- no value stands in for an expression that fails -/
  failed {error : QueryError} : expression = .error error → answer = .error error

theorem reads_onlyOf (name : String) (field : Option Json)
    (expression : Except QueryError (Option Json)) :
    Reads name field expression (expression >>= onlyOf name field) where
  refused_iff := by
    rintro value rfl
    change (∃ error, onlyOf name field value = .error error) ↔ _
    cases field <;> cases value <;> simp [onlyOf]
  ambiguous := by
    rintro member value rfl rfl
    rfl
  single := by
    rintro value rfl hnone
    exact onlyOf_eq_ok hnone
  failed := by
    rintro error rfl
    rfl

variable (settings : Settings)

/-- After any operations, an attribute of the object that a path leads to is its member of that name
or what the name finds in it as an expression: both at once are refused, one of them is the answer,
and so is none. An expression that fails makes its error the answer, but without a call it cannot
fail. There is no value for no match or several, and a match that is no object is an error. -/
theorem readAttribute_member_or_expression (before : List Operation) (document : Json)
    (path name : String) {found : List Match}
    (hfound : ((find settings document path).run.run
      (Operation.memoryAfter settings before)).1 = .ok found) :
    let answer := ((readAttribute settings document path name).run.run
      (Operation.memoryAfter settings before)).1
    (found.length ≠ 1 → answer = .ok none) ∧
    ∀ m, found = [m] →
      ((∀ members, m.value ≠ .object members) → answer = .error (.notAnObject path m.value)) ∧
      ∀ members, m.value = .object members →
        let expression := if '.' ∈ name.toList then
          ((valueIn settings name m.value).run.run (Operation.memoryAfter settings before)).1
          else .ok none
        Reads name (member? members name) expression answer ∧
        ((∀ segment ∈ Text.split Filter.dot name,
          Segment.callName? (Text.trim segment) = none) → ∃ value, expression = .ok value) := by
  have hanswer := Operation.run_memoryAfter
    (answers_readAttribute settings document path name) before
  rw [Operation.run_find_memoryAfter] at hfound
  unfold attributeIn at hanswer
  rw [hfound] at hanswer
  intro answer
  change answer = _ at hanswer
  refine ⟨fun hlength => ?_, ?_⟩
  · rcases found with _ | ⟨m, _ | ⟨_, _⟩⟩
    · exact hanswer
    · exact absurd rfl hlength
    · exact hanswer
  · rintro ⟨place, bindings, value⟩ rfl
    refine ⟨fun hvalue => ?_, ?_⟩
    · cases value with
      | object members => exact absurd rfl (hvalue members)
      | _ => exact hanswer
    · rintro members rfl expression
      have hexpressed : expression = expressed settings name (.object members) := by
        unfold expression
        rw [Operation.run_memoryAfter (answers_valueIn settings name _)]
        rfl
      rw [hanswer, hexpressed]
      refine ⟨reads_onlyOf name _ _, fun hplain => ?_⟩
      unfold expressed
      split
      · exact Filter.exists_result_valueIn_of_no_call settings.functions hplain _
      · exact ⟨none, rfl⟩

/-- A member under a dotted name, beside an expression with a value. -/
theorem readAttribute_member_or_expression_of_both :
    let settings : Settings := ⟨.default, .builtins⟩
    let document : Json := .object
      [("s", .object [("a", .object [("b", .bool true)]), ("a.b", .bool false)])]
    ((readAttribute settings document "$.s" "a.b").run.run
      (Operation.memoryAfter settings [.parse "$["])).1 =
        .error (.ambiguousAttribute "a.b" (.bool false) (.bool true)) := by
  intro settings document
  have hread : (Path.read ⟨.default, .builtins⟩ "$.s").result = .ok [.key "s"] := by
    decide +kernel
  let members : List (String × Json) := [("a", .object [("b", .bool true)]), ("a.b", .bool false)]
  have hfound : ((find settings document "$.s").run.run
      (Operation.memoryAfter settings [.parse "$["])).1 =
        .ok [⟨"$.s", .empty, .object members⟩] := by
    rw [Operation.run_find_memoryAfter, matchesOf_of_read hread]
    decide +kernel
  obtain ⟨-, hone⟩ := readAttribute_member_or_expression settings [.parse "$["] document "$.s" "a.b"
    hfound
  obtain ⟨-, hobject⟩ := hone _ rfl
  obtain ⟨hreads, -⟩ := hobject members rfl
  refine hreads.ambiguous (member?_eq_some_iff.2 ⟨by decide +kernel, nofun⟩) ?_
  rw [if_pos (by decide), Operation.run_memoryAfter (answers_valueIn settings "a.b" _)]
  decide +kernel

/-- A member under a name that looks like an expression with a call. The call fails, so the member
cannot be read, although there is no second value. -/
theorem readAttribute_fails_beside_member :
    let settings : Settings := ⟨.default, .builtins⟩
    let members : List (String × Json) := [("a", .bool true), ("a.sum()", .bool false)]
    let document : Json := .object [("s", .object members)]
    ((find settings document "$.s").run.run (Operation.memoryAfter settings [])).1 =
      .ok [⟨"$.s", .empty, .object members⟩] ∧
    member? members "a.sum()" = some (.bool false) ∧
    ((valueIn settings "a.sum()" (.object members)).run.run
      (Operation.memoryAfter settings [])).1 = .error (.notACollection "sum" (.bool true)) ∧
    ((readAttribute settings document "$.s" "a.sum()").run.run
      (Operation.memoryAfter settings [])).1 = .error (.notACollection "sum" (.bool true)) := by
  intro settings members document
  have hread : (Path.read ⟨.default, .builtins⟩ "$.s").result = .ok [.key "s"] := by
    decide +kernel
  have hfound : matchesOf settings .empty document "$.s" =
      .ok [⟨"$.s", .empty, .object members⟩] := by
    rw [matchesOf_of_read hread]
    decide +kernel
  have hexpression : (Filter.valueIn settings.functions "a.sum()" (.object members)).result =
      .error (.notACollection "sum" (.bool true)) := by
    decide +kernel
  refine ⟨?_, by decide +kernel, ?_, ?_⟩
  · rw [Operation.run_find_memoryAfter, hfound]
  · rw [Operation.run_memoryAfter (answers_valueIn settings "a.sum()" _), hexpression]
  · rw [Operation.run_memoryAfter (answers_readAttribute settings document "$.s" "a.sum()")]
    unfold attributeIn
    rw [hfound]
    decide +kernel

end Engine

end PathQuery
