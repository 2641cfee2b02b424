import PathQuery.Proofs.Aggregate.Failures
import PathQuery.Proofs.Path.Validity

/-!
# What a walk complains of

A function that fails on the way of a path ends its branch with a notice, and so does a clause that
cannot be evaluated. Reading has checked the functions of both, so a walk along valid steps never
finds that one is missing or out of place: it only ever reports what the functions themselves say
of their values.

Results:
1. `kind_of_valueIn`: a valid clause gives no configuration error, whatever the value is.
2. `writes_along`: so a walk along valid steps reports none.
-/

namespace PathQuery

variable {functions : Registry} {error : QueryError}

/-! ## Clauses -/

/-- Following checked segments, a function is only met where it may stand. -/
theorem Filter.kind_of_follow (hfunctions : functions.NoConfig) {expression : String}
    {segments : List String} (hcalls : CallsLast functions segments) {current : Json}
    (h : follow functions expression segments current = .error error) : error.kind ≠ .config := by
  induction segments generalizing current with
  | nil => cases h
  | cons segment rest ih =>
    obtain ⟨hsegment, hrest⟩ := callsLast_cons_iff.1 hcalls
    simp only [follow, Segment.callName?_trim] at h
    split at h
    · cases h
    · cases hcall : Segment.callName? segment with
      | some name =>
        obtain ⟨rfl, hknown⟩ := hsegment name hcall
        simp only [hcall, ne_eq, not_true_eq_false, ↓reduceIte] at h
        cases hvalue : functions.evaluate name current with
        | error own =>
          rw [hvalue] at h
          cases h
          exact Registry.kind_of_evaluate hfunctions hknown hvalue
        | ok value =>
          rw [hvalue] at h
          cases h
      | none =>
        rw [hcall] at h
        cases current with
        | object members =>
          simp only at h
          split at h
          · exact ih hrest h
          · cases h
        | _ => cases h

theorem Filter.result_valueIn (functions : Registry) (expression : String) (node : Json) :
    (valueIn functions expression node).result =
      follow functions expression (Text.split dot expression) node := by
  simp only [valueIn, Attempt.result_bind, Attempt.result_pieces, Attempt.result_ofExcept,
    Path.ok_bind]

theorem Clause.Valid.kind_of_valueIn (hfunctions : functions.NoConfig) {clause : Clause}
    (hclause : clause.Valid functions) {node : Json}
    (h : (Filter.valueIn functions clause.path node).result = .error error) :
    error.kind ≠ .config := by
  rw [Filter.result_valueIn] at h
  exact Filter.kind_of_follow hfunctions hclause.calls h

/-! ## Notices -/

def Notice.error? : Notice → Option QueryError
  | .clauseFailed _ error => some error
  | .functionFailed _ _ error => some error
  | _ => none

/-- The notice is about no configuration error. -/
def Notice.NoConfig (notice : Notice) : Prop :=
  ∀ error, notice.error? = some error → error.kind ≠ .config

theorem Notice.noConfig_of_error?_eq_none {notice : Notice} (h : notice.error? = none) :
    notice.NoConfig := by
  intro error herror
  rw [h] at herror
  cases herror

namespace Walk

/-- A part of a walk writes only notices of this kind, under any bindings. -/
def Writes (P : Notice → Prop) (walk : Walk α) : Prop :=
  ∀ bindings, ∀ notice ∈ (walk.run bindings).notices, P notice

section Rules

variable {P : Notice → Prop}

theorem writes_pure (a : α) : Writes P (pure a) := fun _ _ h => nomatch h

theorem writes_get : Writes P get := fun _ _ h => nomatch h

theorem writes_set (bindings : Bindings) : Writes P (set bindings) := fun _ _ h => nomatch h

theorem writes_bind {walk : Walk α} {next : α → Walk β} (h : Writes P walk)
    (hnext : ∀ a, Writes P (next a)) : Writes P (walk >>= next) := by
  intro bindings notice hnotice
  rw [StateT.run_bind, Routine.notices_bind] at hnotice
  rcases List.mem_append.1 hnotice with hnotice | hnotice
  · exact h bindings notice hnotice
  · exact hnext _ _ notice hnotice

theorem writes_routine {routine : Routine α} (h : ∀ notice ∈ routine.notices, P notice) :
    Writes P (liftM routine : Walk α) := by
  intro bindings notice hnotice
  have hrun : notice ∈ (routine >>= fun a => pure (a, bindings)).notices := hnotice
  rw [Routine.notices_bind] at hrun
  exact h notice (by simpa using hrun)

theorem writes_inScope {names : List (String × String)} {branch : Walk α} (h : Writes P branch) :
    Writes P (inScope names branch) :=
  writes_bind writes_get fun _ => writes_bind (writes_set _) fun _ => writes_bind h fun _ =>
    writes_bind writes_get fun _ => writes_bind (writes_set _) fun _ => writes_pure _

theorem writes_branches {branch : α → Walk (List Match)} (h : ∀ a, Writes P (branch a))
    (as : List α) : Writes P (branches branch as) := by
  induction as with
  | nil => exact writes_pure []
  | cons a as ih => exact writes_bind (h a) fun _ => writes_bind ih fun _ => writes_pure _

end Rules

theorem noConfig_of_resolve (hfunctions : functions.NoConfig) {clause : Clause}
    (hclause : clause.Valid functions) (element : Json) :
    ∀ notice ∈ (clause.resolve functions element).notices, notice.NoConfig := by
  have hquiet : (Filter.valueIn functions clause.path element).run.notices = [] := rfl
  unfold Clause.resolve
  rw [Routine.notices_bind, hquiet, List.nil_append]
  cases hvalue : (Filter.valueIn functions clause.path element).run.value with
  | error error =>
    intro notice hnotice
    obtain rfl := List.mem_singleton.1 hnotice
    rintro own ⟨⟩
    exact hclause.kind_of_valueIn hfunctions hvalue
  | ok found =>
    cases found with
    | none => exact List.forall_mem_nil _
    | some found => exact List.forall_mem_nil _

theorem noConfig_of_resolveAll (hfunctions : functions.NoConfig) {clauses : List Clause}
    (hclauses : ∀ clause ∈ clauses, clause.Valid functions) (element : Json) :
    ∀ notice ∈ (Clause.resolveAll functions element clauses).notices, notice.NoConfig := by
  induction clauses with
  | nil => exact List.forall_mem_nil _
  | cons clause clauses ih =>
    obtain ⟨hclause, hclauses⟩ := List.forall_mem_cons.1 hclauses
    rw [Clause.resolveAll, Routine.notices_bind]
    refine List.forall_mem_append.2 ⟨noConfig_of_resolve hfunctions hclause element, ?_⟩
    cases (clause.resolve functions element).value with
    | none => exact List.forall_mem_nil _
    | some text =>
      simp only [Routine.notices_bind, Routine.notices_pure, List.append_nil]
      exact ih hclauses

/-- A walk along valid steps reports no configuration error, from any value and under any
bindings. -/
theorem writes_along (hfunctions : functions.NoConfig) {steps : List Step}
    (hsteps : ∀ step ∈ steps, step.Valid functions) (place : String) (value : Json) :
    Writes Notice.NoConfig (along functions steps place value) := by
  induction steps generalizing place value with
  | nil =>
    unfold along
    split
    · exact writes_pure []
    · exact writes_bind writes_get fun _ => writes_pure _
  | cons step rest ih =>
    obtain ⟨hstep, hrest⟩ := List.forall_mem_cons.1 hsteps
    -- A step goes on with the rest of the walk, ends its branch in silence, or tells why it ends.
    have walks := ih hrest
    have told {notice : Notice} (h : notice.NoConfig) : Writes Notice.NoConfig
        (do Routine.tell notice; return [] : Walk (List Match)) :=
      writes_bind (writes_routine (List.forall_mem_singleton.2 h)) fun _ => writes_pure []
    cases step with
    | key name =>
      cases value with
      | object members =>
        simp only [along]
        cases members.lookup name with
        | none => exact writes_pure []
        | some child => exact walks _ child
      | _ => exact writes_pure []
    | placeholder name =>
      cases value with
      | object members => exact writes_branches (fun _ => writes_inScope (walks _ _)) members
      | array items => exact writes_branches (fun _ => writes_inScope (walks _ _)) items.zipIdx
      | _ => exact writes_pure []
    | passthrough =>
      cases value with
      | array items => exact walks place (.array items)
      | _ => exact writes_pure []
    | function name =>
      cases value with
      | null => exact writes_pure []
      | _ =>
        simp only [along]
        split
        · exact walks _ _
        · next error herror =>
          refine told ?_
          rintro own ⟨⟩
          exact functions.kind_of_evaluate hfunctions hstep herror
    | select selector =>
      cases value with
      | null => exact writes_pure []
      | array items =>
        cases selector with
        | index position =>
          simp only [along]
          cases items[position]? with
          | none => exact told (Notice.noConfig_of_error?_eq_none rfl)
          | some child => exact walks _ child
        | range start stop => exact writes_branches (fun _ => walks _ _) _
        | filter clauses =>
          refine writes_branches (fun child => ?_) items
          refine writes_bind (writes_routine (noConfig_of_resolveAll hfunctions hstep.2 child)) ?_
          intro texts
          cases texts with
          | none => exact writes_pure []
          | some texts => exact writes_inScope (walks _ child)
      | _ =>
        cases selector with
        | _ => exact told (Notice.noConfig_of_error?_eq_none rfl)

end Walk

end PathQuery
