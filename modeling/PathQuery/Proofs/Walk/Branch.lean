import Mathlib.Data.List.Basic
import PathQuery.Walk

/-!
# The branches of a walk

What a step can do from a value is a list of branches, in order. Each has the path and the value it
leads to, what it binds, and the hop it takes there.

A walk is then told without requests, notices and scopes: `Walk.found` follows each branch under
its own bindings. `Walk.tracked` gives with each match the trail of hops that leads to it.

Results:
1. `exists_value_resolveAll_iff`: when a filter takes an element.
2. `found_cons`: the matches of a path are those of its branches, one branch after the other.
3. `yields_along`: a walk gives the matches of `found`, and gives the bindings back.
-/

namespace PathQuery

/-! ## Clauses -/

namespace Clause

/-- The clause finds a value in the element, and the value meets the condition. -/
def Holds (functions : Registry) (clause : Clause) (element : Json) : Prop :=
  ∃ found, (Filter.valueIn functions clause.path element).result = .ok (some found) ∧
    match clause.condition with
    | .oneOf _ alternatives => ∃ a ∈ alternatives, Text.trim a = found.plainText
    | .bind _ => True

theorem accepts_iff {clause : Clause} {text : String} :
    clause.accepts text = true ↔
      match clause.condition with
      | .oneOf _ alternatives => ∃ a ∈ alternatives, Text.trim a = text
      | .bind _ => True := by
  unfold accepts
  cases clause.condition with
  | oneOf written alternatives => simp
  | bind name => simp

theorem value_resolve {functions : Registry} {clause : Clause} {element : Json} :
    (clause.resolve functions element).value =
      match (Filter.valueIn functions clause.path element).result with
      | .ok (some found) => if clause.accepts found.plainText then some found.plainText else none
      | _ => none := by
  unfold resolve Attempt.result
  rw [Routine.value_bind]
  rcases Routine.value (Filter.valueIn functions clause.path element).run with error | _ | found
  · rfl
  · rfl
  · rfl

/-- The text of a clause is that of the value it finds. -/
theorem value_resolve_eq_some_iff {functions : Registry} {clause : Clause} {element : Json}
    {text : String} :
    (clause.resolve functions element).value = some text ↔
      ∃ found, (Filter.valueIn functions clause.path element).result = .ok (some found) ∧
        clause.accepts found.plainText = true ∧ found.plainText = text := by
  rw [value_resolve]
  rcases (Filter.valueIn functions clause.path element).result with error | _ | found
  · simp
  · simp
  · simp

theorem holds_iff {functions : Registry} {clause : Clause} {element : Json} :
    clause.Holds functions element ↔
      ∃ text, (clause.resolve functions element).value = some text := by
  constructor
  · rintro ⟨found, hfound, hcondition⟩
    exact ⟨found.plainText,
      value_resolve_eq_some_iff.2 ⟨found, hfound, accepts_iff.2 hcondition, rfl⟩⟩
  · rintro ⟨text, htext⟩
    obtain ⟨found, hfound, haccepts, -⟩ := value_resolve_eq_some_iff.1 htext
    exact ⟨found, hfound, accepts_iff.1 haccepts⟩

theorem value_resolveAll_cons {functions : Registry} {element : Json} {clause : Clause}
    {clauses : List Clause} :
    (resolveAll functions element (clause :: clauses)).value =
      (clause.resolve functions element).value.bind fun text =>
        (resolveAll functions element clauses).value.map (text :: ·) := by
  rw [resolveAll, Routine.value_bind]
  cases (clause.resolve functions element).value with
  | none => rfl
  | some text => exact Routine.value_bind _ _

/-- A filter gives texts for an element exactly if all of its clauses hold for it. -/
theorem exists_value_resolveAll_iff {functions : Registry} {element : Json}
    {clauses : List Clause} :
    (∃ texts, (resolveAll functions element clauses).value = some texts) ↔
      ∀ clause ∈ clauses, clause.Holds functions element := by
  induction clauses with
  | nil =>
    constructor
    · intro _ clause h
      cases h
    · intro _
      exact ⟨[], rfl⟩
  | cons clause clauses ih =>
    rw [value_resolveAll_cons, List.forall_mem_cons, holds_iff, ← ih]
    cases (clause.resolve functions element).value with
    | none => simp
    | some text =>
      cases (resolveAll functions element clauses).value with
      | none => simp
      | some texts => simp

end Clause

/-! ## Branches -/

/-- A way from a container to a value right inside it. -/
inductive Edge where
  | member (key : String)
  | element (position : Nat)
  deriving DecidableEq

/-- What an edge is called: its key, or its position in decimal. -/
def Edge.label : Edge → String
  | .member key => key
  | .element position => toString position

def Json.child? : Json → Edge → Option Json
  | .object members, .member key => members.lookup key
  | .array items, .element position => items[position]?
  | _, _ => none

/-- The order of the edges at one container: by key, or by position. -/
inductive Edge.Before : Edge → Edge → Prop
  | member {key key' : String} : key < key' → Before (.member key) (.member key')
  | element {position position' : Nat} : position < position' →
      Before (.element position) (.element position')

/-- A way from a value to the next one: along an edge of the document, or to the value of a
function. -/
inductive Hop where
  | inward (edge : Edge)
  | call (name : String)
  deriving DecidableEq

namespace Hop

def extend (place : String) : Hop → String
  | .inward (.member key) => Walk.memberPlace place key
  | .inward (.element position) => Walk.elementPlace place position
  | .call name => Walk.functionPlace place name

def edge? : Hop → Option Edge
  | .inward edge => some edge
  | .call _ => none

end Hop

/-- One of the ways a step can go from a value. A step that stays where it is takes no hop. -/
structure Branch where
  hop? : Option Hop
  place : String
  names : List (String × String)
  value : Json

namespace Step

/-- What a step binds on its way along an edge. The clauses of a filter bind by themselves. -/
def binding : Step → Edge → List (String × String)
  | .placeholder name, edge => [(name, edge.label)]
  | _, _ => []

variable (functions : Registry) (place : String)

/-- The branch of a step along an edge, whose path says so. -/
def enter (step : Step) (edge : Edge) (child : Json) : Branch :=
  ⟨some (.inward edge), Hop.extend place (.inward edge), step.binding edge, child⟩

/-- The branch of a filter for an element, if its clauses hold. The path of it shows the clauses
instead of the position. -/
def filterBranch? (clauses : List Clause) (child : Json) (position : Nat) : Option Branch :=
  (Clause.resolveAll functions child clauses).value.map fun texts =>
    ⟨some (.inward (.element position)), Walk.filterPlace place clauses texts,
      Walk.filterBindings clauses texts, child⟩

/-- The branches of a step, in the order in which they are walked. -/
def branches : Step → Json → List Branch
  | _, .null => []
  | .key name, .object members =>
    match members.lookup name with
    | some child => [enter place (.key name) (.member name) child]
    | none => []
  | .placeholder name, .object members =>
    members.map fun entry => enter place (.placeholder name) (.member entry.1) entry.2
  | .placeholder name, .array items =>
    items.zipIdx.map fun entry => enter place (.placeholder name) (.element entry.2) entry.1
  | .passthrough, .array items => [⟨none, place, [], .array items⟩]
  | .function name, value =>
    match functions.evaluate name value with
    | .ok result => [⟨some (.call name), Walk.functionPlace place name, [], result⟩]
    | .error _ => []
  | .select (.index position), .array items =>
    match items[position]? with
    | some child => [enter place (.select (.index position)) (.element position) child]
    | none => []
  | .select (.range start stop), .array items =>
    (items.zipIdx.filter fun entry => start ≤ entry.2 ∧ entry.2 < stop).map fun entry =>
      enter place (.select (.range start stop)) (.element entry.2) entry.1
  | .select (.filter clauses), .array items =>
    items.zipIdx.filterMap fun entry => filterBranch? functions place clauses entry.1 entry.2
  | _, _ => []

theorem branches_function {value : Json} (hnull : value.isNull = false) (name : String) :
    branches functions place (.function name) value =
      match functions.evaluate name value with
      | .ok result => [⟨some (.call name), Walk.functionPlace place name, [], result⟩]
      | .error _ => [] := by
  cases value with
  | null => cases hnull
  | _ => rfl

end Step

/-- Bindings with further ones on top, the last one of a name first. -/
def Bindings.bindAll (bindings : Bindings) (names : List (String × String)) : Bindings :=
  names.foldl (fun bindings entry => bindings.insert entry.1 entry.2) bindings

theorem Bindings.bindAll_append (bindings : Bindings) (names names' : List (String × String)) :
    bindings.bindAll (names ++ names') = (bindings.bindAll names).bindAll names' :=
  List.foldl_append

namespace Walk

/-- The matches of steps, with the trail to each of them. -/
def tracked (functions : Registry) :
    List Step → String → Json → Bindings → List (List Hop × Match)
  | [], place, value, bindings => if value.isNull then [] else [([], ⟨place, bindings, value⟩)]
  | step :: rest, place, value, bindings =>
    (step.branches functions place value).flatMap fun branch =>
      (tracked functions rest branch.place branch.value (bindings.bindAll branch.names)).map
        fun (trail, found) => (branch.hop?.toList ++ trail, found)

/-- A hit of a step and more goes along one branch of the step, and is a hit from there. -/
theorem mem_tracked_cons {functions : Registry} {step : Step} {rest : List Step} {place : String}
    {value : Json} {bindings : Bindings} {trail : List Hop} {m : Match} :
    (trail, m) ∈ tracked functions (step :: rest) place value bindings ↔
      ∃ branch ∈ step.branches functions place value, ∃ below,
        (below, m) ∈ tracked functions rest branch.place branch.value
          (bindings.bindAll branch.names) ∧ trail = branch.hop?.toList ++ below := by
  constructor
  · intro h
    obtain ⟨branch, hbranch, h⟩ := List.mem_flatMap.1 h
    obtain ⟨⟨below, _⟩, hbelow, hpair⟩ := List.mem_map.1 h
    cases hpair
    exact ⟨branch, hbranch, below, hbelow, rfl⟩
  · rintro ⟨branch, hbranch, below, hbelow, rfl⟩
    exact List.mem_flatMap.2 ⟨branch, hbranch, List.mem_map.2 ⟨_, hbelow, rfl⟩⟩

theorem mem_tracked_nil {functions : Registry} {place : String} {value : Json}
    {bindings : Bindings} {trail : List Hop} {m : Match} :
    (trail, m) ∈ tracked functions [] place value bindings ↔
      value.isNull = false ∧ trail = [] ∧ m = ⟨place, bindings, value⟩ := by
  unfold tracked
  split
  · next hnull => simp [hnull]
  · next hnull => simp [hnull]

def found (functions : Registry) (steps : List Step) (place : String) (value : Json)
    (bindings : Bindings) : List Match :=
  (tracked functions steps place value bindings).map Prod.snd

theorem found_nil {functions : Registry} {place : String} {value : Json} {bindings : Bindings} :
    found functions [] place value bindings =
      if value.isNull then [] else [⟨place, bindings, value⟩] := by
  unfold found tracked
  split
  · rfl
  · rfl

theorem found_cons {functions : Registry} {step : Step} {rest : List Step} {place : String}
    {value : Json} {bindings : Bindings} :
    found functions (step :: rest) place value bindings =
      (step.branches functions place value).flatMap fun branch =>
        found functions rest branch.place branch.value (bindings.bindAll branch.names) := by
  unfold found
  rw [tracked, List.map_flatMap]
  simp only [List.map_map]
  rfl

/-- The matches under a filter are those from each element that its clauses take. -/
theorem found_filter {functions : Registry} {rest : List Step} {place : String}
    {clauses : List Clause} {items : List Json} {bindings : Bindings} :
    found functions (.select (.filter clauses) :: rest) place (.array items) bindings =
      items.flatMap fun child =>
        (Clause.resolveAll functions child clauses).value.elim [] fun texts =>
          found functions rest (filterPlace place clauses texts) child
            (bindings.bindAll (filterBindings clauses texts)) := by
  rw [found_cons, Step.branches, List.filterMap_eq_flatMap_toList, List.flatMap_assoc]
  conv => rhs; rw [← List.zipIdx_map_fst 0 items, List.flatMap_map]
  apply List.flatMap_congr
  intro entry _
  simp only [Step.filterBranch?]
  cases (Clause.resolveAll functions entry.1 clauses).value with
  | none => rfl
  | some texts => exact List.append_nil _

/-- Null is no match, and no step leads out of it. -/
theorem found_null {functions : Registry} {steps : List Step} {place : String}
    {bindings : Bindings} : found functions steps place .null bindings = [] := by
  cases steps with
  | nil => exact found_nil
  | cons step rest =>
    rw [found_cons]
    cases step with
    | _ => rfl

/-! ## Walks without scopes -/

/-- A part of a walk has this value under some bindings, and gives the bindings back. -/
def Yields (bindings : Bindings) (walk : Walk α) (a : α) : Prop :=
  (walk.run bindings).value = (a, bindings)

theorem yields_pure (bindings : Bindings) (a : α) : Yields bindings (pure a) a := rfl

theorem yields_get (bindings : Bindings) : Yields bindings get bindings := rfl

theorem yields_routine (bindings : Bindings) (routine : Routine α) :
    Yields bindings (liftM routine : Walk α) routine.value := by
  show (routine >>= fun a => pure (a, bindings)).value = _
  rw [Routine.value_bind, Routine.value_pure]

theorem yields_bind {bindings : Bindings} {walk : Walk α} {next : α → Walk β} {a : α} {b : β}
    (h : Yields bindings walk a) (hnext : Yields bindings (next a) b) :
    Yields bindings (walk >>= next) b := by
  unfold Yields at *
  rw [StateT.run_bind, Routine.value_bind, h]
  exact hnext

theorem bindings_bindAll (scope : Scope) (names : List (String × String)) :
    (scope.bindAll names).bindings = scope.bindings.bindAll names := by
  induction names generalizing scope with
  | nil => rfl
  | cons entry names ih => exact ih (scope.bind entry.1 entry.2)

/-- What a scope binds is gone after it. -/
theorem yields_inScope {bindings : Bindings} {names : List (String × String)} {branch : Walk α}
    {a : α} (h : Yields (bindings.bindAll names) branch a) :
    Yields bindings (inScope names branch) a := by
  let scope := (Scope.opened bindings).bindAll names
  have hbindings : scope.bindings = bindings.bindAll names := bindings_bindAll _ names
  have hclose : scope.close = bindings := by
    rw [Scope.close_bindAll, Scope.close_opened]
  have hrun : (inScope names branch).run bindings = (branch.run scope.bindings >>= fun result =>
      pure (result.1, Scope.close { scope with bindings := result.2 })) := rfl
  unfold Yields at *
  rw [hrun, Routine.value_bind, hbindings, h, ← hbindings, Routine.value_pure, hclose]

theorem yields_branches {bindings : Bindings} {branch : α → Walk (List Match)} {as : List α}
    {ms : α → List Match} (h : ∀ a ∈ as, Yields bindings (branch a) (ms a)) :
    Yields bindings (branches branch as) (as.flatMap ms) := by
  induction as with
  | nil => exact yields_pure bindings []
  | cons a as ih =>
    have hrest := ih fun a ha => h a (List.mem_cons_of_mem _ ha)
    exact yields_bind (h a List.mem_cons_self) (yields_bind hrest (yields_pure bindings _))

/-- An element of a filter is walked if its clauses hold. -/
theorem yields_filter {functions : Registry} {rest : List Step} {place : String}
    {clauses : List Clause} {items : List Json} {bindings : Bindings}
    (ih : ∀ place value bindings, Yields bindings (along functions rest place value)
      (found functions rest place value bindings)) :
    Yields bindings (along functions (.select (.filter clauses) :: rest) place (.array items))
      (found functions (.select (.filter clauses) :: rest) place (.array items) bindings) := by
  rw [found_filter]
  apply yields_branches
  intro child _
  refine yields_bind (yields_routine bindings (Clause.resolveAll functions child clauses)) ?_
  cases (Clause.resolveAll functions child clauses).value with
  | none => exact yields_pure bindings []
  | some texts => exact yields_inScope (ih _ _ _)

/-- The walk gives the matches of its branches, and gives the bindings back. -/
theorem yields_along (functions : Registry) (steps : List Step) (place : String) (value : Json)
    (bindings : Bindings) :
    Yields bindings (along functions steps place value)
      (found functions steps place value bindings) := by
  induction steps generalizing place value bindings with
  | nil =>
    unfold along
    rw [found_nil]
    split
    · exact yields_pure bindings []
    · exact yields_bind (yields_get bindings) (yields_pure bindings _)
  | cons step rest ih =>
    have told (notice : Notice) : Yields bindings
        (do Routine.tell notice; return [] : Walk (List Match)) [] :=
      yields_bind (yields_routine bindings (Routine.tell notice)) (yields_pure bindings [])
    rw [found_cons]
    cases step with
    | key name =>
      cases value with
      | object members =>
        simp only [along, Step.branches]
        cases members.lookup name with
        | none => exact yields_pure bindings []
        | some child =>
          rw [List.flatMap_singleton]
          exact ih _ _ _
      | _ => exact yields_pure bindings []
    | placeholder name =>
      cases value with
      | object members =>
        rw [Step.branches, List.flatMap_map]
        exact yields_branches fun entry _ => yields_inScope (ih _ _ _)
      | array items =>
        rw [Step.branches, List.flatMap_map]
        exact yields_branches fun entry _ => yields_inScope (ih _ _ _)
      | _ => exact yields_pure bindings []
    | passthrough =>
      cases value with
      | array items =>
        rw [Step.branches, List.flatMap_singleton]
        exact ih _ _ _
      | _ => exact yields_pure bindings []
    | function name =>
      cases value with
      | null => exact yields_pure bindings []
      | _ =>
        simp only [along, Step.branches]
        cases functions.evaluate name _ with
        | error error => exact told _
        | ok result =>
          rw [List.flatMap_singleton]
          exact ih _ _ _
    | select selector =>
      cases value with
      | null => exact yields_pure bindings []
      | array items =>
        cases selector with
        | index position =>
          simp only [along, Step.branches]
          cases items[position]? with
          | none => exact told _
          | some child =>
            rw [List.flatMap_singleton]
            exact ih _ _ _
        | range start stop =>
          rw [Step.branches, List.flatMap_map]
          exact yields_branches fun entry _ => ih _ _ _
        | filter clauses =>
          rw [← found_cons]
          exact yields_filter ih
      | _ =>
        cases selector with
        | _ => exact told _

end Walk

end PathQuery
