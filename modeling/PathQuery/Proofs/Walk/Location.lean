import Mathlib.Data.List.Forall2
import PathQuery.Proofs.Walk.Hop

/-!
# The locations that a walk finds

A location in a document is a list of edges from its root. `Accepts` says which locations a path
leads to; it does not speak of a walk, of an order or of the text of a path.

Results:
1. `accepts_of_mem_tracked`: a match is found at a location that the steps accept, with the value
   that is there.
2. `exists_mem_tracked`: each such location is found, unless its value is null.
3. `pairwise_tracked`: they are found in the order of the document, so each only once.
4. `exists_locations`: the three together, for the matches of a walk.

Functions leave the document, so all of this is about steps without functions.
-/

namespace PathQuery

/-! ## Locations -/

/-- The edges from the root of a document to a place in it. -/
abbrev Location := List Edge

def Json.at? (value : Json) : Location → Option Json
  | [] => some value
  | edge :: rest => (value.child? edge).bind fun child => child.at? rest

/-- The order of a document: by the first edge where two locations part. A location comes before
those below it. -/
def Location.Before : Location → Location → Prop := List.Lex Edge.Before

def Location.ofTrail (trail : List Hop) : Location := trail.filterMap Hop.edge?

theorem Json.Ordered.child {value child : Json} {edge : Edge} (hvalue : value.Ordered)
    (h : value.child? edge = some child) : child.Ordered := by
  cases value with
  | object members =>
    cases edge with
    | member key =>
      have hmem := (Entries.lookup_eq_some_iff hvalue.1).1 h
      exact Json.orderedMembers_iff.1 hvalue.2 _ hmem
    | element position => cases h
  | array items =>
    cases edge with
    | member key => cases h
    | element position => exact Json.orderedItems_iff.1 hvalue _ (List.mem_of_getElem? h)
  | _ => cases h

theorem Edge.not_before_self (edge : Edge) : ¬ edge.Before edge := by
  intro h
  cases h with
  | member h => exact String.lt_irrefl _ h
  | element h => exact Nat.lt_irrefl _ h

namespace Location

theorem not_before_self (location : Location) : ¬ location.Before location := by
  induction location with
  | nil => exact nofun
  | cons edge rest ih =>
    intro h
    cases h with
    | cons h => exact ih h
    | rel h => exact edge.not_before_self h

theorem before_append_left (edges : Location) {first second : Location}
    (h : first.Before second) : Location.Before (edges ++ first) (edges ++ second) := by
  induction edges with
  | nil => exact h
  | cons edge edges ih => exact List.Lex.cons ih

theorem ofTrail_append (first second : List Hop) :
    ofTrail (first ++ second) = ofTrail first ++ ofTrail second :=
  List.filterMap_append

end Location

/-! ## Acceptance -/

/-- Steps accept a location below a value: each of them goes along one edge of it, except that a
passthrough stays at a list. -/
inductive Accepts (functions : Registry) : List Step → Json → Location → Prop
  | done {value : Json} : Accepts functions [] value []
  | enter {step : Step} {rest : List Step} {value child : Json} {edge : Edge}
      {location : Location} :
      value.child? edge = some child → step.Selects functions edge child →
      Accepts functions rest child location →
      Accepts functions (step :: rest) value (edge :: location)
  | stay {rest : List Step} {items : List Json} {location : Location} :
      Accepts functions rest (.array items) location →
      Accepts functions (.passthrough :: rest) (.array items) location

def Step.isFunction : Step → Bool
  | .function _ => true
  | _ => false

/-! ## Walks and locations -/

namespace Walk

variable {functions : Registry} {steps : List Step} {value : Json}

/-- The trail to a match leads along the edges of a location that the steps accept. -/
theorem accepts_of_mem_tracked (hsteps : ∀ step ∈ steps, step.isFunction = false)
    (hvalue : value.Ordered) {place : String} {bindings : Bindings} {trail : List Hop} {m : Match}
    (h : (trail, m) ∈ tracked functions steps place value bindings) :
    Accepts functions steps value (.ofTrail trail) ∧
    value.at? (.ofTrail trail) = some m.value ∧ m.value.isNull = false := by
  induction steps generalizing place value bindings trail with
  | nil =>
    obtain ⟨hnull, rfl, rfl⟩ := mem_tracked_nil.1 h
    exact ⟨.done, rfl, hnull⟩
  | cons step rest ih =>
    obtain ⟨hstep, hrest⟩ := List.forall_mem_cons.1 hsteps
    obtain ⟨branch, hbranch, below, hbelow, rfl⟩ := mem_tracked_cons.1 h
    cases Step.offers_of_mem_branches hvalue hbranch with
    | @enter _ _ child edge _ hchild hselects =>
      obtain ⟨haccepts, hat, hnull⟩ := ih hrest (hvalue.child hchild) hbelow
      refine ⟨.enter hchild hselects haccepts, ?_, hnull⟩
      show (value.child? edge).bind _ = _
      rw [hchild]
      exact hat
    | @filter clauses items position child texts hchild htexts =>
      have hedge : (Json.array items).child? (.element position) = some child := hchild
      have hselects := Clause.exists_value_resolveAll_iff.1 ⟨texts, htexts⟩
      obtain ⟨haccepts, hat, hnull⟩ := ih hrest (hvalue.child hedge) hbelow
      refine ⟨.enter hedge hselects haccepts, ?_, hnull⟩
      show ((Json.array items).child? (.element position)).bind _ = _
      rw [hedge]
      exact hat
    | stay =>
      obtain ⟨haccepts, hat, hnull⟩ := ih hrest hvalue hbelow
      exact ⟨.stay haccepts, hat, hnull⟩
    | call _ _ => cases hstep

/-- A step that selects an edge has a branch along it. -/
theorem exists_mem_branches (place : String) {step : Step} {child : Json} {edge : Edge}
    (hvalue : value.Ordered) (hchild : value.child? edge = some child)
    (hselects : step.Selects functions edge child) :
    ∃ branch ∈ step.branches functions place value,
      branch.hop? = some (.inward edge) ∧ branch.value = child := by
  cases hfilter : step.isFilter with
  | false => exact ⟨_, Step.enter_mem_branches hvalue hfilter hchild hselects, rfl, rfl⟩
  | true =>
    cases step with
    | select selector =>
      cases selector with
      | filter clauses =>
        cases edge with
        | member key => cases hselects
        | element position =>
          cases value with
          | array items =>
            obtain ⟨texts, htexts⟩ := Clause.exists_value_resolveAll_iff.2 hselects
            exact ⟨_, (Step.mem_branches_iff hvalue).2 (.filter hchild htexts), rfl, rfl⟩
          | _ => cases hchild
      | _ => cases hfilter
    | _ => cases hfilter

/-- A location that the steps accept is found, unless its value is null. -/
theorem exists_mem_tracked {location : Location} {found : Json} (hvalue : value.Ordered)
    (h : Accepts functions steps value location) (hat : value.at? location = some found)
    (hnull : found.isNull = false) (place : String) (bindings : Bindings) :
    ∃ trail m, (trail, m) ∈ tracked functions steps place value bindings ∧
      .ofTrail trail = location := by
  induction h generalizing place bindings with
  | @done value =>
    obtain rfl : value = found := Option.some.inj hat
    exact ⟨[], ⟨place, bindings, value⟩, mem_tracked_nil.2 ⟨hnull, rfl, rfl⟩, rfl⟩
  | @enter step rest value child edge location hchild hselects haccepts ih =>
    have hrest : child.at? location = some found := by
      rw [← hat, Json.at?, hchild]
      rfl
    obtain ⟨branch, hbranch, hhop, rfl⟩ := exists_mem_branches place hvalue hchild hselects
    obtain ⟨trail, m, hmem, rfl⟩ := ih (hvalue.child hchild) hrest branch.place
      (bindings.bindAll branch.names)
    refine ⟨_, m, mem_tracked_cons.2 ⟨branch, hbranch, trail, hmem, rfl⟩, ?_⟩
    rw [hhop]
    rfl
  | @stay rest items location haccepts ih =>
    obtain ⟨trail, m, hmem, rfl⟩ := ih hvalue hat place bindings
    exact ⟨trail, m, mem_tracked_cons.2 ⟨_, List.mem_singleton_self _, trail, hmem, rfl⟩, rfl⟩

/-- The matches are found in the order of the document. -/
theorem pairwise_tracked (hsteps : ∀ step ∈ steps, step.isFunction = false)
    (hvalue : value.Ordered) (place : String) (bindings : Bindings) :
    (tracked functions steps place value bindings).Pairwise fun first second =>
      Location.Before (.ofTrail first.1) (.ofTrail second.1) := by
  induction steps generalizing place value bindings with
  | nil =>
    unfold tracked
    split
    · exact .nil
    · exact List.pairwise_singleton _ _
  | cons step rest ih =>
    obtain ⟨hstep, hrest⟩ := List.forall_mem_cons.1 hsteps
    refine List.pairwise_flatMap.2 ⟨?_, ?_⟩
    · intro branch hbranch
      have hbelow : branch.value.Ordered := by
        cases Step.offers_of_mem_branches hvalue hbranch with
        | enter _ hchild _ => exact hvalue.child hchild
        | @filter clauses items position child texts hchild _ =>
          have hedge : (Json.array items).child? (.element position) = some child := hchild
          exact hvalue.child hedge
        | stay => exact hvalue
        | call _ _ => cases hstep
      refine List.pairwise_map.2 ((ih hrest hbelow _ _).imp ?_)
      intro first second hbefore
      rw [Location.ofTrail_append, Location.ofTrail_append]
      exact Location.before_append_left _ hbefore
    · -- Two branches part at their own edges, whatever comes below them.
      refine (Step.pairwise_branches hvalue).imp ?_
      intro branch branch' hparts
      obtain ⟨edge, edge', hhop, hhop', hbefore⟩ := hparts
      intro first hfirst second hsecond
      obtain ⟨_, -, rfl⟩ := List.mem_map.1 hfirst
      obtain ⟨_, -, rfl⟩ := List.mem_map.1 hsecond
      rw [hhop, hhop']
      exact List.Lex.rel hbefore

/-- The matches of a walk are, one by one and in the order of the document, the values at the
locations that the steps accept, except for those that are null. -/
theorem exists_locations (hsteps : ∀ step ∈ steps, step.isFunction = false)
    (hvalue : value.Ordered) (place : String) (bindings : Bindings) :
    ∃ locations : List Location, locations.Pairwise Location.Before ∧ locations.Nodup ∧
      (∀ location, location ∈ locations ↔ Accepts functions steps value location ∧
        ∃ found, value.at? location = some found ∧ found.isNull = false) ∧
      List.Forall₂ (fun location (m : Match) => value.at? location = some m.value) locations
        (found functions steps place value bindings) := by
  let hits := tracked functions steps place value bindings
  have hordered : (hits.map fun hit => Location.ofTrail hit.1).Pairwise Location.Before :=
    List.pairwise_map.2 (pairwise_tracked hsteps hvalue place bindings)
  refine ⟨_, hordered, ?_, fun location => ⟨?_, ?_⟩, ?_⟩
  · refine hordered.imp ?_
    intro first second h heq
    exact Location.not_before_self _ (heq ▸ h)
  · intro h
    obtain ⟨⟨trail, m⟩, hhit, rfl⟩ := List.mem_map.1 h
    obtain ⟨haccepts, hat, hnull⟩ := accepts_of_mem_tracked hsteps hvalue hhit
    exact ⟨haccepts, m.value, hat, hnull⟩
  · rintro ⟨haccepts, found, hat, hnull⟩
    obtain ⟨trail, m, hhit, rfl⟩ := exists_mem_tracked hvalue haccepts hat hnull place bindings
    exact List.mem_map.2 ⟨_, hhit, rfl⟩
  · refine List.forall₂_map_left_iff.2 (List.forall₂_map_right_iff.2 (List.forall₂_same.2 ?_))
    intro hit hhit
    exact (accepts_of_mem_tracked hsteps hvalue hhit).2.1

end Walk

end PathQuery
