import Mathlib.Data.List.Forall2
import PathQuery.Proofs.Aggregate.Regular
import PathQuery.Proofs.Walk.Location

/-!
# The route to a match

A route says, step by step, how a path was taken: along which edge, to which element of a filter
and for which texts, or to the value of which function. `Step.Takes` is one step of it, `Leads` the
whole of it. Neither speaks of a walk, of its order or of its bindings.

A route decides everything about its match: the value is where it leads, the path is written leg by
leg, and the bindings are those of the legs, the last one of a name.

Results:
1. `value_resolveAll_eq_some_iff`: the texts for which a filter takes an element.
2. `offers_iff`: the branches of a step are the legs it can take.
3. `Leads.map_binds`: a route binds the names of its steps, and no others.
4. `mem_tracked_iff`: the matches of a walk are those of the routes that lead to a value.
5. `path_of_mem_tracked`: without filters, the path of a match is that of its trail.
6. `pairwise_trails`, `exists_routes`: each match has a trail and a route of its own.
-/

namespace PathQuery

/-! ## Texts of a filter -/

namespace Clause

/-- The clause holds for an element, in which it finds a value with this text. -/
def Finds (functions : Registry) (element : Json) (clause : Clause) (text : String) : Prop :=
  ∃ found, (Filter.valueIn functions clause.path element).result = .ok (some found) ∧
    clause.accepts found.plainText = true ∧ found.plainText = text

def name? (clause : Clause) : Option String :=
  match clause.condition with
  | .oneOf _ _ => none
  | .bind name => some name

variable {functions : Registry} {element : Json}

theorem value_resolveAll_eq_some_iff {clauses : List Clause} {texts : List String} :
    (resolveAll functions element clauses).value = some texts ↔
      List.Forall₂ (Finds functions element) clauses texts := by
  induction clauses generalizing texts with
  | nil =>
    rw [List.forall₂_nil_left_iff]
    exact ⟨fun h => (Option.some.inj h).symm, fun h => congrArg some h.symm⟩
  | cons clause clauses ih =>
    rw [value_resolveAll_cons, List.forall₂_cons_left_iff, Option.bind_eq_some_iff]
    constructor
    · rintro ⟨text, htext, hrest⟩
      obtain ⟨rest, hvalue, rfl⟩ := Option.map_eq_some_iff.1 hrest
      exact ⟨text, rest, value_resolve_eq_some_iff.1 htext, ih.1 hvalue, rfl⟩
    · rintro ⟨text, rest, htext, hrest, rfl⟩
      exact ⟨text, value_resolve_eq_some_iff.2 htext,
        Option.map_eq_some_iff.2 ⟨rest, ih.2 hrest, rfl⟩⟩

theorem binding?_eq (clause : Clause) (text : String) :
    clause.binding? text = clause.name?.map (·, text) := by
  unfold binding? name?
  cases clause.condition with
  | oneOf written alternatives => rfl
  | bind name => rfl

theorem filterBindings_eq (clauses : List Clause) (texts : List String) :
    Walk.filterBindings clauses texts =
      (clauses.zip texts).filterMap fun pair => pair.1.name?.map (·, pair.2) := by
  unfold Walk.filterBindings
  rw [← List.map_uncurry_zip_eq_zipWith, List.filterMap_map]
  exact congrArg (fun f => List.filterMap f _) (funext fun pair => binding?_eq pair.1 pair.2)

end Clause

/-! ## Routes -/

/-- How one step of a path was taken. -/
inductive Leg where
  /-- along an edge of the document, or to the value of a function -/
  | along (hop : Hop)
  /-- by staying at a list -/
  | stay
  /-- to the element at a position, in which the clauses of a filter found these texts -/
  | chosen (position : Nat) (clauses : List Clause) (texts : List String)
  deriving DecidableEq

/-- One leg for each step of a path. -/
abbrev Route := List Leg

namespace Leg

def hop? : Leg → Option Hop
  | .along hop => some hop
  | .stay => none
  | .chosen position _ _ => some (.inward (.element position))

def extend (place : String) : Leg → String
  | .along hop => hop.extend place
  | .stay => place
  | .chosen _ clauses texts => Walk.filterPlace place clauses texts

end Leg

namespace Step

/-- The names that a step binds, in order. -/
def names : Step → List String
  | .placeholder name => [name]
  | .select (.filter clauses) => clauses.filterMap Clause.name?
  | _ => []

/-- What a step binds on a leg: a placeholder the key or position, and a filter for each of its
placeholders the text that was found. -/
def binds : Step → Leg → List (String × String)
  | .placeholder name, .along (.inward edge) => [(name, edge.label)]
  | .select (.filter _), .chosen _ clauses texts =>
    (clauses.zip texts).filterMap fun pair => pair.1.name?.map (·, pair.2)
  | _, _ => []

/-- A step takes a leg from a value to the next one. -/
inductive Takes (functions : Registry) : Step → Json → Leg → Json → Prop
  | enter {step : Step} {value child : Json} {edge : Edge} :
      step.isFilter = false → value.child? edge = some child → step.Selects functions edge child →
      Takes functions step value (.along (.inward edge)) child
  | choose {clauses : List Clause} {items : List Json} {position : Nat} {child : Json}
      {texts : List String} :
      items[position]? = some child → List.Forall₂ (Clause.Finds functions child) clauses texts →
      Takes functions (.select (.filter clauses)) (.array items) (.chosen position clauses texts)
        child
  | stay {items : List Json} : Takes functions .passthrough (.array items) .stay (.array items)
  | call {name : String} {value result : Json} :
      value.isNull = false → functions.evaluate name value = .ok result →
      Takes functions (.function name) value (.along (.call name)) result

end Step

/-- A route leads along steps from one value to another. -/
inductive Leads (functions : Registry) : List Step → Json → Route → Json → Prop
  | done {value : Json} : Leads functions [] value [] value
  | step {step : Step} {rest : List Step} {value next found : Json} {leg : Leg} {route : Route} :
      step.Takes functions value leg next → Leads functions rest next route found →
      Leads functions (step :: rest) value (leg :: route) found

namespace Route

def trail (route : Route) : List Hop := route.filterMap Leg.hop?

def place (start : String) (route : Route) : String := route.foldl Leg.extend start

/-- What is bound on a route, in order. -/
def binds (steps : List Step) (route : Route) : List (String × String) :=
  (List.zipWith Step.binds steps route).flatten

theorem trail_cons (leg : Leg) (route : Route) :
    trail (leg :: route) = leg.hop?.toList ++ route.trail := by
  unfold trail
  rw [List.filterMap_cons]
  cases leg.hop? with
  | none => rfl
  | some hop => rfl

theorem binds_cons (step : Step) (steps : List Step) (leg : Leg) (route : Route) :
    binds (step :: steps) (leg :: route) = step.binds leg ++ route.binds steps := rfl

end Route

/-! ## One step -/

namespace Step

variable {functions : Registry} {place : String} {step : Step} {value : Json} {branch : Branch}

theorem binds_inward (hstep : step.isFilter = false) (edge : Edge) :
    step.binds (.along (.inward edge)) = step.binding edge := by
  cases step with
  | select selector =>
    cases selector with
    | filter clauses => cases hstep
    | _ => rfl
  | _ => rfl

/-- The branches of a step are the legs it can take. -/
theorem offers_iff : step.Offers functions place value branch ↔
    ∃ leg next, step.Takes functions value leg next ∧
      branch = ⟨leg.hop?, leg.extend place, step.binds leg, next⟩ := by
  constructor
  · intro h
    cases h with
    | @enter step value child edge hstep hchild hselects =>
      refine ⟨_, child, .enter hstep hchild hselects, ?_⟩
      rw [binds_inward hstep]
      rfl
    | @filter clauses items position child texts hchild htexts =>
      refine ⟨.chosen position clauses texts, child,
        .choose hchild (Clause.value_resolveAll_eq_some_iff.1 htexts), ?_⟩
      rw [Clause.filterBindings_eq]
      rfl
    | @stay items => exact ⟨.stay, .array items, .stay, rfl⟩
    | @call name value result hnull hresult =>
      exact ⟨.along (.call name), result, .call hnull hresult, rfl⟩
  · rintro ⟨leg, next, htakes, rfl⟩
    cases htakes with
    | enter hstep hchild hselects =>
      rw [binds_inward hstep]
      exact .enter hstep hchild hselects
    | @choose clauses items position child texts hchild htexts =>
      have hoffers : Offers functions place (.select (.filter clauses)) (.array items) _ :=
        .filter hchild (Clause.value_resolveAll_eq_some_iff.2 htexts)
      rw [Clause.filterBindings_eq] at hoffers
      exact hoffers
    | stay => exact .stay
    | call hnull hresult => exact .call hnull hresult

/-- A leg binds the names of its step, in order. -/
theorem Takes.map_binds {leg : Leg} {next : Json} (h : step.Takes functions value leg next) :
    (step.binds leg).map Prod.fst = step.names := by
  cases h with
  | @enter step value child edge hstep hchild hselects =>
    rw [binds_inward hstep]
    cases step with
    | select selector =>
      cases selector with
      | filter clauses => cases hstep
      | _ => rfl
    | _ => rfl
  | @choose clauses items position child texts hchild htexts =>
    show ((clauses.zip texts).filterMap _).map Prod.fst = clauses.filterMap Clause.name?
    clear hchild
    induction htexts with
    | nil => rfl
    | @cons clause text clauses texts hfinds hrest ih =>
      rw [List.zip_cons_cons, List.filterMap_cons, List.filterMap_cons]
      cases clause.name? with
      | none => exact ih
      | some name => exact congrArg (name :: ·) ih
  | stay => rfl
  | call hnull hresult => rfl

theorem Takes.ordered (hfunctions : functions.KeepsOrder) (hvalue : value.Ordered) {leg : Leg}
    {next : Json} (h : step.Takes functions value leg next) : next.Ordered := by
  cases h with
  | enter _ hchild _ => exact hvalue.child hchild
  | choose hchild _ => exact Json.orderedItems_iff.1 hvalue _ (List.mem_of_getElem? hchild)
  | stay => exact hvalue
  | call _ hresult => exact hfunctions.evaluate hvalue hresult

end Step

/-- A route binds the names of its steps, in order. -/
theorem Leads.map_binds {functions : Registry} {steps : List Step} {value found : Json}
    {route : Route} (h : Leads functions steps value route found) :
    (route.binds steps).map Prod.fst = steps.flatMap Step.names := by
  induction h with
  | done => rfl
  | step htakes _ ih =>
    rw [Route.binds_cons, List.map_append, htakes.map_binds, ih, List.flatMap_cons]

/-- Without filters, the path at the end of a route is that of its trail. -/
theorem Leads.place_eq {functions : Registry} {steps : List Step} {value found : Json}
    {route : Route} (h : Leads functions steps value route found)
    (hsteps : ∀ step ∈ steps, step.isFilter = false) (start : String) :
    route.place start = route.trail.foldl Hop.extend start := by
  induction h generalizing start with
  | done => rfl
  | @step step rest value next found leg route htakes _ ih =>
    obtain ⟨hstep, hrest⟩ := List.forall_mem_cons.1 hsteps
    have hleg : leg.extend start = leg.hop?.toList.foldl Hop.extend start := by
      cases htakes with
      | enter _ _ _ => rfl
      | choose _ _ => cases hstep
      | stay => rfl
      | call _ _ => rfl
    rw [Route.trail_cons, List.foldl_append, ← hleg]
    exact ih hrest (leg.extend start)

/-! ## A whole walk -/

namespace Walk

variable {functions : Registry} {steps : List Step} {place : String} {value : Json}
  {bindings : Bindings}

/-- The matches of a walk are those of the routes that lead to a value. -/
theorem mem_tracked_iff (hfunctions : functions.KeepsOrder) (hvalue : value.Ordered)
    {trail : List Hop} {m : Match} :
    (trail, m) ∈ tracked functions steps place value bindings ↔
      ∃ route found, Leads functions steps value route found ∧ found.isNull = false ∧
        trail = route.trail ∧
        m = ⟨route.place place, bindings.bindAll (route.binds steps), found⟩ := by
  induction steps generalizing place value bindings trail with
  | nil =>
    rw [mem_tracked_nil]
    constructor
    · rintro ⟨hnull, rfl, rfl⟩
      exact ⟨[], value, .done, hnull, rfl, rfl⟩
    · rintro ⟨route, found, hleads, hnull, rfl, rfl⟩
      cases hleads
      exact ⟨hnull, rfl, rfl⟩
  | cons step rest ih =>
    rw [mem_tracked_cons]
    constructor
    · rintro ⟨branch, hbranch, below, hbelow, rfl⟩
      obtain ⟨leg, next, htakes, rfl⟩ :=
        Step.offers_iff.1 (Step.offers_of_mem_branches hvalue hbranch)
      obtain ⟨route, found, hleads, hnull, rfl, rfl⟩ :=
        (ih (htakes.ordered hfunctions hvalue)).1 hbelow
      refine ⟨leg :: route, found, .step htakes hleads, hnull,
        (Route.trail_cons leg route).symm, ?_⟩
      rw [Route.binds_cons, Bindings.bindAll_append]
      rfl
    · rintro ⟨route, found, hleads, hnull, rfl, rfl⟩
      cases hleads with
      | @step _ _ _ next _ leg route htakes hleads =>
        have hbranch : _ ∈ step.branches functions place value :=
          (Step.mem_branches_iff hvalue).2 (Step.offers_iff.2 ⟨leg, next, htakes, rfl⟩)
        refine ⟨_, hbranch, route.trail, ?_, Route.trail_cons leg route⟩
        rw [ih (htakes.ordered hfunctions hvalue), Route.binds_cons, Bindings.bindAll_append]
        exact ⟨route, found, hleads, hnull, rfl, rfl⟩

/-- Without filters, the path of a match is that of its trail. -/
theorem path_of_mem_tracked (hfunctions : functions.KeepsOrder) (hvalue : value.Ordered)
    (hsteps : ∀ step ∈ steps, step.isFilter = false) {trail : List Hop} {m : Match}
    (h : (trail, m) ∈ tracked functions steps place value bindings) :
    m.path = trail.foldl Hop.extend place := by
  obtain ⟨route, found, hleads, -, rfl, rfl⟩ := (mem_tracked_iff hfunctions hvalue).1 h
  exact hleads.place_eq hsteps place

/-- No two matches have the same trail. -/
theorem pairwise_trails (hfunctions : functions.KeepsOrder) (hvalue : value.Ordered) :
    (tracked functions steps place value bindings).Pairwise fun first second =>
      first.1 ≠ second.1 := by
  induction steps generalizing place value bindings with
  | nil =>
    unfold tracked
    split
    · exact .nil
    · exact List.pairwise_singleton _ _
  | cons step rest ih =>
    refine List.pairwise_flatMap.2 ⟨?_, ?_⟩
    · intro branch hbranch
      obtain ⟨leg, next, htakes, rfl⟩ :=
        Step.offers_iff.1 (Step.offers_of_mem_branches hvalue hbranch)
      refine List.pairwise_map.2 ((ih (htakes.ordered hfunctions hvalue)).imp ?_)
      intro first second hne heq
      exact hne (List.append_cancel_left heq)
    · -- Two branches of one step go along different edges.
      refine (Step.pairwise_branches hvalue).imp ?_
      rintro branch branch' ⟨edge, edge', hhop, hhop', hbefore⟩ first hfirst second hsecond heq
      obtain ⟨below, -, rfl⟩ := List.mem_map.1 hfirst
      obtain ⟨below', -, rfl⟩ := List.mem_map.1 hsecond
      simp only [hhop, hhop', Option.toList_some, List.singleton_append, List.cons.injEq,
        Hop.inward.injEq] at heq
      exact edge.not_before_self (heq.1 ▸ hbefore)

/-- Each match has a route of its own, and is what the route says. -/
theorem exists_routes (hfunctions : functions.KeepsOrder) (hvalue : value.Ordered)
    (steps : List Step) (place : String) (bindings : Bindings) :
    ∃ routes : List Route, routes.Nodup ∧
      List.Forall₂ (fun route m => Leads functions steps value route m.value ∧
        m.value.isNull = false ∧
        m = ⟨route.place place, bindings.bindAll (route.binds steps), m.value⟩)
        routes (found functions steps place value bindings) := by
  let hits := tracked functions steps place value bindings
  have hroute (hit : List Hop × Match) : ∃ route : Route, hit ∈ hits →
      hit.1 = route.trail ∧ Leads functions steps value route hit.2.value ∧
        hit.2.value.isNull = false ∧
        hit.2 = ⟨route.place place, bindings.bindAll (route.binds steps), hit.2.value⟩ := by
    obtain ⟨trail, m⟩ := hit
    by_cases hhit : (trail, m) ∈ hits
    · obtain ⟨route, found, hleads, hnull, rfl, rfl⟩ := (mem_tracked_iff hfunctions hvalue).1 hhit
      exact ⟨route, fun _ => ⟨rfl, hleads, hnull, rfl⟩⟩
    · exact ⟨[], fun h => absurd h hhit⟩
  choose routeOf hrouteOf using hroute
  refine ⟨hits.map routeOf, ?_, ?_⟩
  · refine List.pairwise_map.2 ((pairwise_trails hfunctions hvalue).imp_of_mem ?_)
    intro first second hfirst hsecond hne heq
    apply hne
    rw [(hrouteOf first hfirst).1, (hrouteOf second hsecond).1, heq]
  · refine List.forall₂_map_left_iff.2 (List.forall₂_map_right_iff.2 (List.forall₂_same.2 ?_))
    intro hit hhit
    exact (hrouteOf hit hhit).2

end Walk

end PathQuery
