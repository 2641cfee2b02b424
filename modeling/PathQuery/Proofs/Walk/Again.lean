import PathQuery.Proofs.Path.FilterText
import PathQuery.Proofs.Walk.Replay
import PathQuery.Proofs.Walk.Route

/-!
# Taking a route again

The path of a match is written leg by leg, and each leg is spelled in a way that takes it again: a
hop by its key, position or name, a filter by its clauses with the values they found. A leg that
stays at a list is not written and need not be.

A filter is taken again only if what it shows is legible. The clauses that are read from it then
find the same texts in the same element, and show them again.

Results:
1. `Finds.again`: the clause that is read finds the text that was shown.
2. `Takes.again`: a leg is spelled by a step that takes it again.
3. `Leads.again`: so the path of a route leads to its value, along a route with the same path.
-/

namespace PathQuery

variable {functions : Registry}

/-! ## Clauses -/

namespace Clause

variable {element : Json} {clause : Clause} {text : String}

theorem accepts_conditionOf {path : String} (htext : Filter.IsValue text) :
    accepts ⟨path, Filter.conditionOf text⟩ text = true := by
  unfold Filter.conditionOf
  cases hname : Segment.placeholderName? text with
  | some name => rfl
  | none =>
    rw [Text.split_eq_singleton (by decide) (htext.whole hname), accepts_iff]
    exact ⟨text, List.mem_singleton_self text, htext.trim⟩

/-- The clause that is read finds the text that was shown. -/
theorem Finds.again (hclause : clause.Valid functions)
    (hbound : ∀ name, clause.condition = .bind name → Filter.IsValue text)
    (h : clause.Finds functions element text) :
    (clause.again text).Finds functions element text := by
  cases hcondition : clause.condition with
  | oneOf written alternatives =>
    rw [again_of_oneOf hclause.condition hcondition]
    exact h
  | bind name =>
    obtain ⟨found, hfound, -, rfl⟩ := h
    refine ⟨found, hfound, ?_, rfl⟩
    unfold Clause.again shown
    simp only [hcondition]
    exact accepts_conditionOf (hbound name hcondition)

end Clause

/-! ## Filters -/

namespace Filter

variable {clauses : List Clause} {texts : List String}

theorem Legible.finds (h : Legible clauses texts)
    (hclauses : ∀ clause ∈ clauses, clause.Valid functions) {element : Json}
    (hfinds : List.Forall₂ (Clause.Finds functions element) clauses texts) :
    List.Forall₂ (Clause.Finds functions element) (List.zipWith Clause.again clauses texts)
      texts := by
  have hbound := h.bound
  clear h
  induction hfinds with
  | nil => exact .nil
  | cons hclause _ ih =>
    obtain ⟨hvalid, hclauses⟩ := List.forall_mem_cons.1 hclauses
    obtain ⟨hown, hbound⟩ := List.forall₂_cons.1 hbound
    exact .cons (hclause.again hvalid hown) (ih hclauses hbound)

/-- What is read shows the same text. -/
theorem filterPlace_again (hclauses : ∀ clause ∈ clauses, clause.Valid functions) (place : String) :
    Walk.filterPlace place (List.zipWith Clause.again clauses texts) texts =
      Walk.filterPlace place clauses texts := by
  have hrender : List.zipWith Clause.render (List.zipWith Clause.again clauses texts) texts =
      List.zipWith Clause.render clauses texts := by
    induction clauses generalizing texts with
    | nil => rfl
    | cons clause clauses ih =>
      obtain ⟨hclause, hclauses⟩ := List.forall_mem_cons.1 hclauses
      cases texts with
      | nil => rfl
      | cons text texts =>
        simp only [List.zipWith_cons_cons]
        rw [Clause.render_again hclause.condition, ih hclauses]
  unfold Walk.filterPlace
  rw [hrender]

end Filter

/-! ## One leg -/

/-- What a leg adds to a path can be read. -/
def Leg.Legible : Leg → Prop
  | .chosen _ clauses texts => Filter.Legible clauses texts
  | _ => True

namespace Step.Takes

variable {step : Step} {value next : Json} {leg : Leg}

theorem regular (hfunctions : functions.Replayable) (hvalue : value.Regular)
    (h : step.Takes functions value leg next) : next.Regular :=
  (Step.offers_iff.2 ⟨leg, next, h, rfl⟩ : step.Offers functions "" value _).regular hfunctions
    hvalue

theorem readable (hfunctions : functions.Replayable) (hvalue : value.Regular) {hop : Hop}
    (h : step.Takes functions value (.along hop) next) : hop.Readable functions :=
  (Step.offers_iff.2 ⟨.along hop, next, h, rfl⟩ : step.Offers functions "" value _).readable
    hfunctions hvalue hop (List.mem_singleton_self hop)

/-- A leg that does not stay where it is is spelled by a step that takes it again, and is written
the same way. -/
theorem again (hfunctions : functions.Replayable) (hvalue : value.Regular)
    (hstep : step.Valid functions) (hleg : leg.Legible)
    (h : step.Takes functions value leg next) :
    (leg = .stay ∧ next = value) ∨
    ∃ (own : Step) (part : List Glyph) (taken : Leg), own.Spelled functions part ∧
      own.Takes functions value taken next ∧
      ∀ place, taken.extend place = leg.extend place ∧
        (leg.extend place).toList = place.toList ++ Glyph.writeAll part := by
  have hwritten (hop : Hop) (place : String) : hop.extend place = hop.extend place ∧
      (hop.extend place).toList = place.toList ++ Glyph.writeAll hop.glyphs :=
    ⟨rfl, hop.toList_extend place⟩
  have hreadable (hop : Hop) (h : step.Takes functions value (.along hop) next) :=
    (h.readable hfunctions hvalue).spelled
  cases h with
  | @enter step value child edge hfilter hchild hselects =>
    have hspelled := hreadable (.inward edge) (.enter hfilter hchild hselects)
    refine .inr ⟨_, _, .along (.inward edge), hspelled, ?_, hwritten (.inward edge)⟩
    cases edge with
    | member key => exact .enter rfl hchild rfl
    | element position => exact .enter rfl hchild rfl
  | @choose clauses items position child texts hchild htexts =>
    refine .inr ⟨_, _, .chosen position (List.zipWith Clause.again clauses texts) texts,
      hleg.spelled hstep.1 hstep.2, .choose hchild (hleg.finds hstep.2 htexts), ?_⟩
    intro place
    exact ⟨Filter.filterPlace_again hstep.2 place, Filter.toList_filterPlace place clauses texts⟩
  | stay => exact .inl ⟨rfl, rfl⟩
  | @call name value result hnull hresult =>
    have hspelled := hreadable (.call name) (.call hnull hresult)
    exact .inr ⟨_, _, .along (.call name), hspelled, .call hnull hresult, hwritten (.call name)⟩

end Step.Takes

/-! ## A whole route -/

/-- The path of a route is spelled by steps that lead to its value, along a route with the same
path. -/
theorem Leads.again (hfunctions : functions.Replayable) {steps : List Step} {value found : Json}
    {route : Route} (hvalue : value.Regular) (hsteps : ∀ step ∈ steps, step.Valid functions)
    (hroute : ∀ leg ∈ route, leg.Legible) (h : Leads functions steps value route found) :
    ∃ (own : List Step) (parts : List (List Glyph)) (taken : Route),
      List.Forall₂ (Step.Spelled functions) own parts ∧ Leads functions own value taken found ∧
      ∀ place, taken.place place = route.place place ∧
        (route.place place).toList = place.toList ++ Glyph.writeAll parts.flatten := by
  induction h with
  | done => exact ⟨[], [], [], .nil, .done, fun place => ⟨rfl, (List.append_nil _).symm⟩⟩
  | @step step rest value next found leg route htakes hleads ih =>
    obtain ⟨hstep, hrest⟩ := List.forall_mem_cons.1 hsteps
    obtain ⟨hleg, hroute⟩ := List.forall_mem_cons.1 hroute
    obtain ⟨own, parts, taken, hspelled, hown, hplace⟩ :=
      ih (htakes.regular hfunctions hvalue) hrest hroute
    -- Staying at a list is not written, so the rest of the route is already spelled from there.
    rcases htakes.again hfunctions hvalue hstep hleg with
      ⟨rfl, rfl⟩ | ⟨first, part, took, hfirst, htook, hextend⟩
    · exact ⟨own, parts, taken, hspelled, hown, hplace⟩
    · refine ⟨first :: own, part :: parts, took :: taken, .cons hfirst hspelled,
        .step htook hown, ?_⟩
      intro place
      obtain ⟨hsame, hwritten⟩ := hextend place
      obtain ⟨hsame', hwritten'⟩ := hplace (leg.extend place)
      refine ⟨?_, ?_⟩
      · show taken.place (took.extend place) = route.place (leg.extend place)
        rw [hsame, hsame']
      · show (route.place (leg.extend place)).toList = _
        rw [hwritten', hwritten, List.flatten_cons, Glyph.writeAll_append, List.append_assoc]

end PathQuery
