import PathQuery.Proofs.Walk.Branch

/-!
# Where a step can go

`Step.Selects` says which edges of a container a step may go along, and `Step.Offers` which
branches it has at a value: along an edge, to an element under a filter, to the same list, or to
the value of a function. Every property of a walk comes from these four rules.

Results:
1. `mem_branches_iff`: the branches of a step are those it offers.
2. `pairwise_branches`: they go along different edges, in the order of the document.
-/

namespace PathQuery

namespace Step

/-- Which edges a step may go along, and to which values. -/
def Selects (functions : Registry) : Step → Edge → Json → Prop
  | .key name, .member own, _ => own = name
  | .placeholder _, _, _ => True
  | .select (.index position), .element k, _ => k = position
  | .select (.range start stop), .element k, _ => start ≤ k ∧ k < stop
  | .select (.filter clauses), .element _, child => ∀ clause ∈ clauses, clause.Holds functions child
  | _, _, _ => False

def isFilter : Step → Bool
  | .select (.filter _) => true
  | _ => false

/-- The branches that a step has at a value, if its path so far is `place`. -/
inductive Offers (functions : Registry) (place : String) : Step → Json → Branch → Prop
  | enter {step : Step} {value child : Json} {edge : Edge} :
      step.isFilter = false → value.child? edge = some child → step.Selects functions edge child →
      Offers functions place step value (step.enter place edge child)
  | filter {clauses : List Clause} {items : List Json} {position : Nat} {child : Json}
      {texts : List String} :
      items[position]? = some child →
      (Clause.resolveAll functions child clauses).value = some texts →
      Offers functions place (.select (.filter clauses)) (.array items)
        ⟨some (.inward (.element position)), Walk.filterPlace place clauses texts,
          Walk.filterBindings clauses texts, child⟩
  | stay {items : List Json} :
      Offers functions place .passthrough (.array items) ⟨none, place, [], .array items⟩
  | call {name : String} {value result : Json} :
      value.isNull = false → functions.evaluate name value = .ok result →
      Offers functions place (.function name) value
        ⟨some (.call name), Walk.functionPlace place name, [], result⟩

variable {functions : Registry} {place : String} {step : Step} {value : Json} {branch : Branch}

theorem offers_of_mem_branches (hvalue : value.Ordered)
    (h : branch ∈ step.branches functions place value) :
    step.Offers functions place value branch := by
  cases step with
  | key name =>
    cases value with
    | object members =>
      simp only [branches] at h
      split at h
      · next child hchild =>
        rw [List.mem_singleton.1 h]
        exact .enter rfl hchild rfl
      · cases h
    | _ => cases h
  | placeholder name =>
    cases value with
    | object members =>
      obtain ⟨entry, hentry, rfl⟩ := List.mem_map.1 h
      exact .enter rfl ((Entries.lookup_eq_some_iff hvalue.1).2 hentry) trivial
    | array items =>
      obtain ⟨entry, hentry, rfl⟩ := List.mem_map.1 h
      exact .enter rfl (List.mem_zipIdx_iff_getElem?.1 hentry) trivial
    | _ => cases h
  | passthrough =>
    cases value with
    | array items =>
      rw [List.mem_singleton.1 h]
      exact .stay
    | _ => cases h
  | function name =>
    cases value with
    | null => cases h
    | _ =>
      simp only [branches] at h
      split at h
      · next result hresult =>
        rw [List.mem_singleton.1 h]
        exact .call rfl hresult
      · cases h
  | select selector =>
    cases value with
    | array items =>
      cases selector with
      | index position =>
        simp only [branches] at h
        split at h
        · next child hchild =>
          rw [List.mem_singleton.1 h]
          exact .enter rfl hchild rfl
        · cases h
      | range start stop =>
        obtain ⟨entry, hentry, rfl⟩ := List.mem_map.1 h
        obtain ⟨hentry, hrange⟩ := List.mem_filter.1 hentry
        have hbounds : start ≤ entry.2 ∧ entry.2 < stop := of_decide_eq_true hrange
        exact .enter rfl (List.mem_zipIdx_iff_getElem?.1 hentry) hbounds
      | filter clauses =>
        obtain ⟨entry, hentry, hbranch⟩ := List.mem_filterMap.1 h
        obtain ⟨texts, htexts, rfl⟩ := Option.map_eq_some_iff.1 hbranch
        exact .filter (List.mem_zipIdx_iff_getElem?.1 hentry) htexts
    | _ =>
      cases selector with
      | _ => cases h

theorem enter_mem_branches (hvalue : value.Ordered) (hstep : step.isFilter = false) {edge : Edge}
    {child : Json} (hchild : value.child? edge = some child)
    (hselects : step.Selects functions edge child) :
    step.enter place edge child ∈ step.branches functions place value := by
  cases edge with
  | member own =>
    cases value with
    | object members =>
      cases step with
      | key name =>
        obtain rfl : own = name := hselects
        simp only [branches, show members.lookup own = some child from hchild, List.mem_singleton]
      | placeholder name =>
        exact List.mem_map.2 ⟨_, (Entries.lookup_eq_some_iff hvalue.1).1 hchild, rfl⟩
      | select selector =>
        cases selector with
        | _ => exact hselects.elim
      | _ => exact hselects.elim
    | _ => cases hchild
  | element k =>
    cases value with
    | array items =>
      have hmem : (child, k) ∈ items.zipIdx := List.mem_zipIdx_iff_getElem?.2 hchild
      cases step with
      | placeholder name => exact List.mem_map.2 ⟨_, hmem, rfl⟩
      | select selector =>
        cases selector with
        | index position =>
          obtain rfl : k = position := hselects
          simp only [branches, show items[k]? = some child from hchild, List.mem_singleton]
        | range start stop =>
          have hrange : decide (start ≤ k ∧ k < stop) = true := decide_eq_true hselects
          exact List.mem_map.2 ⟨_, List.mem_filter.2 ⟨hmem, hrange⟩, rfl⟩
        | filter clauses => cases hstep
      | _ => exact hselects.elim
    | _ => cases hchild

/-- The branches of a step are those it offers. -/
theorem mem_branches_iff (hvalue : value.Ordered) :
    branch ∈ step.branches functions place value ↔ step.Offers functions place value branch := by
  constructor
  · exact offers_of_mem_branches hvalue
  · intro h
    cases h with
    | enter hstep hchild hselects => exact enter_mem_branches hvalue hstep hchild hselects
    | @filter clauses items position child texts hchild htexts =>
      refine List.mem_filterMap.2 ⟨(child, position), List.mem_zipIdx_iff_getElem?.2 hchild, ?_⟩
      rw [filterBranch?, htexts, Option.map_some]
    | stay => exact List.mem_singleton_self _
    | @call name value result hnull hresult =>
      rw [branches_function functions place hnull, hresult]
      exact List.mem_singleton_self _

end Step

/-! ## The order of branches -/

/-- Both branches go along edges, and that of the first one comes before that of the second. -/
def Branch.Before (first second : Branch) : Prop :=
  ∃ edge edge', first.hop? = some (.inward edge) ∧ second.hop? = some (.inward edge') ∧
    edge.Before edge'

namespace Step

variable {functions : Registry} {place : String} {step : Step} {value : Json} {branch : Branch}

theorem pairwise_zipIdx (items : List α) : items.zipIdx.Pairwise fun a b => a.2 < b.2 := by
  rw [← List.pairwise_map (f := Prod.snd) (R := (· < ·)), List.zipIdx_map_snd]
  exact List.pairwise_lt_range'

theorem hop?_of_filterBranch? {clauses : List Clause} {child : Json} {position : Nat}
    (h : filterBranch? functions place clauses child position = some branch) :
    branch.hop? = some (.inward (.element position)) := by
  unfold filterBranch? at h
  obtain ⟨texts, -, rfl⟩ := Option.map_eq_some_iff.1 h
  rfl

/-- The branches of a step go along different edges, in the order of the document. -/
theorem pairwise_branches (hvalue : value.Ordered) :
    (step.branches functions place value).Pairwise Branch.Before := by
  cases step with
  | key name =>
    cases value with
    | object members =>
      simp only [branches]
      split
      · exact List.pairwise_singleton _ _
      · exact .nil
    | _ => exact .nil
  | placeholder name =>
    cases value with
    | object members =>
      exact List.pairwise_map.2 (hvalue.1.imp fun h => ⟨_, _, rfl, rfl, .member h⟩)
    | array items =>
      exact List.pairwise_map.2 ((pairwise_zipIdx items).imp fun h => ⟨_, _, rfl, rfl, .element h⟩)
    | _ => exact .nil
  | passthrough =>
    cases value with
    | array items => exact List.pairwise_singleton _ _
    | _ => exact .nil
  | function name =>
    cases value with
    | null => exact .nil
    | _ =>
      simp only [branches]
      split
      · exact List.pairwise_singleton _ _
      · exact .nil
  | select selector =>
    cases value with
    | array items =>
      cases selector with
      | index position =>
        simp only [branches]
        split
        · exact List.pairwise_singleton _ _
        · exact .nil
      | range start stop =>
        refine List.pairwise_map.2 (((pairwise_zipIdx items).filter _).imp ?_)
        intro a b h
        exact ⟨_, _, rfl, rfl, .element h⟩
      | filter clauses =>
        refine List.pairwise_filterMap.2 ((pairwise_zipIdx items).imp ?_)
        intro _ _ h a ha b hb
        exact ⟨_, _, hop?_of_filterBranch? ha, hop?_of_filterBranch? hb, .element h⟩
    | _ =>
      cases selector with
      | _ => exact .nil

end Step

end PathQuery
