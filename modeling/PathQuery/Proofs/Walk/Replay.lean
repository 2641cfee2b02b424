import PathQuery.Proofs.Aggregate.Regular
import PathQuery.Proofs.Path.Trail
import PathQuery.Proofs.Walk.Location

/-!
# Walking a trail again

The trail to a match says how to come to its value again: a hop along an edge by its key or its
position, a hop to the value of a function by its name. The steps of the hops never branch, and
they bind nothing.

A document is `Regular` if each of its objects is sorted by name and each of its lists can be
addressed by positions below `2 ^ 64`. A walk from such a document stays at such values, if its
functions are `Replayable`: they give such values of such values, and can be called by their names.

Results:
1. `Registry.Regular.replayable`: regular functions are replayable.
2. `readable_of_mem_tracked`: each hop of a trail can be read again.
3. `found_of_mem_tracked`: the steps of a trail find its value, and nothing else.
-/

namespace PathQuery

/-! ## Regular documents -/

namespace Json

mutual

/-- Each list in the document has only positions below `2 ^ 64`. -/
def Addressable : Json → Prop
  | .array items => items.length ≤ UInt64.size ∧ AddressableItems items
  | .object members => AddressableMembers members
  | _ => True

def AddressableItems : List Json → Prop
  | [] => True
  | item :: items => item.Addressable ∧ AddressableItems items

def AddressableMembers : List (String × Json) → Prop
  | [] => True
  | (_, value) :: members => value.Addressable ∧ AddressableMembers members

end

theorem addressableMembers_iff {members : List (String × Json)} :
    AddressableMembers members ↔ ∀ entry ∈ members, entry.2.Addressable := by
  induction members with
  | nil => simp [AddressableMembers]
  | cons entry members ih => simp [AddressableMembers, ih]

theorem addressableItems_iff {items : List Json} :
    AddressableItems items ↔ ∀ item ∈ items, item.Addressable := by
  induction items with
  | nil => simp [AddressableItems]
  | cons item items ih => simp [AddressableItems, ih]

/-- A document as an engine holds it. -/
structure Regular (value : Json) : Prop where
  ordered : value.Ordered
  addressable : value.Addressable

theorem Regular.item {items : List Json} (h : (Json.array items).Regular) {item : Json}
    (hitem : item ∈ items) : item.Regular :=
  ⟨orderedItems_iff.1 h.ordered item hitem, addressableItems_iff.1 h.addressable.2 item hitem⟩

theorem Regular.member {members : List (String × Json)} (h : (Json.object members).Regular)
    {entry : String × Json} (hentry : entry ∈ members) : entry.2.Regular :=
  ⟨orderedMembers_iff.1 h.ordered.2 entry hentry,
    addressableMembers_iff.1 h.addressable entry hentry⟩

theorem Regular.child {value child : Json} {edge : Edge} (hvalue : value.Regular)
    (h : value.child? edge = some child) : child.Regular := by
  cases value with
  | object members =>
    cases edge with
    | member key => exact hvalue.member ((Entries.lookup_eq_some_iff hvalue.ordered.1).1 h)
    | element position => cases h
  | array items =>
    cases edge with
    | member key => cases h
    | element position => exact hvalue.item (List.mem_of_getElem? h)
  | _ => cases h

end Json

/-! ## Functions -/

namespace Registry

variable {functions : Registry} {name : String} {node result : Json}

/-- Each function can be called by its name in a path. What it gives is ordered, or addressable, if
what it is given is. -/
structure Replayable (functions : Registry) : Prop where
  callable {name : String} : functions.contains name = true → Segment.Callable name
  keepsOrder : functions.KeepsOrder
  keepsAddressable : functions.Keeps Json.Addressable

theorem Regular.replayable (h : functions.Regular) : functions.Replayable where
  callable := h.callable
  keepsOrder := h.keepsOrder
  keepsAddressable := by
    refine h.keeps fun value hscalar => ?_
    cases value with
    | array items => cases hscalar
    | object members => cases hscalar
    | _ => trivial

theorem Replayable.evaluate (hfunctions : functions.Replayable) (hnode : node.Regular)
    (h : functions.evaluate name node = .ok result) : result.Regular where
  ordered := hfunctions.keepsOrder.evaluate hnode.ordered h
  addressable := by
    refine hfunctions.keepsAddressable.evaluate trivial ?_ ?_ h
    · rintro items rfl
      exact Json.addressableItems_iff.1 hnode.addressable.2
    · rintro members rfl
      exact Json.addressableMembers_iff.1 hnode.addressable

end Registry

/-! ## One step -/

namespace Step.Offers

variable {functions : Registry} {place : String} {step : Step} {value : Json} {branch : Branch}

theorem regular (hfunctions : functions.Replayable) (hvalue : value.Regular)
    (h : step.Offers functions place value branch) : branch.value.Regular := by
  cases h with
  | enter _ hchild _ => exact hvalue.child hchild
  | filter hchild _ => exact hvalue.item (List.mem_of_getElem? hchild)
  | stay => exact hvalue
  | call _ hresult => exact hfunctions.evaluate hvalue hresult

/-- Positions in a regular document can be written, and so can the names of functions. -/
theorem readable (hfunctions : functions.Replayable) (hvalue : value.Regular)
    (h : step.Offers functions place value branch) :
    ∀ hop ∈ branch.hop?.toList, hop.Readable functions := by
  have hposition {items : List Json} {position : Nat} {child : Json}
      (hitems : (Json.array items).Regular) (hchild : items[position]? = some child) :
      Hop.Readable functions (.inward (.element position)) := by
    obtain ⟨hlt, -⟩ := List.getElem?_eq_some_iff.1 hchild
    exact Nat.lt_of_lt_of_le hlt hitems.addressable.1
  intro hop hhop
  cases h with
  | @enter step value child edge _ hchild _ =>
    obtain rfl := List.mem_singleton.1 hhop
    cases edge with
    | member key => trivial
    | element position =>
      cases value with
      | array items => exact hposition hvalue hchild
      | _ => cases hchild
  | filter hchild _ =>
    obtain rfl := List.mem_singleton.1 hhop
    exact hposition hvalue hchild
  | stay => cases hhop
  | call _ hresult =>
    obtain rfl := List.mem_singleton.1 hhop
    have hknown := Registry.contains_of_evaluate_eq_ok hresult
    exact ⟨hfunctions.callable hknown, hknown⟩

/-- The step of the hop of a branch leads to the value of the branch again, and nowhere else. -/
theorem found_again (h : step.Offers functions place value branch) (rest : List Step)
    (place' : String) (bindings : Bindings) :
    Walk.found functions (branch.hop?.toList.map Hop.step ++ rest) place' value bindings =
      Walk.found functions rest (branch.hop?.toList.foldl Hop.extend place') branch.value
        bindings := by
  have helement {items : List Json} {position : Nat} {child : Json}
      (hchild : items[position]? = some child) :
      Walk.found functions (.select (.index position) :: rest) place' (.array items) bindings =
        Walk.found functions rest (Walk.elementPlace place' position) child bindings := by
    rw [Walk.found_cons, Step.branches, hchild, List.flatMap_singleton]
    rfl
  cases h with
  | @enter step value child edge _ hchild _ =>
    cases value with
    | object members =>
      cases edge with
      | member key =>
        have hlookup : members.lookup key = some child := hchild
        show Walk.found functions (.key key :: rest) place' (.object members) bindings = _
        rw [Walk.found_cons, Step.branches, hlookup, List.flatMap_singleton]
        rfl
      | element position => cases hchild
    | array items =>
      cases edge with
      | member key => cases hchild
      | element position => exact helement hchild
    | _ => cases hchild
  | filter hchild _ => exact helement hchild
  | stay => rfl
  | @call name value result hnull hresult =>
    show Walk.found functions (.function name :: rest) place' value bindings = _
    have hbranch : (Step.function name).branches functions place' value =
        [⟨some (.call name), Walk.functionPlace place' name, [], result⟩] := by
      rw [Step.branches_function functions place' hnull, hresult]
    rw [Walk.found_cons, hbranch, List.flatMap_singleton]
    rfl

end Step.Offers

/-! ## A whole walk -/

namespace Walk

variable {functions : Registry} {steps : List Step} {place : String} {value : Json}
  {bindings : Bindings} {trail : List Hop} {m : Match}

/-- Each hop of a trail can be read again. -/
theorem readable_of_mem_tracked (hfunctions : functions.Replayable) (hvalue : value.Regular)
    (h : (trail, m) ∈ tracked functions steps place value bindings) :
    ∀ hop ∈ trail, hop.Readable functions := by
  induction steps generalizing place value bindings trail with
  | nil =>
    obtain ⟨-, rfl, -⟩ := mem_tracked_nil.1 h
    exact nofun
  | cons step rest ih =>
    obtain ⟨branch, hbranch, below, hbelow, rfl⟩ := mem_tracked_cons.1 h
    have hoffers := Step.offers_of_mem_branches hvalue.ordered hbranch
    intro hop hhop
    rcases List.mem_append.1 hhop with hhop | hhop
    · exact hoffers.readable hfunctions hvalue hop hhop
    · exact ih (hoffers.regular hfunctions hvalue) hbelow hop hhop

/-- The steps of a trail find the value of its match, and nothing else. -/
theorem found_of_mem_tracked (hfunctions : functions.Replayable) (hvalue : value.Regular)
    (h : (trail, m) ∈ tracked functions steps place value bindings) (place' : String)
    (bindings' : Bindings) :
    found functions (trail.map Hop.step) place' value bindings' =
      [⟨trail.foldl Hop.extend place', bindings', m.value⟩] := by
  induction steps generalizing place value bindings trail place' with
  | nil =>
    obtain ⟨hnull, rfl, rfl⟩ := mem_tracked_nil.1 h
    rw [List.map_nil, found_nil, hnull]
    rfl
  | cons step rest ih =>
    obtain ⟨branch, hbranch, below, hbelow, rfl⟩ := mem_tracked_cons.1 h
    have hoffers := Step.offers_of_mem_branches hvalue.ordered hbranch
    rw [List.map_append, hoffers.found_again, List.foldl_append]
    exact ih (hoffers.regular hfunctions hvalue) hbelow _

end Walk

end PathQuery
