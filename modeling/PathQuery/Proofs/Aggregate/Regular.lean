import PathQuery.Proofs.Path.Spelling

/-!
# Regular aggregates

What an aggregate gives is never a new list or object: it is one of the elements, or a scalar. Its
name is made of letters and digits. Every registry that is asked for by words has this.

Results:
1. `regular_aggregateOf?`: the aggregates that words ask for are regular.
2. `Registry.regular_ofWords?`: so is every registry built from them.
3. `Registry.Regular.keeps`: regular aggregates keep each property that all scalars have.
4. `Registry.KeepsOrder.evaluate`: a function of an ordered value gives an ordered one.
-/

namespace PathQuery

namespace Aggregate

/-- The name can be written in a path, and each result is an element or has none itself. -/
structure Regular (aggregate : Aggregate) : Prop where
  name : Segment.IsName aggregate.name
  result {elements : List Json} {result : Json} :
    aggregate.call elements = .ok result → result ∈ elements ∨ Registry.elements? result = none

theorem mem_of_foldlM_better {name : String} {wanted : Ordering} {best result : Json}
    {rest : List Json} (h : rest.foldlM (better name wanted) best = .ok result) :
    result ∈ best :: rest := by
  induction rest generalizing best with
  | nil =>
    cases h
    exact List.mem_cons_self
  | cons candidate rest ih =>
    rw [List.foldlM_cons] at h
    unfold better at h
    cases hcompare : candidate.compare? best with
    | none =>
      rw [hcompare] at h
      cases h
    | some order =>
      rw [hcompare] at h
      have hmem := ih h
      split at hmem
      · exact List.mem_cons_of_mem _ hmem
      · rcases List.mem_cons.1 hmem with rfl | hmem
        · exact List.mem_cons_self
        · exact List.mem_cons_of_mem _ (List.mem_cons_of_mem _ hmem)

/-- An extreme is one of the elements. -/
theorem mem_of_extreme {name : String} {wanted : Ordering} {elements : List Json} {result : Json}
    (h : extreme name wanted elements = .ok result) :
    result ∈ elements ∨ Registry.elements? result = none := by
  cases elements with
  | nil =>
    cases h
    exact .inr rfl
  | cons first rest => exact .inl (mem_of_foldlM_better h)

theorem elements?_valueOf (x : Option Double) : Registry.elements? (valueOf x) = none := by
  cases x with
  | none => rfl
  | some x => rfl

theorem regular_length : length.Regular where
  name := Segment.isName_of_all (by decide) rfl
  result h := by
    cases h
    exact .inr rfl

theorem regular_max : max.Regular := ⟨Segment.isName_of_all (by decide) rfl, mem_of_extreme⟩

theorem regular_min : min.Regular := ⟨Segment.isName_of_all (by decide) rfl, mem_of_extreme⟩

theorem regular_sum : sum.Regular where
  name := Segment.isName_of_all (by decide) rfl
  result {elements result} h := by
    have hvalue : valueOf <$> total "sum" elements = .ok result := h
    cases htotal : total "sum" elements with
    | error error =>
      rw [htotal] at hvalue
      cases hvalue
    | ok x =>
      rw [htotal] at hvalue
      cases hvalue
      exact .inr (elements?_valueOf x)

theorem regular_avg : avg.Regular where
  name := Segment.isName_of_all (by decide) rfl
  result {elements result} h := by
    have hvalue : (total "avg" elements >>= fun x => pure (if elements.isEmpty then .null
      else valueOf (x.map (·.divide elements.length)))) = .ok result := h
    cases htotal : total "avg" elements with
    | error error =>
      rw [htotal] at hvalue
      cases hvalue
    | ok x =>
      rw [htotal] at hvalue
      cases hvalue
      refine .inr ?_
      split
      · rfl
      · exact elements?_valueOf _

theorem regular_first : first.Regular where
  name := Segment.isName_of_all (by decide) rfl
  result {elements result} h := by
    cases h
    cases elements with
    | nil => exact .inr rfl
    | cons first rest => exact .inl List.mem_cons_self

theorem regular_fail : fail.Regular := ⟨Segment.isName_of_all (by decide) rfl, nofun⟩

theorem regular_lastAsMax : lastAsMax.Regular where
  name := Segment.isName_of_all (by decide) rfl
  result {elements result} h := by
    cases h
    cases elements with
    | nil => exact .inr rfl
    | cons first rest =>
      rw [List.getLastD_cons]
      exact .inl List.getLastD_mem_cons

theorem regular_aggregateOf? {word : String} {aggregate : Aggregate}
    (h : Registry.aggregateOf? word = some aggregate) : aggregate.Regular := by
  unfold Registry.aggregateOf? at h
  split at h
  · exact Option.some.inj h ▸ regular_length
  · exact Option.some.inj h ▸ regular_max
  · exact Option.some.inj h ▸ regular_min
  · exact Option.some.inj h ▸ regular_sum
  · exact Option.some.inj h ▸ regular_avg
  · exact Option.some.inj h ▸ regular_first
  · exact Option.some.inj h ▸ regular_fail
  · exact Option.some.inj h ▸ regular_lastAsMax
  · cases h

end Aggregate

namespace Registry

/-- Each registered aggregate has a property, and stands under its own name. -/
def Each (P : Aggregate → Prop) (functions : Registry) : Prop :=
  ∀ name aggregate, functions.get? name = some aggregate → aggregate.name = name ∧ P aggregate

def Regular (functions : Registry) : Prop := functions.Each Aggregate.Regular

section Each

variable {P : Aggregate → Prop}

theorem each_empty : Each P Dictionary.empty := nofun

theorem Each.register {functions : Registry} (h : Each P functions) {aggregate : Aggregate}
    (haggregate : P aggregate) : Each P (functions.register aggregate) := by
  intro name registered hregistered
  unfold Registry.register at hregistered
  rw [Dictionary.get?_insert] at hregistered
  split at hregistered
  · next hname =>
    cases hregistered
    exact ⟨hname.symm, haggregate⟩
  · exact h name registered hregistered

/-- What holds of the aggregates that words ask for holds of each one in a registry that is built
from words. -/
theorem each_ofWords? (hwords : ∀ word aggregate, aggregateOf? word = some aggregate → P aggregate)
    {words : List String} {functions : Registry} (h : ofWords? words = some functions) :
    Each P functions := by
  have hbuiltins : Each P builtins :=
    ((((each_empty.register (hwords "length" _ rfl)).register (hwords "max" _ rfl)).register
      (hwords "min" _ rfl)).register (hwords "sum" _ rfl)).register (hwords "avg" _ rfl)
  have hadd {start next : Registry} (hstart : Each P start) {word : String}
      (hnext : add? start word = some next) : Each P next := by
    unfold add? at hnext
    split at hnext
    · exact Option.some.inj hnext ▸ hbuiltins
    · obtain ⟨aggregate, haggregate, rfl⟩ := Option.map_eq_some_iff.1 hnext
      exact hstart.register (hwords word aggregate haggregate)
  have hempty : Each P Dictionary.empty := each_empty
  unfold ofWords? at h
  generalize Dictionary.empty = start at h hempty
  induction words generalizing start with
  | nil => exact Option.some.inj h ▸ hempty
  | cons word words ih =>
    rw [List.foldlM_cons] at h
    obtain ⟨next, hnext, h⟩ := Option.bind_eq_some_iff.1 h
    exact ih next h (hadd hempty hnext)

end Each

/-- Every registry that words ask for is regular. -/
theorem regular_ofWords? {words : List String} {functions : Registry}
    (h : ofWords? words = some functions) : functions.Regular :=
  each_ofWords? (fun _ _ => Aggregate.regular_aggregateOf?) h

variable {functions : Registry} {name : String} {node result : Json}

/-- A function with a value is registered and was given a collection. The value is that of the
aggregate, except that an empty collection gives null. -/
theorem of_evaluate_eq_ok (h : functions.evaluate name node = .ok result) :
    ∃ elements aggregate, elements? node = some elements ∧ functions.get? name = some aggregate ∧
      (elements = [] ∧ result = .null ∨
        elements ≠ [] ∧ aggregate.call elements = .ok result) := by
  unfold evaluate at h
  cases helements : elements? node with
  | none =>
    rw [helements] at h
    cases h
  | some elements =>
    cases hget : functions.get? name with
    | none =>
      rw [helements, hget] at h
      cases h
    | some aggregate =>
      refine ⟨elements, aggregate, rfl, rfl, ?_⟩
      rw [helements, hget] at h
      simp only at h
      split at h
      · next hempty =>
        cases h
        exact .inl ⟨List.isEmpty_iff.1 hempty, rfl⟩
      · next hempty => exact .inr ⟨mt List.isEmpty_iff.2 hempty, h⟩

theorem contains_of_evaluate_eq_ok (h : functions.evaluate name node = .ok result) :
    functions.contains name = true := by
  obtain ⟨elements, aggregate, -, hget, -⟩ := of_evaluate_eq_ok h
  unfold contains
  rw [hget]
  rfl

/-- A regular function is registered under a name that can be written in a path. -/
theorem Regular.callable (hregular : functions.Regular) (hname : functions.contains name = true) :
    Segment.Callable name := by
  obtain ⟨aggregate, hget⟩ := Option.isSome_iff_exists.1 hname
  obtain ⟨rfl, haggregate⟩ := hregular name aggregate hget
  exact haggregate.name.callable

/-! ## What functions keep -/

/-- Each aggregate gives a value with a property if all its elements have it. -/
def Keeps (P : Json → Prop) (functions : Registry) : Prop :=
  ∀ name aggregate, functions.get? name = some aggregate → ∀ elements result,
    (∀ element ∈ elements, P element) → aggregate.call elements = .ok result → P result

section Keeps

variable {P : Json → Prop}

/-- A function keeps a property that null has too, as it gives null for an empty collection. -/
theorem Keeps.evaluate (hfunctions : functions.Keeps P) (hnull : P .null)
    (hitems : ∀ items, node = .array items → ∀ item ∈ items, P item)
    (hmembers : ∀ members, node = .object members → ∀ entry ∈ members, P entry.2)
    (h : functions.evaluate name node = .ok result) : P result := by
  obtain ⟨elements, aggregate, helements, hget, ⟨-, rfl⟩ | ⟨-, hcall⟩⟩ := of_evaluate_eq_ok h
  · exact hnull
  · refine hfunctions name aggregate hget elements result ?_ hcall
    cases node with
    | array items =>
      cases helements
      exact hitems _ rfl
    | object members =>
      cases helements
      exact List.forall_mem_map.2 (hmembers members rfl)
    | _ => cases helements

/-- Regular aggregates put nothing together, so they keep each property that all scalars have. -/
theorem Regular.keeps (hregular : functions.Regular)
    (hscalars : ∀ value, elements? value = none → P value) : functions.Keeps P := by
  intro name aggregate hget elements result helements hcall
  rcases (hregular name aggregate hget).2.result hcall with hmem | hscalar
  · exact helements result hmem
  · exact hscalars result hscalar

end Keeps

def KeepsOrder (functions : Registry) : Prop := functions.Keeps Json.Ordered

theorem KeepsOrder.evaluate (hfunctions : functions.KeepsOrder) (hnode : node.Ordered)
    (h : functions.evaluate name node = .ok result) : result.Ordered := by
  refine Keeps.evaluate hfunctions trivial ?_ ?_ h
  · rintro items rfl
    exact Json.orderedItems_iff.1 hnode
  · rintro members rfl
    exact Json.orderedMembers_iff.1 hnode.2

theorem Regular.keepsOrder (hregular : functions.Regular) : functions.KeepsOrder := by
  refine hregular.keeps fun value hscalar => ?_
  cases value with
  | array items => cases hscalar
  | object members => cases hscalar
  | _ => trivial

end Registry

end PathQuery
