import PathQuery.Proofs.Aggregate.Regular

/-!
# How aggregates fail

An aggregate fails on the elements it is given: on two that have no order, or on one that is no
number. That the configuration is wrong can only be said by the registry, of a name that is not in
it.

Results:
1. `kind_of_evaluate`: a registered function gives no configuration error, if its own call gives
   none.
2. `unknown_of_evaluate`: so such an error says that the name is not registered.
3. `noConfig_ofWords?`: the calls of every registry that words ask for give none.
-/

namespace PathQuery

/-- No aggregate gives a configuration error of its own. -/
def Registry.NoConfig (functions : Registry) : Prop :=
  ∀ name aggregate, functions.get? name = some aggregate →
    ∀ elements error, aggregate.call elements = .error error → error.kind ≠ .config

theorem Registry.kind_of_evaluate {functions : Registry} (hfunctions : functions.NoConfig)
    {name : String} (hknown : functions.contains name = true) {node : Json} {error : QueryError}
    (h : functions.evaluate name node = .error error) : error.kind ≠ .config := by
  obtain ⟨aggregate, hget⟩ := Option.isSome_iff_exists.1 hknown
  unfold evaluate at h
  rw [hget] at h
  cases helements : elements? node with
  | none =>
    rw [helements] at h
    cases h
    exact nofun
  | some elements =>
    rw [helements] at h
    simp only at h
    split at h
    · cases h
    · exact hfunctions name aggregate hget elements error h

theorem Registry.evaluate_of_not_contains {functions : Registry} {name : String}
    (hunknown : functions.contains name = false) {node : Json} {elements : List Json}
    (helements : elements? node = some elements) :
    functions.evaluate name node = .error (.unknownFunction name) := by
  have hnone : functions.get? name = none :=
    Option.isNone_iff_eq_none.1 (Option.isSome_eq_false_iff.1 hunknown)
  simp only [evaluate, helements, hnone]

/-- A configuration error of an evaluation says that the name is not registered. -/
theorem Registry.unknown_of_evaluate {functions : Registry} (hfunctions : functions.NoConfig)
    {name : String} {node : Json} {error : QueryError}
    (h : functions.evaluate name node = .error error) (hkind : error.kind = .config) :
    functions.contains name = false ∧ error = .unknownFunction name := by
  have hunknown : functions.contains name = false := Bool.eq_false_iff.2 fun hknown =>
    kind_of_evaluate hfunctions hknown h hkind
  cases helements : elements? node with
  | none =>
    simp only [evaluate, helements] at h
    cases h
    cases hkind
  | some elements =>
    rw [evaluate_of_not_contains hunknown helements] at h
    cases h
    exact ⟨hunknown, rfl⟩

namespace Aggregate

/-- An error of a fold is one of its steps. -/
theorem exists_of_foldlM_eq_error {step : β → α → Except QueryError β} {as : List α} {start : β}
    {error : QueryError} (h : as.foldlM step start = .error error) :
    ∃ b a, step b a = .error error := by
  induction as generalizing start with
  | nil => cases h
  | cons a as ih =>
    rw [List.foldlM_cons] at h
    cases ha : step start a with
    | error own =>
      rw [ha] at h
      cases h
      exact ⟨start, a, ha⟩
    | ok next =>
      rw [ha] at h
      exact ih h

theorem kind_of_extreme {name : String} {wanted : Ordering} {elements : List Json}
    {error : QueryError} (h : extreme name wanted elements = .error error) :
    error.kind = .function := by
  cases elements with
  | nil => cases h
  | cons first rest =>
    obtain ⟨best, candidate, hbetter⟩ := exists_of_foldlM_eq_error h
    unfold better at hbetter
    split at hbetter
    · cases hbetter
      rfl
    · cases hbetter

theorem kind_of_total {name : String} {elements : List Json} {error : QueryError}
    (h : total name elements = .error error) : error.kind = .function := by
  obtain ⟨sum, found, hplus⟩ := exists_of_foldlM_eq_error h
  cases found with
  | number n => cases hplus
  | _ =>
    cases hplus
    rfl

/-- The aggregates that words ask for fail on their elements, or at run time. -/
theorem kind_of_aggregateOf? {word : String} {aggregate : Aggregate}
    (h : Registry.aggregateOf? word = some aggregate) {elements : List Json} {error : QueryError}
    (hcall : aggregate.call elements = .error error) :
    error.kind = .function ∨ error.kind = .runtime := by
  unfold Registry.aggregateOf? at h
  split at h
  · cases h
    cases hcall
  · cases h
    exact .inl (kind_of_extreme hcall)
  · cases h
    exact .inl (kind_of_extreme hcall)
  · cases h
    have hsum : valueOf <$> total "sum" elements = .error error := hcall
    cases htotal : total "sum" elements with
    | error own =>
      rw [htotal] at hsum
      cases hsum
      exact .inl (kind_of_total htotal)
    | ok x =>
      rw [htotal] at hsum
      cases hsum
  · cases h
    have havg : (total "avg" elements >>= fun x => pure (if elements.isEmpty then .null
      else valueOf (x.map (·.divide elements.length)))) = .error error := hcall
    cases htotal : total "avg" elements with
    | error own =>
      rw [htotal] at havg
      cases havg
      exact .inl (kind_of_total htotal)
    | ok x =>
      rw [htotal] at havg
      cases havg
  · cases h
    cases hcall
  · cases h
    cases hcall
    exact .inr rfl
  · cases h
    cases hcall
  · cases h

end Aggregate

/-- No registry that words ask for gives a configuration error from a call. -/
theorem Registry.noConfig_ofWords? {words : List String} {functions : Registry}
    (h : ofWords? words = some functions) : functions.NoConfig := by
  have heach : Each (fun aggregate => ∀ elements error, aggregate.call elements = .error error →
      error.kind = .function ∨ error.kind = .runtime) functions :=
    each_ofWords? (fun _ _ haggregate _ _ => Aggregate.kind_of_aggregateOf? haggregate) h
  intro name aggregate hget elements error hcall hconfig
  rcases (heach name aggregate hget).2 elements error hcall with hkind | hkind
  · cases hkind.symm.trans hconfig
  · cases hkind.symm.trans hconfig

end PathQuery
