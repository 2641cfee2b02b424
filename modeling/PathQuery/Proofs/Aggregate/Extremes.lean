import PathQuery.Aggregate.Basic
import PathQuery.Proofs.Json.Comparison

/-!
# The extreme of a list

The search for an extreme compares each element with the best one so far, and with no other. That no
element beats the last best one needs an argument, as being equal is not transitive when large
integers meet binary fractions. What carries it is that beating is: each best element beats all the
best ones before it, so an element that beat the last one would beat the one it was compared with.

Results:
1. `exists_foldlM_better`: among elements of one kind the search ends at one that none beats.
2. `foldlM_better_cases`: otherwise it ends at two elements that cannot be compared.
3. `extreme_iff_orderable`: when `max`, `min`, `sum` and `avg` succeed, in whatever order the
   elements come, and what the first two give.
4. `Json.numbers_by_value`: how far numbers are ordered by their exact values.
-/

namespace PathQuery

namespace Aggregate

/-- There is one element, or all of them are of one kind. -/
def Orderable (elements : List Json) : Prop :=
  elements.length = 1 ∨ ∃ kind, ∀ element ∈ elements, element.kind? = some kind

def Succeeds (aggregate : Aggregate) (elements : List Json) : Prop :=
  ∃ value, aggregate.call elements = .ok value

/-! ## The search -/

section

variable {name : String} {wanted : Ordering} {best candidate : Json} {rest : List Json}

theorem better_of_compare? {order : Ordering} (h : candidate.compare? best = some order) :
    better name wanted best candidate = .ok (if order = wanted then candidate else best) := by
  unfold better
  rw [h]

theorem better_of_not_comparable (h : candidate.compare? best = none) :
    better name wanted best candidate = .error (.notComparable name best candidate) := by
  unfold better
  rw [h]

/-- Among elements of one kind the search ends at one that no element beats. It is the first best
one, or it beats that one. -/
theorem exists_foldlM_better (hwanted : wanted ≠ .eq) {kind : Kind}
    (hbest : best.kind? = some kind) (hrest : ∀ element ∈ rest, element.kind? = some kind) :
    ∃ value ∈ best :: rest, rest.foldlM (better name wanted) best = .ok value ∧
      (value = best ∨ value.compare? best = some wanted) ∧
      ∀ element ∈ best :: rest, element.compare? value ≠ some wanted := by
  induction rest generalizing best with
  | nil =>
    refine ⟨best, List.mem_singleton_self best, rfl, .inl rfl, List.forall_mem_singleton.2 ?_⟩
    exact Json.compare?_self hwanted best
  | cons candidate rest ih =>
    obtain ⟨hcandidate, hrest⟩ := List.forall_mem_cons.1 hrest
    obtain ⟨order, horder⟩ := Json.exists_compare?_iff.2 ⟨kind, hcandidate, hbest⟩
    rw [List.foldlM_cons, better_of_compare? horder]
    by_cases hbeats : order = wanted
    · subst hbeats
      obtain ⟨value, hmem, hvalue, hchain, hnone⟩ := ih hcandidate hrest
      have hover : value.compare? best = some order := by
        rcases hchain with rfl | hchain
        · exact horder
        · exact Json.compare?_trans hwanted hchain horder
      refine ⟨value, List.mem_cons_of_mem _ hmem, ?_, .inr hover, ?_⟩
      · rw [if_pos rfl]
        exact hvalue
      · -- Beaten by the value, the former best element cannot beat it.
        refine List.forall_mem_cons.2 ⟨fun hback => ?_, hnone⟩
        exact Json.compare?_self hwanted best (Json.compare?_trans hwanted hback hover)
    · obtain ⟨value, hmem, hvalue, hchain, hnone⟩ := ih hbest hrest
      obtain ⟨hbest', hrest'⟩ := List.forall_mem_cons.1 hnone
      have hcandidate' : candidate.compare? value ≠ some wanted := by
        intro hover
        have hdirect : candidate.compare? best = some wanted := by
          rcases hchain with rfl | hchain
          · exact hover
          · exact Json.compare?_trans hwanted hover hchain
        exact hbeats (Option.some.inj (horder.symm.trans hdirect))
      refine ⟨value, ?_, ?_, hchain, ?_⟩
      · rcases List.mem_cons.1 hmem with rfl | hmem
        · exact List.mem_cons_self
        · exact List.mem_cons_of_mem _ (List.mem_cons_of_mem _ hmem)
      · rw [if_neg hbeats]
        exact hvalue
      · exact List.forall_mem_cons.2 ⟨hbest', List.forall_mem_cons.2 ⟨hcandidate', hrest'⟩⟩

/-- A search that ends at a value has seen elements of one kind, if it has compared any. Otherwise
it ends at two elements that cannot be compared. -/
theorem foldlM_better_cases (name : String) (wanted : Ordering) (best : Json) (rest : List Json) :
    (∃ value, rest.foldlM (better name wanted) best = .ok value ∧ Orderable (best :: rest)) ∨
    ∃ first ∈ best :: rest, ∃ second ∈ best :: rest, second.compare? first = none ∧
      rest.foldlM (better name wanted) best = .error (.notComparable name first second) := by
  induction rest generalizing best with
  | nil => exact .inl ⟨best, rfl, .inl rfl⟩
  | cons candidate rest ih =>
    rw [List.foldlM_cons]
    cases horder : candidate.compare? best with
    | none =>
      refine .inr ⟨best, List.mem_cons_self, candidate, by simp, horder, ?_⟩
      rw [better_of_not_comparable horder]
      rfl
    | some order =>
      obtain ⟨kind, hcandidate, hbest⟩ := Json.exists_compare?_iff.1 ⟨order, horder⟩
      rw [better_of_compare? horder]
      generalize hnext : (if order = wanted then candidate else best) = next
      have hnext' : next = candidate ∨ next = best := by
        rw [← hnext]
        exact (ite_eq_or_eq ..)
      rcases ih next with ⟨value, hvalue, hkinds⟩ | ⟨first, hfirst, second, hsecond, hnone, herror⟩
      · refine .inl ⟨value, hvalue, .inr ⟨kind, ?_⟩⟩
        have hnextKind : next.kind? = some kind := by
          rcases hnext' with rfl | rfl
          · exact hcandidate
          · exact hbest
        have hrest : ∀ element ∈ rest, element.kind? = some kind := by
          rcases hkinds with hlength | ⟨kind', hkind'⟩
          · rw [List.length_eq_zero_iff.1 (Nat.succ.inj hlength)]
            exact nofun
          · obtain ⟨hown, hrest⟩ := List.forall_mem_cons.1 hkind'
            obtain rfl : kind = kind' := Option.some.inj (hnextKind.symm.trans hown)
            exact hrest
        exact List.forall_mem_cons.2 ⟨hbest, List.forall_mem_cons.2 ⟨hcandidate, hrest⟩⟩
      · have hsubset : next :: rest ⊆ best :: candidate :: rest := by
          rcases hnext' with rfl | rfl
          · exact List.subset_cons_self _ _
          · exact List.cons_subset_cons _ (List.subset_cons_self _ _)
        exact .inr ⟨first, hsubset hfirst, second, hsubset hsecond, hnone, herror⟩

end

/-- The extreme of elements that can be put in order is one that no element beats. -/
theorem exists_extreme (name : String) {wanted : Ordering} (hwanted : wanted ≠ .eq)
    {elements : List Json} (hne : elements ≠ []) (horderable : Orderable elements) :
    ∃ value ∈ elements, extreme name wanted elements = .ok value ∧
      ∀ element ∈ elements, element.compare? value ≠ some wanted := by
  obtain ⟨best, rest, rfl⟩ := List.exists_cons_of_ne_nil hne
  rcases horderable with hlength | ⟨kind, hkinds⟩
  · obtain rfl : rest = [] := List.length_eq_zero_iff.1 (Nat.succ.inj hlength)
    refine ⟨best, List.mem_singleton_self best, rfl, List.forall_mem_singleton.2 ?_⟩
    exact Json.compare?_self hwanted best
  · obtain ⟨hbest, hrest⟩ := List.forall_mem_cons.1 hkinds
    obtain ⟨value, hmem, hvalue, -, hnone⟩ := exists_foldlM_better hwanted hbest hrest
    exact ⟨value, hmem, hvalue, hnone⟩

/-- Elements that cannot be put in order have no extreme, and the error names two of them. -/
theorem exists_extreme_error (name : String) (wanted : Ordering) {elements : List Json}
    (h : ¬ Orderable elements) :
    ∃ first ∈ elements, ∃ second ∈ elements, second.compare? first = none ∧
      extreme name wanted elements = .error (.notComparable name first second) := by
  cases elements with
  | nil => exact absurd (.inr ⟨.number, nofun⟩) h
  | cons best rest =>
    rcases foldlM_better_cases name wanted best rest with ⟨-, -, horderable⟩ | herror
    · exact absurd horderable h
    · exact herror

/-! ## Success -/

theorem succeeds_extreme_iff {name : String} {wanted : Ordering} (hwanted : wanted ≠ .eq)
    (elements : List Json) :
    Succeeds ⟨name, extreme name wanted⟩ elements ↔ Orderable elements := by
  constructor
  · rintro ⟨value, hvalue⟩
    by_contra h
    obtain ⟨_, -, _, -, -, herror⟩ := exists_extreme_error name wanted h
    cases hvalue.symm.trans herror
  · intro h
    cases elements with
    | nil => exact ⟨.null, rfl⟩
    | cons best rest =>
      obtain ⟨value, -, hvalue, -⟩ := exists_extreme name hwanted (List.cons_ne_nil best rest) h
      exact ⟨value, hvalue⟩

/-- A sum can be made of numbers only. -/
theorem exists_foldlM_plus_iff (name : String) (elements : List Json) (start : Option Double) :
    (∃ sum, elements.foldlM (plus name) start = .ok sum) ↔
      ∀ element ∈ elements, element.kind? = some .number := by
  induction elements generalizing start with
  | nil => exact ⟨fun _ => nofun, fun _ => ⟨start, rfl⟩⟩
  | cons element rest ih =>
    rw [List.foldlM_cons, List.forall_mem_cons]
    cases element with
    | number n => exact (ih _).trans ⟨fun h => ⟨rfl, h⟩, fun h => h.2⟩
    | _ => exact ⟨nofun, nofun⟩

theorem succeeds_sum_iff (elements : List Json) :
    sum.Succeeds elements ↔ ∀ element ∈ elements, element.kind? = some .number := by
  rw [← exists_foldlM_plus_iff "sum" elements (some .zero)]
  show (∃ value, valueOf <$> total "sum" elements = .ok value) ↔
    ∃ x, total "sum" elements = .ok x
  cases total "sum" elements with
  | error error => exact ⟨nofun, nofun⟩
  | ok x => exact ⟨fun _ => ⟨x, rfl⟩, fun _ => ⟨_, rfl⟩⟩

theorem succeeds_avg_iff (elements : List Json) :
    avg.Succeeds elements ↔ ∀ element ∈ elements, element.kind? = some .number := by
  rw [← exists_foldlM_plus_iff "avg" elements (some .zero)]
  show (∃ value, (total "avg" elements >>= fun x => pure (if elements.isEmpty then .null
      else valueOf (x.map (·.divide elements.length)))) = .ok value) ↔
    ∃ x, total "avg" elements = .ok x
  cases total "avg" elements with
  | error error => exact ⟨nofun, nofun⟩
  | ok x => exact ⟨fun _ => ⟨x, rfl⟩, fun _ => ⟨_, rfl⟩⟩

theorem orderable_perm {elements shuffled : List Json} (h : elements.Perm shuffled) :
    Orderable shuffled ↔ Orderable elements := by
  unfold Orderable
  simp only [h.length_eq, h.mem_iff]

/-- The greatest and the least element, each with how an element compares that beats another. -/
def directed : List (Aggregate × Ordering) := [(max, .gt), (min, .lt)]

/-- On a list with elements `max` and `min` give an element that no element beats, exactly if there
is one element only or all of them are strings, booleans or numbers. Otherwise they fail for two
elements without an order. A sum or a mean exists exactly if all elements are numbers. So whether
one of the four fails does not depend on the order of the elements. -/
theorem extreme_iff_orderable {elements : List Json} (hne : elements ≠ []) :
    (∀ aggregate wanted, (aggregate, wanted) ∈ directed →
      (Orderable elements → ∃ value ∈ elements, aggregate.call elements = .ok value ∧
        ∀ element ∈ elements, element.compare? value ≠ some wanted) ∧
      (¬ Orderable elements → ∃ error, aggregate.call elements = .error error ∧
        error.kind = .function ∧
        ∃ first ∈ elements, ∃ second ∈ elements, second.compare? first = none ∧
          error = .notComparable aggregate.name first second)) ∧
    (∀ aggregate ∈ [sum, avg], aggregate.Succeeds elements ↔
      ∀ element ∈ elements, element.kind? = some .number) ∧
    ∀ aggregate ∈ [max, min, sum, avg], ∀ shuffled, elements.Perm shuffled →
      (aggregate.Succeeds shuffled ↔ aggregate.Succeeds elements) := by
  have hextreme (name : String) {wanted : Ordering} (hwanted : wanted ≠ .eq) :
      (Orderable elements → ∃ value ∈ elements, extreme name wanted elements = .ok value ∧
        ∀ element ∈ elements, element.compare? value ≠ some wanted) ∧
      (¬ Orderable elements → ∃ error, extreme name wanted elements = .error error ∧
        error.kind = .function ∧
        ∃ first ∈ elements, ∃ second ∈ elements, second.compare? first = none ∧
          error = .notComparable name first second) := by
    refine ⟨exists_extreme name hwanted hne, fun h => ?_⟩
    obtain ⟨first, hfirst, second, hsecond, hnone, herror⟩ := exists_extreme_error name wanted h
    exact ⟨_, herror, rfl, first, hfirst, second, hsecond, hnone, rfl⟩
  refine ⟨?_, ?_, ?_⟩
  · intro aggregate wanted hmem
    rcases List.mem_cons.1 hmem with heq | hmem
    · obtain ⟨rfl, rfl⟩ := Prod.mk.inj heq
      exact hextreme "max" (by decide)
    · obtain ⟨rfl, rfl⟩ := Prod.mk.inj (List.mem_singleton.1 hmem)
      exact hextreme "min" (by decide)
  · exact List.forall_mem_cons.2
      ⟨succeeds_sum_iff elements, List.forall_mem_singleton.2 (succeeds_avg_iff elements)⟩
  · intro aggregate hmem shuffled hperm
    have horderable := orderable_perm hperm
    have hnumbers : (∀ element ∈ shuffled, element.kind? = some .number) ↔
        ∀ element ∈ elements, element.kind? = some .number := by
      simp only [hperm.mem_iff]
    simp only [List.mem_cons, List.not_mem_nil, or_false] at hmem
    rcases hmem with rfl | rfl | rfl | rfl
    · exact (succeeds_extreme_iff (by decide) _).trans
        (horderable.trans (succeeds_extreme_iff (by decide) _).symm)
    · exact (succeeds_extreme_iff (by decide) _).trans
        (horderable.trans (succeeds_extreme_iff (by decide) _).symm)
    · rw [succeeds_sum_iff, succeeds_sum_iff, hnumbers]
    · rw [succeeds_avg_iff, succeeds_avg_iff, hnumbers]

/-- Two integers that are rounded to the same binary fraction, around it in the list, and a number
beside a string. -/
theorem extreme_iff_orderable_of_fraction :
    let numbers : List Json := [.number (.int (2 ^ 53)), .number (.real (Double.ofInt (2 ^ 53))),
      .number (.int (2 ^ 53 + 1))]
    let mixed : List Json := [.number (.int 1), .string "x"]
    numbers ≠ [] ∧ Orderable numbers ∧
    (∃ value ∈ numbers, max.call numbers = .ok value ∧
      ∀ element ∈ numbers, element.compare? value ≠ some .gt) ∧
    sum.Succeeds numbers.reverse ∧
    mixed ≠ [] ∧ ¬ Orderable mixed ∧
    ∃ error, min.call mixed = .error error ∧ error.kind = .function ∧
      ∃ first ∈ mixed, ∃ second ∈ mixed, second.compare? first = none ∧
        error = .notComparable min.name first second := by
  intro numbers mixed
  have hkinds : ∀ element ∈ numbers, element.kind? = some .number := by
    simp [numbers, Json.kind?]
  have hmixed : ¬ Orderable mixed := by
    rintro (hlength | ⟨kind, hkind⟩)
    · cases hlength
    · have hnumber : some Kind.number = some kind := hkind _ List.mem_cons_self
      have hstring : some Kind.string = some kind :=
        hkind (.string "x") (List.mem_cons_of_mem _ (List.mem_singleton_self _))
      cases hnumber.trans hstring.symm
  have hnumbers := @extreme_iff_orderable numbers (List.cons_ne_nil _ _)
  have herror := @extreme_iff_orderable mixed (List.cons_ne_nil _ _)
  refine ⟨List.cons_ne_nil _ _, .inr ⟨_, hkinds⟩, ?_, ?_, List.cons_ne_nil _ _, hmixed, ?_⟩
  · exact (hnumbers.1 max .gt List.mem_cons_self).1 (.inr ⟨_, hkinds⟩)
  · have hsum := (hnumbers.2.1 sum List.mem_cons_self).2 hkinds
    exact (hnumbers.2.2 sum (by simp) _ (List.reverse_perm numbers).symm).2 hsum
  · exact (herror.1 min .lt (List.mem_cons_of_mem _ List.mem_cons_self)).2 hmixed

/-! ## Numbers -/

/-- The extreme of numbers is one of them that no number beats. -/
theorem exists_extreme_numbers (name : String) {wanted : Ordering} (hwanted : wanted ≠ .eq)
    (first : Number) (rest : List Number) :
    ∃ best ∈ first :: rest,
      extreme name wanted ((first :: rest).map .number) = .ok (.number best) ∧
      ∀ n ∈ first :: rest, n.compare best ≠ wanted := by
  have hkinds : ∀ element ∈ (first :: rest).map Json.number, element.kind? = some .number := by
    intro element helement
    obtain ⟨n, -, rfl⟩ := List.mem_map.1 helement
    rfl
  have hne : (first :: rest).map Json.number ≠ [] := List.cons_ne_nil _ _
  obtain ⟨value, hmem, hvalue, hnone⟩ := exists_extreme name hwanted hne (.inr ⟨_, hkinds⟩)
  obtain ⟨best, hbest, rfl⟩ := List.mem_map.1 hmem
  refine ⟨best, hbest, hvalue, fun n hn hover => ?_⟩
  exact hnone (.number n) (List.mem_map_of_mem hn) (congrArg some hover)

end Aggregate

/-- Numbers are ordered by their exact values, except that an integer counts as equal to the binary
fraction that it is rounded to. The order is antisymmetric, and being less is transitive; so is not
being greater, if the numbers compared do not meet. The extreme of numbers is one that no other
number exceeds but one that it meets. -/
theorem Json.numbers_by_value (a b c first : Number) (rest : List Number) :
    let order (a b : Number) := (Json.number a).compare? (Json.number b)
    (¬ a.Meets b → order a b = some (Ord.compare a.units b.units)) ∧
    (a.Meets b → order a b = some .eq) ∧
    ((∀ n, a = .int n → n.natAbs ≤ 2 ^ 53) → (∀ n, b = .int n → n.natAbs ≤ 2 ^ 53) →
      order a b = some (Ord.compare a.units b.units)) ∧
    (∀ m n, m < 0 → 0 ≤ n → order (.int m) (.int n) =
      some ((Number.int m).toDouble.compare (Number.int n).toDouble)) ∧
    order b a = (order a b).map Ordering.swap ∧
    (order a b = some .lt → order b c = some .lt → order a c = some .lt) ∧
    (¬ a.Meets b → ¬ b.Meets c → order a b ≠ some .gt → order b c ≠ some .gt →
      order a c ≠ some .gt) ∧
    (∃ greatest ∈ first :: rest,
      Aggregate.max.call ((first :: rest).map .number) = .ok (.number greatest) ∧
      ∀ n ∈ first :: rest, n.units ≤ greatest.units ∨ n.Meets greatest) ∧
    ∃ least ∈ first :: rest,
      Aggregate.min.call ((first :: rest).map .number) = .ok (.number least) ∧
      ∀ n ∈ first :: rest, least.units ≤ n.units ∨ n.Meets least := by
  intro order
  have hle {a b : Number} (hnot : ¬ a.Meets b) (h : a.compare b ≠ .gt) : a.units ≤ b.units := by
    rw [Number.compare_of_not_meets hnot] at h
    exact Int.not_lt.1 fun hlt => h (Int.compare_eq_gt.2 hlt)
  have hge {a b : Number} (hnot : ¬ a.Meets b) (h : a.compare b ≠ .lt) : b.units ≤ a.units := by
    rw [Number.compare_of_not_meets hnot] at h
    exact Int.not_lt.1 fun hlt => h (Int.compare_eq_lt.2 hlt)
  refine ⟨fun h => congrArg some (Number.compare_of_not_meets h),
    fun h => congrArg some (Number.compare_of_meets h),
    fun ha hb => congrArg some (Number.compare_of_small ha hb),
    fun m n hm hn => congrArg some (Number.compare_toDouble_of_neg hm hn).symm,
    Json.compare?_swap _ _, Json.compare?_lt_trans, ?_, ?_, ?_⟩
  · intro hab hbc hle₁ hle₂ hgt
    have hfirst : a.units ≤ b.units := hle hab fun h => hle₁ (congrArg some h)
    have hsecond : b.units ≤ c.units := hle hbc fun h => hle₂ (congrArg some h)
    have hca : c.compare a = .lt := by
      rw [Number.compare_swap a c, Option.some.inj hgt]
      rfl
    exact absurd (Number.compare_eq_lt_iff.1 hca).1 (Int.not_lt.2 (Int.le_trans hfirst hsecond))
  · obtain ⟨greatest, hmem, hcall, hnone⟩ :=
      Aggregate.exists_extreme_numbers "max" (show Ordering.gt ≠ .eq by decide) first rest
    refine ⟨greatest, hmem, hcall, fun n hn => ?_⟩
    by_cases hmeets : n.Meets greatest
    · exact .inr hmeets
    · exact .inl (hle hmeets (hnone n hn))
  · obtain ⟨least, hmem, hcall, hnone⟩ :=
      Aggregate.exists_extreme_numbers "min" (show Ordering.lt ≠ .eq by decide) first rest
    refine ⟨least, hmem, hcall, fun n hn => ?_⟩
    by_cases hmeets : n.Meets least
    · exact .inr hmeets
    · exact .inl (hge hmeets (hnone n hn))

/-- Three numbers of which one meets the others, in a list that has the greatest one last. -/
theorem Json.numbers_by_value_of_large :
    let fraction := Number.real (Double.ofInt (2 ^ 53))
    let order (a b : Number) := (Json.number a).compare? (Json.number b)
    (Number.int (2 ^ 53 + 1)).Meets fraction ∧
    order (.int (2 ^ 53 + 1)) fraction = some .eq ∧
    ¬ fraction.Meets (.int (2 ^ 53 + 3)) ∧
    order fraction (.int (2 ^ 53 + 3)) =
      some (Ord.compare fraction.units (Number.int (2 ^ 53 + 3)).units) ∧
    ∃ greatest ∈ [.int (2 ^ 53 + 1), fraction, .int (2 ^ 53 + 3)],
      Aggregate.max.call ([Number.int (2 ^ 53 + 1), fraction, .int (2 ^ 53 + 3)].map .number) =
        .ok (.number greatest) ∧
      ∀ n ∈ [.int (2 ^ 53 + 1), fraction, .int (2 ^ 53 + 3)],
        n.units ≤ greatest.units ∨ n.Meets greatest := by
  intro fraction order
  have hmeets : (Number.int (2 ^ 53 + 1)).Meets fraction := ⟨by decide, by decide +kernel⟩
  have hnot : ¬ fraction.Meets (.int (2 ^ 53 + 3)) :=
    fun h => absurd h.rounded (by decide +kernel)
  have hfirst := numbers_by_value (.int (2 ^ 53 + 1)) fraction (.int (2 ^ 53 + 3))
    (.int (2 ^ 53 + 1)) [fraction, .int (2 ^ 53 + 3)]
  have hsecond := numbers_by_value fraction (.int (2 ^ 53 + 3)) fraction fraction []
  exact ⟨hmeets, hfirst.2.1 hmeets, hnot, hsecond.1 hnot, hfirst.2.2.2.2.2.2.2.1⟩

/-- An integer counts as equal to a lesser binary fraction, which is then taken for the greatest
number, while another integer that is equal to the fraction is less than the first one. -/
theorem Json.numbers_not_by_value :
    let fraction := Number.real (Double.ofInt (2 ^ 53))
    let order (a b : Number) := (Json.number a).compare? (Json.number b)
    fraction.units < (Number.int (2 ^ 53 + 1)).units ∧
    order (.int (2 ^ 53 + 1)) fraction = some .eq ∧
    order fraction (.int (2 ^ 53)) = some .eq ∧
    order (.int (2 ^ 53 + 1)) (.int (2 ^ 53)) = some .gt ∧
    Aggregate.max.call [.number fraction, .number (.int (2 ^ 53 + 1))] =
      .ok (.number fraction) := by
  decide +kernel

end PathQuery
