import PathQuery.Json.Basic
import PathQuery.Proofs.Json.Rounding

/-!
# The order of values

Two integers are compared exactly. With a binary fraction among them, two numbers are rounded first,
which changes nothing for the fraction. So the exact order is lost in one case only, when an integer
meets the very fraction that it is rounded to: `Number.Meets`. Such numbers count as equal.

Being equal in this way is not transitive: two integers may meet the same fraction. Being less is:
rounding keeps the order, so what is less than a number that is less does not meet it.

Results:
1. `Number.compare_of_not_meets`, `compare_of_meets`: how two numbers compare.
2. `Number.compare_lt_trans`: being less is transitive.
3. `exists_compare?_iff`: which values can be compared.
4. `compare?_swap`, `compare?_trans`, `compare?_self`: the order of values of any kind.
-/

namespace PathQuery

namespace Number

/-- The exact value of a number in units. -/
def units : Number → Int
  | .int n => n * Double.unitsPerOne
  | .real x => x.toInt

/-- Whether the number is an integer rather than a binary fraction. -/
def isInteger : Number → Bool
  | .int _ => true
  | .real _ => false

/-- One number is an integer and the other one the binary fraction that it is rounded to. -/
structure Meets (a b : Number) : Prop where
  kinds : a.isInteger ≠ b.isInteger
  rounded : Double.round a.units = Double.round b.units

variable {a b c : Number}

theorem Meets.symm (h : a.Meets b) : b.Meets a := ⟨h.kinds.symm, h.rounded.symm⟩

/-- A number as a binary fraction is its exact value rounded. -/
theorem toInt_toDouble (a : Number) : a.toDouble.toInt = Double.round a.units := by
  cases a with
  | int n => exact Double.toInt_ofInt n
  | real x => exact (Double.round_toInt x).symm

/-! ## Two numbers -/

theorem compare_of_isInteger (ha : a.isInteger = true) (hb : b.isInteger = true) :
    a.compare b = Ord.compare a.units b.units := by
  cases a with
  | real x => cases ha
  | int m =>
    cases b with
    | real y => cases hb
    | int n =>
      have hunits : (0 : Int) < Double.unitsPerOne := Int.natCast_pos.2 Double.unitsPerOne_pos
      show Ord.compare m n = Ord.compare (m * Double.unitsPerOne) (n * Double.unitsPerOne)
      rcases Int.lt_trichotomy m n with hlt | rfl | hgt
      · rw [Int.compare_eq_lt.2 hlt, Int.compare_eq_lt.2 ((Int.mul_lt_mul_right hunits).2 hlt)]
      · rw [Int.compare_eq_eq.2 rfl, Int.compare_eq_eq.2 rfl]
      · rw [Int.compare_eq_gt.2 hgt, Int.compare_eq_gt.2 ((Int.mul_lt_mul_right hunits).2 hgt)]

theorem compare_of_not_isInteger (h : a.isInteger = false ∨ b.isInteger = false) :
    a.compare b = Ord.compare (Double.round a.units) (Double.round b.units) := by
  rw [← toInt_toDouble, ← toInt_toDouble]
  cases a with
  | real x => rfl
  | int m =>
    cases b with
    | real y => rfl
    | int n => rcases h with h | h <;> cases h

/-- Rounding brings a binary fraction and a greater number together only if they meet. -/
theorem round_units_lt (hkinds : a.isInteger = false ∨ b.isInteger = false) (hnot : ¬ a.Meets b)
    (h : a.units < b.units) : Double.round a.units < Double.round b.units := by
  refine Int.lt_iff_le_and_ne.2 ⟨Double.round_mono (Int.le_of_lt h), fun hrounded => ?_⟩
  by_cases hsame : a.isInteger = b.isInteger
  · cases a with
    | int m =>
      rcases hkinds with hkind | hkind
      · cases hkind
      · cases hsame.trans hkind
    | real x =>
      cases b with
      | int n => cases hsame
      | real y =>
        have hx : Double.round (real x).units = (real x).units := Double.round_toInt x
        have hy : Double.round (real y).units = (real y).units := Double.round_toInt y
        rw [hx, hy] at hrounded
        exact Int.ne_of_lt h hrounded
  · exact hnot ⟨hsame, hrounded⟩

/-- Numbers compare by their exact values, unless they meet. -/
theorem compare_of_not_meets (hnot : ¬ a.Meets b) :
    a.compare b = Ord.compare a.units b.units := by
  by_cases hintegers : a.isInteger = true ∧ b.isInteger = true
  · exact compare_of_isInteger hintegers.1 hintegers.2
  · have hkinds : a.isInteger = false ∨ b.isInteger = false :=
      (Decidable.not_and_iff_or_not.1 hintegers).imp Bool.eq_false_iff.2 Bool.eq_false_iff.2
    rw [compare_of_not_isInteger hkinds]
    rcases Int.lt_trichotomy a.units b.units with hlt | heq | hgt
    · rw [Int.compare_eq_lt.2 hlt, Int.compare_eq_lt.2 (round_units_lt hkinds hnot hlt)]
    · rw [heq, Int.compare_eq_eq.2 rfl, Int.compare_eq_eq.2 rfl]
    · have hnot' : ¬ b.Meets a := fun h => hnot h.symm
      rw [Int.compare_eq_gt.2 hgt, Int.compare_eq_gt.2 (round_units_lt hkinds.symm hnot' hgt)]

/-- Numbers that meet count as equal. -/
theorem compare_of_meets (h : a.Meets b) : a.compare b = .eq := by
  have hkinds : a.isInteger = false ∨ b.isInteger = false := by
    cases hb : b.isInteger with
    | false => exact .inr rfl
    | true => exact .inl (Bool.eq_false_iff.2 fun ha => h.kinds (ha.trans hb.symm))
  rw [compare_of_not_isInteger hkinds, h.rounded]
  exact Int.compare_eq_eq.2 rfl

theorem compare_eq_lt_iff : a.compare b = .lt ↔ a.units < b.units ∧ ¬ a.Meets b := by
  constructor
  · intro h
    have hnot : ¬ a.Meets b := by
      intro hmeets
      rw [compare_of_meets hmeets] at h
      cases h
    rw [compare_of_not_meets hnot] at h
    exact ⟨Int.compare_eq_lt.1 h, hnot⟩
  · rintro ⟨hlt, hnot⟩
    rw [compare_of_not_meets hnot]
    exact Int.compare_eq_lt.2 hlt

theorem compare_swap (a b : Number) : b.compare a = (a.compare b).swap := by
  by_cases hmeets : a.Meets b
  · rw [compare_of_meets hmeets, compare_of_meets hmeets.symm]
    rfl
  · rw [compare_of_not_meets hmeets, compare_of_not_meets fun h => hmeets h.symm]
    exact Std.OrientedOrd.eq_swap

/-- Up to 53 bits an integer is a binary fraction itself, so it compares by its value. -/
theorem compare_of_small (ha : ∀ n, a = .int n → n.natAbs ≤ 2 ^ 53)
    (hb : ∀ n, b = .int n → n.natAbs ≤ 2 ^ 53) : a.compare b = Ord.compare a.units b.units := by
  have hround {c : Number} (hc : ∀ n, c = .int n → n.natAbs ≤ 2 ^ 53) :
      Double.round c.units = c.units := by
    cases c with
    | int n => exact Double.round_mul_unitsPerOne (hc n rfl)
    | real x => exact Double.round_toInt x
  by_cases hmeets : a.Meets b
  · have hunits : a.units = b.units := by rw [← hround ha, ← hround hb, hmeets.rounded]
    rw [compare_of_meets hmeets, Int.compare_eq_eq.2 hunits]
  · exact compare_of_not_meets hmeets

/-- A negative integer is less than one that is not, also when both become binary fractions. -/
theorem compare_toDouble_of_neg {m n : Int} (hm : m < 0) (hn : 0 ≤ n) :
    (int m).toDouble.compare (int n).toDouble = (int m).compare (int n) := by
  have hunits : (0 : Int) < Double.unitsPerOne := Int.natCast_pos.2 Double.unitsPerOne_pos
  have hmone : Double.round (m * Double.unitsPerOne) ≤ -1 * Double.unitsPerOne := by
    rw [← Double.round_mul_unitsPerOne (n := -1) (by decide)]
    exact Double.round_mono (Int.mul_le_mul_of_nonneg_right (by omega) (Int.le_of_lt hunits))
  have hzero : 0 ≤ Double.round (n * Double.unitsPerOne) := by
    rw [← Int.zero_mul Double.unitsPerOne, ← Double.round_mul_unitsPerOne (n := 0) (by decide)]
    exact Double.round_mono (Int.mul_le_mul_of_nonneg_right hn (Int.le_of_lt hunits))
  show Ord.compare (int m).toDouble.toInt (int n).toDouble.toInt = Ord.compare m n
  rw [toInt_toDouble, toInt_toDouble, Int.compare_eq_lt.2 (Int.lt_of_lt_of_le hm hn),
    Int.compare_eq_lt]
  show Double.round (m * Double.unitsPerOne) < Double.round (n * Double.unitsPerOne)
  omega

/-! ## Three numbers -/

/-- Rounding keeps the order, so what lies between two numbers that meet is rounded like both. It
meets one of them, as it is an integer or a binary fraction itself. -/
theorem Meets.between (h : a.Meets c) (hab : a.units ≤ b.units) (hbc : b.units ≤ c.units) :
    a.Meets b ∨ b.Meets c := by
  have hleft : Double.round a.units = Double.round b.units :=
    Int.le_antisymm (Double.round_mono hab) (h.rounded ▸ Double.round_mono hbc)
  have hright : Double.round b.units = Double.round c.units := hleft.symm.trans h.rounded
  by_cases hkinds : a.isInteger = b.isInteger
  · exact .inr ⟨hkinds ▸ h.kinds, hright⟩
  · exact .inl ⟨hkinds, hleft⟩

theorem compare_lt_trans (hab : a.compare b = .lt) (hbc : b.compare c = .lt) :
    a.compare c = .lt := by
  obtain ⟨hlt, hnot⟩ := compare_eq_lt_iff.1 hab
  obtain ⟨hlt', hnot'⟩ := compare_eq_lt_iff.1 hbc
  refine compare_eq_lt_iff.2 ⟨Int.lt_trans hlt hlt', fun hmeets => ?_⟩
  rcases hmeets.between (Int.le_of_lt hlt) (Int.le_of_lt hlt') with h | h
  · exact hnot h
  · exact hnot' h

end Number

/-! ## Values -/

inductive Kind where
  | number
  | string
  | bool
  deriving DecidableEq

namespace Json

/-- The kind of a value, if it has an order. -/
def kind? : Json → Option Kind
  | .number _ => some .number
  | .string _ => some .string
  | .bool _ => some .bool
  | _ => none

variable {a b c : Json}

/-- Values can be compared if they are of one kind. -/
theorem exists_compare?_iff :
    (∃ order, a.compare? b = some order) ↔ ∃ kind, a.kind? = some kind ∧ b.kind? = some kind := by
  cases a <;> cases b <;> simp [compare?, kind?]

theorem compare?_swap (a b : Json) : b.compare? a = (a.compare? b).map Ordering.swap := by
  cases a with
  | number m =>
    cases b with
    | number n => exact congrArg some (Number.compare_swap m n)
    | _ => rfl
  | string s =>
    cases b with
    | string t => exact congrArg some Std.OrientedOrd.eq_swap
    | _ => rfl
  | bool p =>
    cases b with
    | bool q => exact congrArg some Std.OrientedOrd.eq_swap
    | _ => rfl
  | _ => cases b <;> rfl

/-- No value comes before or after itself. -/
theorem compare?_self {wanted : Ordering} (hwanted : wanted ≠ .eq) (a : Json) :
    a.compare? a ≠ some wanted := by
  intro h
  have hswap := compare?_swap a a
  rw [h, Option.map_some, Option.some.injEq] at hswap
  cases wanted with
  | eq => exact hwanted rfl
  | lt => cases hswap
  | gt => cases hswap

theorem compare?_lt_trans (hab : a.compare? b = some .lt) (hbc : b.compare? c = some .lt) :
    a.compare? c = some .lt := by
  obtain ⟨kind, ha, hb⟩ := exists_compare?_iff.1 ⟨_, hab⟩
  obtain ⟨kind', hb', hc⟩ := exists_compare?_iff.1 ⟨_, hbc⟩
  obtain rfl : kind = kind' := Option.some.inj (hb.symm.trans hb')
  cases a with
  | number m =>
    cases b <;> cases ha.trans hb.symm
    cases c <;> cases ha.trans hc.symm
    exact congrArg some
      (Number.compare_lt_trans (Option.some.inj hab) (Option.some.inj hbc))
  | string s =>
    cases b <;> cases ha.trans hb.symm
    cases c <;> cases ha.trans hc.symm
    exact congrArg some (Std.TransCmp.lt_trans (Option.some.inj hab) (Option.some.inj hbc))
  | bool p =>
    cases b <;> cases ha.trans hb.symm
    cases c <;> cases ha.trans hc.symm
    exact congrArg some (Std.TransCmp.lt_trans (Option.some.inj hab) (Option.some.inj hbc))
  | _ => cases ha

/-- What comes before a value comes before what that one comes before, and likewise after. -/
theorem compare?_trans {wanted : Ordering} (hwanted : wanted ≠ .eq)
    (hab : a.compare? b = some wanted) (hbc : b.compare? c = some wanted) :
    a.compare? c = some wanted := by
  cases wanted with
  | eq => exact absurd rfl hwanted
  | lt => exact compare?_lt_trans hab hbc
  | gt =>
    have hba : b.compare? a = some .lt := by rw [compare?_swap a b, hab]; rfl
    have hcb : c.compare? b = some .lt := by rw [compare?_swap b c, hbc]; rfl
    rw [compare?_swap c a, compare?_lt_trans hcb hba]
    rfl

end Json

end PathQuery
