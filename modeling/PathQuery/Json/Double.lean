/-!
# Binary floating point

A `Double` is a sign and a whole number of units of `2 ^ -1074`, the smallest positive step. At
most 53 bits of the number are significant: it is a multiple of its `spacing`. The type has no
largest value; `IsFinite` says that a number lies below the overflow threshold `2 ^ 1024`.

* `ofRatio` rounds a quotient to the nearest representable number, a tie to the even neighbour.
  That the result has 53 significant bits is `spacing_dvd_roundUnits`.
* Sums, quotients, integers and decimals are all exact values rounded once by `ofRatio`.
-/

namespace PathQuery

/-- The distance between neighbouring representable numbers around `units`. -/
def Double.spacing (units : Nat) : Nat := Nat.pow 2 (units.log2 - 52)

/-- A number with a sign and 53 significant bits, counted in units of `2 ^ -1074`. -/
structure Double where
  negative : Bool
  units : Nat
  fits : Double.spacing units ∣ units
  deriving DecidableEq

namespace Double

/-! ## Rounding -/

/-- The whole number nearest to `num / den`, a tie to the even one. -/
def roundQuotient (num den : Nat) : Nat :=
  let q := num / den
  let r := num % den
  if 2 * r < den ∨ (2 * r = den ∧ q % 2 = 0) then q else q + 1

/-- The representable number of units nearest to `num / den`. -/
def roundUnits (num den : Nat) : Nat :=
  let step := spacing (num / den)
  roundQuotient num (den * step) * step

theorem roundQuotient_le (num den : Nat) : roundQuotient num den ≤ num / den + 1 := by
  simp only [roundQuotient]
  split <;> omega

theorem roundQuotient_le_two_pow (num den : Nat) :
    roundQuotient num (den * spacing (num / den)) ≤ Nat.pow 2 53 := by
  have hlt : num / (den * spacing (num / den)) < Nat.pow 2 53 := by
    rw [← Nat.div_div_eq_div_mul, spacing, Nat.pow_eq, Nat.pow_eq,
      Nat.div_lt_iff_lt_mul (Nat.two_pow_pos _), ← Nat.pow_add]
    exact Nat.lt_of_lt_of_le Nat.lt_log2_self (Nat.pow_le_pow_right (by omega) (by omega))
  exact Nat.le_trans (roundQuotient_le _ _) hlt

/-- A multiple `m` of `2 ^ s` with `m / 2 ^ s` of at most 53 bits is representable. -/
theorem spacing_dvd_mul_two_pow {r : Nat} (s : Nat) (hr : r ≤ Nat.pow 2 53) :
    spacing (r * Nat.pow 2 s) ∣ r * Nat.pow 2 s := by
  rw [Nat.pow_eq] at hr ⊢
  by_cases hmax : r = 2 ^ 53
  · rw [spacing, hmax, ← Nat.pow_add, Nat.log2_two_pow]
    exact Nat.pow_dvd_pow 2 (by omega)
  · by_cases h0 : r = 0
    · simp [h0]
    · have hbits : (r * 2 ^ s).log2 < 53 + s := by
        rw [Nat.log2_lt (Nat.mul_ne_zero h0 (Nat.ne_of_gt (Nat.two_pow_pos s))), Nat.pow_add]
        exact Nat.mul_lt_mul_of_pos_right (by omega) (Nat.two_pow_pos s)
      exact Nat.dvd_mul_left_of_dvd (Nat.pow_dvd_pow 2 (by omega)) r

/-- What rounding gives has at most 53 significant bits. -/
theorem spacing_dvd_roundUnits (num den : Nat) :
    spacing (roundUnits num den) ∣ roundUnits num den :=
  spacing_dvd_mul_two_pow _ (roundQuotient_le_two_pow num den)

/-! ## Values -/

def unitsPerOne : Nat := Nat.pow 2 1074

/-- The representable number nearest to `num / den` units. -/
def ofRatio (negative : Bool) (num den : Nat) : Double :=
  ⟨negative, roundUnits num den, spacing_dvd_roundUnits num den⟩

def zero : Double := ⟨false, 0, Nat.dvd_zero _⟩

/-- Below `2 ^ 1024`, from where on a result counts as an overflow. -/
def IsFinite (x : Double) : Prop := x.units < Nat.pow 2 2098

instance (x : Double) : Decidable x.IsFinite := inferInstanceAs (Decidable (_ < _))

def finite? (x : Double) : Option Double := if x.IsFinite then some x else none

/-- The exact value in units. Both zeros have the value `0`. -/
def toInt (x : Double) : Int := if x.negative then -x.units else x.units

def ofInt (n : Int) : Double := ofRatio (n < 0) (n.natAbs * unitsPerOne) 1

/-- The rounded sum, unless it overflows. A sum of zero is positive. -/
def add? (x y : Double) : Option Double :=
  let total := x.toInt + y.toInt
  finite? (ofRatio (total < 0) total.natAbs 1)

/-- The rounded quotient by a count. It keeps the sign, also when it rounds to zero. -/
def divide (x : Double) (count : Nat) : Double := ofRatio x.negative x.units count

def compare (x y : Double) : Ordering := Ord.compare x.toInt y.toInt

/-! ## Decimals -/

def ofDecimal (negative : Bool) (digits : Nat) (exponent : Int) : Double :=
  match exponent with
  | .ofNat e => ofRatio negative (digits * Nat.pow 10 e * unitsPerOne) 1
  | .negSucc e => ofRatio negative (digits * unitsPerOne) (Nat.pow 10 (e + 1))

/-- The number nearest to `digits * 10 ^ exponent`, unless it overflows. A decimal outside
`10 ^ ±400` is decided by its size alone. -/
def ofDecimal? (negative : Bool) (digits : Nat) (exponent : Int) : Option Double :=
  let magnitude : Int := (Nat.toDigits 10 digits).length + exponent
  -- Far from the range of finite numbers the power of ten is not computed.
  if digits = 0 ∨ magnitude < -400 then some { zero with negative := negative }
  else if 400 < magnitude then none
  else finite? (ofDecimal negative digits exponent)

end Double

end PathQuery
