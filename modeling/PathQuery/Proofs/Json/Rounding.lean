import Mathlib.Algebra.Group.Int.Defs
import Mathlib.Algebra.Group.Nat.Defs
import Mathlib.Data.Nat.Log
import PathQuery.Json.Double

/-!
# Rounding keeps the order

A number of units is rounded to a multiple of its spacing. The spacing depends on the number of
bits only, so two numbers of one length are rounded to multiples of the same step, and rounding
quotients keeps the order. Between two numbers of different length stands a power of two, which
rounding never crosses.

`Double.round` is rounding on exact values with a sign. It keeps the order, and it leaves the value
of a binary fraction as it is; all that is said of comparisons later on follows from these two.

Results:
1. `roundUnits_mono`, `roundUnits_eq_self`: rounding keeps the order, and what is representable.
2. `round_mono`, `round_toInt`: so does rounding with a sign.
3. `toInt_ofInt`: an integer becomes a binary fraction by being rounded.
-/

namespace PathQuery.Double

/-! ## Quotients -/

theorem div_le_roundQuotient (num den : Nat) : num / den ≤ roundQuotient num den := by
  simp only [roundQuotient]
  split <;> omega

theorem roundQuotient_mono {num num' : Nat} (den : Nat) (h : num ≤ num') :
    roundQuotient num den ≤ roundQuotient num' den := by
  have hquotient : num / den ≤ num' / den := Nat.div_le_div_right h
  rcases Nat.lt_or_eq_of_le hquotient with hlt | heq
  · calc roundQuotient num den ≤ num / den + 1 := roundQuotient_le num den
      _ ≤ num' / den := hlt
      _ ≤ roundQuotient num' den := div_le_roundQuotient num' den
  · -- If the whole parts are the same, the greater remainder is rounded up if the other one is.
    have hremainder : num % den ≤ num' % den := by
      rw [← Nat.div_add_mod num den, ← Nat.div_add_mod num' den, heq] at h
      exact Nat.le_of_add_le_add_left h
    simp only [roundQuotient, heq]
    split <;> split <;> omega

theorem roundQuotient_mul (m : Nat) {den : Nat} (hden : 0 < den) :
    roundQuotient (m * den) den = m := by
  simp only [roundQuotient, Nat.mul_div_cancel m hden, Nat.mul_mod_left]
  exact if_pos (.inl hden)

/-! ## Units -/

theorem spacing_pos (units : Nat) : 0 < spacing units := Nat.two_pow_pos _

theorem spacing_dvd_two_pow {units k : Nat} (h : units.log2 ≤ k) : spacing units ∣ 2 ^ k :=
  Nat.pow_dvd_pow 2 (Nat.le_trans (Nat.sub_le _ _) h)

section

variable {num num' den m : Nat}

/-- Rounding does not go above a multiple of the spacing. -/
theorem roundUnits_le (hden : 0 < den) (hm : spacing (num / den) ∣ m) (h : num ≤ m * den) :
    roundUnits num den ≤ m := by
  obtain ⟨k, rfl⟩ := hm
  have hstep : 0 < den * spacing (num / den) := Nat.mul_pos hden (spacing_pos _)
  have hbound : num ≤ k * (den * spacing (num / den)) :=
    Nat.le_trans h (Nat.le_of_eq (by ac_rfl))
  have hquotient := roundQuotient_mono (den * spacing (num / den)) hbound
  rw [roundQuotient_mul k hstep] at hquotient
  rw [Nat.mul_comm]
  exact Nat.mul_le_mul_right _ hquotient

/-- Rounding does not go below a multiple of the spacing. -/
theorem le_roundUnits (hden : 0 < den) (hm : spacing (num / den) ∣ m) (h : m * den ≤ num) :
    m ≤ roundUnits num den := by
  obtain ⟨k, rfl⟩ := hm
  have hstep : 0 < den * spacing (num / den) := Nat.mul_pos hden (spacing_pos _)
  have hbound : k * (den * spacing (num / den)) ≤ num :=
    Nat.le_trans (Nat.le_of_eq (by ac_rfl)) h
  have hquotient := roundQuotient_mono (den * spacing (num / den)) hbound
  rw [roundQuotient_mul k hstep] at hquotient
  rw [Nat.mul_comm]
  exact Nat.mul_le_mul_right _ hquotient

/-- Rounding keeps the order. -/
theorem roundUnits_mono (hden : 0 < den) (h : num ≤ num') :
    roundUnits num den ≤ roundUnits num' den := by
  have hlength : (num / den).log2 ≤ (num' / den).log2 := by
    simpa only [Nat.log2_eq_log_two] using Nat.log_mono_right (Nat.div_le_div_right h)
  rcases Nat.lt_or_eq_of_le hlength with hlt | heq
  · -- The greater number starts at this power of two, which lies above the other one.
    generalize hk : (num' / den).log2 = k at hlt
    have hpower : 2 ^ k ≤ num' / den := by
      rw [← hk]
      exact Nat.log2_self_le (by rintro hzero; rw [hzero] at hk; simp at hk; omega)
    have hbelow : num / den < 2 ^ k :=
      Nat.lt_of_lt_of_le Nat.lt_log2_self (Nat.pow_le_pow_right (by decide) hlt)
    calc roundUnits num den ≤ 2 ^ k := by
          refine roundUnits_le hden (spacing_dvd_two_pow (Nat.le_of_lt hlt)) ?_
          exact Nat.le_of_lt ((Nat.div_lt_iff_lt_mul hden).1 hbelow)
      _ ≤ roundUnits num' den := by
          refine le_roundUnits hden (spacing_dvd_two_pow (Nat.le_of_eq hk)) ?_
          exact (Nat.le_div_iff_mul_le hden).1 hpower
  · have hspacing : spacing (num / den) = spacing (num' / den) := by rw [spacing, heq, spacing]
    unfold roundUnits
    rw [hspacing]
    exact Nat.mul_le_mul_right _ (roundQuotient_mono _ h)

/-- What is representable is rounded to itself. -/
theorem roundUnits_eq_self {units : Nat} (h : spacing units ∣ units) :
    roundUnits units 1 = units := by
  have hdvd : spacing (units / 1) ∣ units := by rwa [Nat.div_one]
  have hunits : units * 1 = units := Nat.mul_one units
  exact Nat.le_antisymm (roundUnits_le Nat.one_pos hdvd (Nat.le_of_eq hunits.symm))
    (le_roundUnits Nat.one_pos hdvd (Nat.le_of_eq hunits))

end

/-! ## Values with a sign -/

/-- The representable number of units nearest to a number of units. -/
def round (units : Int) : Int := (ofRatio (units < 0) units.natAbs 1).toInt

theorem round_of_nonneg {t : Int} (h : 0 ≤ t) : round t = roundUnits t.natAbs 1 := by
  simp [round, ofRatio, toInt, Int.not_lt.2 h]

theorem round_of_neg {t : Int} (h : t < 0) : round t = -roundUnits t.natAbs 1 := by
  simp [round, ofRatio, toInt, h]

/-- Rounding keeps the order. -/
theorem round_mono {s t : Int} (h : s ≤ t) : round s ≤ round t := by
  rcases Int.lt_or_le s 0 with hs | hs
  · rcases Int.lt_or_le t 0 with ht | ht
    · have hunits : roundUnits t.natAbs 1 ≤ roundUnits s.natAbs 1 :=
        roundUnits_mono Nat.one_pos (by omega)
      rw [round_of_neg hs, round_of_neg ht]
      omega
    · rw [round_of_neg hs, round_of_nonneg ht]
      omega
  · have hunits : roundUnits s.natAbs 1 ≤ roundUnits t.natAbs 1 :=
      roundUnits_mono Nat.one_pos (by omega)
    rw [round_of_nonneg hs, round_of_nonneg (Int.le_trans hs h)]
    omega

/-- A number of units that is representable is rounded to itself. -/
theorem round_eq_self {t : Int} (h : spacing t.natAbs ∣ t.natAbs) : round t = t := by
  have hunits := roundUnits_eq_self h
  rcases Int.lt_or_le t 0 with ht | ht
  · rw [round_of_neg ht, hunits]
    omega
  · rw [round_of_nonneg ht, hunits]
    omega

theorem natAbs_toInt (x : Double) : x.toInt.natAbs = x.units := by
  unfold toInt
  split <;> omega

/-- The value of a binary fraction is rounded to itself. -/
theorem round_toInt (x : Double) : round x.toInt = x.toInt := by
  refine round_eq_self ?_
  rw [natAbs_toInt]
  exact x.fits

/-! ## Integers -/

theorem exists_unitsPerOne : ∃ k, unitsPerOne = Nat.pow 2 k := by
  unfold unitsPerOne
  exact ⟨_, rfl⟩

theorem unitsPerOne_pos : 0 < unitsPerOne := by
  obtain ⟨k, hk⟩ := exists_unitsPerOne
  rw [hk]
  exact Nat.two_pow_pos k

/-- An integer becomes a binary fraction by being rounded. -/
theorem toInt_ofInt (n : Int) : (ofInt n).toInt = round (n * unitsPerOne) := by
  have hsign : n * unitsPerOne < 0 ↔ n < 0 := by
    have hunits : (0 : Int) < unitsPerOne := Int.natCast_pos.2 unitsPerOne_pos
    have hmul : n * unitsPerOne < 0 * unitsPerOne ↔ n < 0 := Int.mul_lt_mul_right hunits
    rwa [Int.zero_mul] at hmul
  unfold round ofInt
  simp only [hsign, Int.natAbs_mul, Int.natAbs_natCast]

/-- An integer of at most 53 bits is a binary fraction itself. -/
theorem round_mul_unitsPerOne {n : Int} (h : n.natAbs ≤ 2 ^ 53) :
    round (n * unitsPerOne) = n * unitsPerOne := by
  obtain ⟨k, hk⟩ := exists_unitsPerOne
  refine round_eq_self ?_
  rw [Int.natAbs_mul, Int.natAbs_natCast, hk]
  exact spacing_dvd_mul_two_pow k h

end PathQuery.Double
