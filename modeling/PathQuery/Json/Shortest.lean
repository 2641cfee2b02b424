import PathQuery.Json.Double

/-!
# Shortest decimals

A `Double` is written with the fewest decimal digits that read back as the same number. Of two
decimals of that length the one nearer to the exact value is written, and of two equally near ones
the one with the even last digit.

* `shortest` looks for the decimal on the grids of 1 to 17 digits in turn. A grid has a decimal
  that reads back only if one of the two neighbours of the value on it does.
* `Double.text` lays the digits out, with a point for the common magnitudes and with a power of ten
  for the others.
-/

namespace PathQuery

/-- The decimal `digits * 10 ^ exponent`. -/
structure Decimal where
  digits : Nat
  exponent : Int
  deriving DecidableEq

namespace Decimal

/-! ## Choosing the digits -/

/-- The decimal is the text of `units` units of a `Double`: it reads back as that number. -/
def ReadsBack (units : Nat) (d : Decimal) : Prop :=
  (Double.ofDecimal false d.digits d.exponent).units = units

instance (units : Nat) (d : Decimal) : Decidable (d.ReadsBack units) :=
  inferInstanceAs (Decidable (_ = _))

/-- The power of ten just above a positive number of units: it is below `10 ^ k`, and not below
`10 ^ (k - 1)`. -/
def magnitude (units : Nat) : Int :=
  let whole := units / Double.unitsPerOne
  -- Below one, the digits of the reciprocal count the zeros after the point.
  if whole = 0 then 1 - ((Nat.toDigits 10 ((Double.unitsPerOne - 1) / units)).length : Int)
  else (Nat.toDigits 10 whole).length

/-- The neighbours of a number of units on the multiples of `10 ^ exponent`, the nearer one
first. -/
def neighbours (units : Nat) (exponent : Int) : List Decimal :=
  let (num, den) := match exponent with
    | .ofNat e => (units, Nat.pow 10 e * Double.unitsPerOne)
    | .negSucc e => (units * Nat.pow 10 (e + 1), Double.unitsPerOne)
  let below : Decimal := ⟨num / den, exponent⟩
  let above : Decimal := ⟨num / den + 1, exponent⟩
  if Double.roundQuotient num den = num / den then [below, above] else [above, below]

/-- The shortest decimal of a positive number of units. Seventeen digits are always enough. -/
def shortest (units : Nat) : Decimal :=
  let grids := (List.range 17).map fun (n : Nat) => magnitude units - (n + 1)
  let found := grids.findSome? fun exponent =>
    (neighbours units exponent).find? fun d => d.ReadsBack units
  found.getD ((neighbours units (magnitude units - 17)).headD ⟨0, 0⟩)

/-! ## Laying the digits out -/

/-- The digits without zeros at the end, and the place of the point counted from the first digit. -/
def significant (d : Decimal) : List Char × Int :=
  let digits := Nat.toDigits 10 d.digits
  ((digits.reverse.dropWhile (· == '0')).reverse, digits.length + d.exponent)

/-- The magnitudes written without a power of ten. -/
def IsPlain (point : Int) : Prop := -5 < point ∧ point ≤ 16

instance (point : Int) : Decidable (IsPlain point) := inferInstanceAs (Decidable (_ ∧ _))

/-- The digits with a point, and a power of ten where the magnitude asks for it. -/
def layout (digits : List Char) (point : Int) : List Char :=
  if IsPlain point then
    if point ≤ 0 then '0' :: '.' :: List.replicate (-point).toNat '0' ++ digits
    else
      let whole := point.toNat
      if whole < digits.length then digits.take whole ++ '.' :: digits.drop whole
      else digits ++ List.replicate (whole - digits.length) '0' ++ ['.', '0']
  else
    let fraction := match digits.drop 1 with
      | [] => []
      | rest => '.' :: rest
    let power := point - 1
    digits.take 1 ++ fraction ++ 'e' :: (if power < 0 then '-' else '+') ::
      Nat.toDigits 10 power.natAbs

end Decimal

/-- The shortest text of a number. Zero is `0.0`, with its sign. -/
def Double.text (x : Double) : String :=
  let unsigned := if x.units = 0 then ['0', '.', '0'] else
    let (digits, point) := (Decimal.shortest x.units).significant
    Decimal.layout digits point
  String.ofList (if x.negative then '-' :: unsigned else unsigned)

example : (Double.ofDecimal false 15 (-7)).text = "1.5e-6" := by decide +kernel
example : (Double.ofDecimal true 1 (-5)).text = "-0.00001" := by decide +kernel
example : (Double.ofDecimal false 9999999999999998 0).text = "9999999999999998.0" := by
  decide +kernel
example : (Double.ofDecimal false 1 16).text = "1e+16" := by decide +kernel
example : (Double.ofRatio false 1 1).text = "5e-324" := by decide +kernel

end PathQuery
