import Mathlib.Data.List.Induction
import PathQuery.Text.Blank
import PathQuery.Text.Split

/-!
# Numerals

A number is written with its decimal digits, and zeros before them do not change it. Digits are
numerals and nothing else is, which is an induction from the last digit: a digit after a numeral is
one more digit of the number, unless there have been only zeros so far.

Results:
1. `isNumeral_iff`: numerals are digits, at least one, that spell the number.
2. `position?_eq_some_iff`: a text spells a position below `2 ^ 64` if it is a numeral, after a plus
   sign or not.
3. `position?_toString`: so a position is read from its decimal digits.
-/

namespace PathQuery.Text

/-! ## Letters and digits -/

theorem toNat_of_isAlphanum {c : Char} (h : c.isAlphanum = true) :
    (48 ≤ c.toNat ∧ c.toNat ≤ 57) ∨ (65 ≤ c.toNat ∧ c.toNat ≤ 90) ∨
      (97 ≤ c.toNat ∧ c.toNat ≤ 122) := by
  rcases Bool.or_eq_true_iff.1 h with hletter | hdigit
  · rcases Bool.or_eq_true_iff.1 hletter with hupper | hlower
    · have hrange : 65 ≤ c.toNat ∧ c.toNat ≤ 90 := of_decide_eq_true hupper
      exact .inr (.inl hrange)
    · obtain ⟨hleast, hgreatest⟩ := Bool.and_eq_true_iff.1 hlower
      have hrange : 97 ≤ c.toNat ∧ c.toNat ≤ 122 :=
        ⟨of_decide_eq_true hleast, of_decide_eq_true hgreatest⟩
      exact .inr (.inr hrange)
  · exact .inl (Char.isDigit_iff_toNat.1 hdigit)

/-- A character that is no letter or digit is none of those. -/
theorem ne_of_isAlphanum {c d : Char} (h : c.isAlphanum = true) (hd : d.isAlphanum = false) :
    c ≠ d := by
  rintro rfl
  rw [h] at hd
  cases hd

/-- The characters between the blank and the delete character are no blanks. -/
theorem isBlank_eq_false {c : Char} (h : 32 < c.toNat ∧ c.toNat < 127) : isBlank c = false := by
  simp only [isBlank, Bool.or_eq_false_iff, Bool.and_eq_false_iff, decide_eq_false_iff_not,
    beq_eq_false_iff_ne]
  omega

theorem isBlank_of_isAlphanum {c : Char} (h : c.isAlphanum = true) : isBlank c = false := by
  have hrange := toNat_of_isAlphanum h
  exact isBlank_eq_false (by omega)

theorem isAlphanum_of_isDigit {c : Char} (h : c.isDigit = true) : c.isAlphanum = true := by
  unfold Char.isAlphanum
  rw [h, Bool.or_true]

/-- A digit stands for a number below ten. -/
theorem exists_digitChar {c : Char} (h : c.isDigit = true) : ∃ d < 10, c = Nat.digitChar d := by
  have hrange : 48 ≤ c.toNat ∧ c.toNat ≤ 57 := Char.isDigit_iff_toNat.1 h
  have hlt : c.toNat - 48 < 10 := by omega
  refine ⟨c.toNat - 48, hlt, Char.toNat_inj.1 ?_⟩
  rw [Nat.toNat_digitChar_of_lt_ten hlt]
  omega

/-! ## The decimal digits of a number -/

theorem toList_toString (k : Nat) : (toString k).toList = Nat.toDigits 10 k := by
  rw [Nat.toString_eq_ofList_toDigits, String.toList_ofList]

theorem isDigit_of_mem_toString {k : Nat} {c : Char} (h : c ∈ (toString k).toList) :
    c.isDigit = true := by
  rw [toList_toString] at h
  exact Nat.isDigit_of_mem_toDigits (by decide) (by decide) h

theorem exists_cons_toString (k : Nat) : ∃ c rest, (toString k).toList = c :: rest := by
  rw [toList_toString]
  exact List.exists_cons_of_ne_nil Nat.toDigits_ne_nil

theorem digitsValue_toString (k : Nat) : digitsValue (toString k).toList = k := by
  rw [toList_toString, digitsValue, ← Nat.ofDigitChars_eq_foldl, Nat.ofDigitChars_ten_toDigits]

theorem trim_toString (k : Nat) : trim (toString k) = toString k := by
  have hblank (c : Char) (h : c ∈ (toString k).toList) : isBlank c = false :=
    isBlank_of_isAlphanum (isAlphanum_of_isDigit (isDigit_of_mem_toString h))
  unfold trim
  rw [trimBy_eq_self (fun c hc => hblank c (List.mem_of_head? hc))
    (fun c hc => hblank c (List.mem_of_getLast? hc)), String.ofList_toList]

/-! ## Numerals -/

/-- Characters that write a number: its decimal digits, after any number of zeros. -/
def IsNumeral (n : Nat) (cs : List Char) : Prop :=
  ∃ zeros, cs = List.replicate zeros '0' ++ (toString n).toList

theorem isNumeral_toString (n : Nat) : IsNumeral n (toString n).toList := ⟨0, rfl⟩

theorem digitsValue_concat (cs : List Char) {d : Nat} (hd : d < 10) :
    digitsValue (cs ++ [Nat.digitChar d]) = 10 * digitsValue cs + d := by
  unfold digitsValue
  rw [List.foldl_append]
  show 10 * _ + (d.digitChar.toNat - 48) = _
  rw [Nat.toNat_digitChar_sub_48_of_lt_ten hd]

/-- Zeros before a number do not change it. -/
theorem digitsValue_replicate_append (zeros : Nat) (cs : List Char) :
    digitsValue (List.replicate zeros '0' ++ cs) = digitsValue cs := by
  unfold digitsValue
  rw [← Nat.ofDigitChars_eq_foldl, ← Nat.ofDigitChars_eq_foldl, Nat.ofDigitChars_append,
    Nat.ofDigitChars_replicate_zero, Nat.mul_zero]

/-- A digit after a numeral is one more digit of the number. After zeros alone, it is the first. -/
theorem IsNumeral.concat {n d : Nat} {cs : List Char} (h : IsNumeral n cs) (hd : d < 10) :
    IsNumeral (10 * n + d) (cs ++ [Nat.digitChar d]) := by
  obtain ⟨zeros, rfl⟩ := h
  unfold IsNumeral
  simp only [toList_toString]
  rcases Nat.eq_zero_or_pos n with rfl | hpos
  · refine ⟨zeros + 1, ?_⟩
    rw [Nat.toDigits_zero, Nat.mul_zero, Nat.zero_add, Nat.toDigits_of_lt_base hd,
      List.replicate_succ']
  · refine ⟨zeros, ?_⟩
    rw [← Nat.toDigits_append_toDigits (by decide) hpos hd, Nat.toDigits_of_lt_base hd,
      List.append_assoc]

/-- Digits write the number that they spell. -/
theorem isNumeral_digitsValue {cs : List Char} (hne : cs ≠ []) (h : ∀ c ∈ cs, c.isDigit = true) :
    IsNumeral (digitsValue cs) cs := by
  induction cs using List.reverseRecOn with
  | nil => exact absurd rfl hne
  | append_singleton cs c ih =>
    obtain ⟨d, hd, rfl⟩ := exists_digitChar (h c (List.mem_append_right _ List.mem_cons_self))
    rw [digitsValue_concat cs hd]
    by_cases hcs : cs = []
    · subst hcs
      refine ⟨0, ?_⟩
      rw [toList_toString, show 10 * digitsValue [] + d = d from Nat.zero_add d,
        Nat.toDigits_of_lt_base hd]
      rfl
    · exact (ih hcs fun c hc => h c (List.mem_append_left _ hc)).concat hd

theorem isNumeral_iff {n : Nat} {cs : List Char} :
    IsNumeral n cs ↔ cs ≠ [] ∧ (∀ c ∈ cs, c.isDigit = true) ∧ digitsValue cs = n := by
  constructor
  · rintro ⟨zeros, rfl⟩
    refine ⟨?_, ?_, ?_⟩
    · obtain ⟨c, rest, hdigits⟩ := exists_cons_toString n
      exact List.append_ne_nil_of_right_ne_nil _ (hdigits ▸ List.cons_ne_nil c rest)
    · intro c hc
      rcases List.mem_append.1 hc with hzero | hdigit
      · exact List.eq_of_mem_replicate hzero ▸ rfl
      · exact isDigit_of_mem_toString hdigit
    · rw [digitsValue_replicate_append, digitsValue_toString]
  · rintro ⟨hne, hdigits, rfl⟩
    exact isNumeral_digitsValue hne hdigits

/-! ## Positions -/

/-- The digits of a position are the text, or what follows a plus sign. -/
theorem positionDigits?_eq_some_iff {cs digits : List Char} :
    positionDigits? cs = some digits ↔
      (cs = digits ∨ cs = '+' :: digits) ∧ digits ≠ [] ∧ ∀ c ∈ digits, c.isDigit = true := by
  have hdigits {cs : List Char} : (if cs ≠ [] ∧ cs.all Char.isDigit then some cs else none) =
      some digits ↔ cs = digits ∧ digits ≠ [] ∧ ∀ c ∈ digits, c.isDigit = true := by
    rw [Option.ite_none_right_eq_some, Option.some.injEq, List.all_eq_true, and_comm]
    refine and_congr_right ?_
    rintro rfl
    rfl
  unfold positionDigits?
  split
  · next rest =>
    rw [hdigits, List.cons_inj_right]
    refine and_congr_left fun h => (or_iff_right ?_).symm
    rintro rfl
    exact Bool.false_ne_true (h.2 '+' List.mem_cons_self)
  · next hplus =>
    rw [hdigits]
    exact and_congr_left fun _ => (or_iff_left (hplus digits)).symm

/-- A text spells a position below `2 ^ 64` if it is a numeral, after a plus sign or not. -/
theorem position?_eq_some_iff {text : String} {n : Nat} :
    position? text = some n ↔ n < UInt64.size ∧
      ∃ digits, (text.toList = digits ∨ text.toList = '+' :: digits) ∧ IsNumeral n digits := by
  unfold position?
  simp only [Option.bind_eq_bind, Option.bind_eq_some_iff, positionDigits?_eq_some_iff,
    Option.ite_none_right_eq_some, Option.some.injEq, isNumeral_iff]
  constructor
  · rintro ⟨digits, ⟨hsign, hdigits⟩, hlt, rfl⟩
    exact ⟨hlt, digits, hsign, hdigits.1, hdigits.2, rfl⟩
  · rintro ⟨hlt, digits, hsign, hne, hdigits, rfl⟩
    exact ⟨digits, ⟨hsign, hne, hdigits⟩, hlt, rfl⟩

/-- Without a plus sign, a text spells a position if it is a numeral. -/
theorem position?_ofList_eq_some_iff {cs : List Char} {n : Nat} (h : '+' ∉ cs) :
    position? (String.ofList cs) = some n ↔ n < UInt64.size ∧ IsNumeral n cs := by
  rw [position?_eq_some_iff, String.toList_ofList]
  refine and_congr_right fun _ => ⟨?_, fun hcs => ⟨cs, .inl rfl, hcs⟩⟩
  rintro ⟨digits, rfl | rfl, hdigits⟩
  · exact hdigits
  · exact absurd List.mem_cons_self h

/-- The decimal digits of a position spell it. -/
theorem position?_toString {k : Nat} (hk : k < UInt64.size) : position? (toString k) = some k :=
  position?_eq_some_iff.2 ⟨hk, _, .inl rfl, isNumeral_toString k⟩

end PathQuery.Text
