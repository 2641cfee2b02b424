/-!
# Blank characters and trimming

A character is blank when it has the Unicode property `White_Space`. Texts are trimmed of blanks
at either end.

* `trimBy` is the one trimming function, over lists. What it leaves does not end in an element to
  drop (`getLast?_dropEndWhile`), and it leaves alone a list that has none at either end
  (`trimBy_eq_self`).
* `trim`, `trimStart` and `trimEnd` are its instances on strings.
-/

namespace PathQuery.Text

/-! ## Blanks -/

/-- The 25 characters of the Unicode property `White_Space`. -/
def isBlank (c : Char) : Bool :=
  let n := c.toNat
  (0x09 ≤ n && n ≤ 0x0D) || n == 0x20 || n == 0x85 || n == 0xA0 || n == 0x1680 ||
  (0x2000 ≤ n && n ≤ 0x200A) || n == 0x2028 || n == 0x2029 || n == 0x202F || n == 0x205F ||
  n == 0x3000

example : isBlank '\u3000' = true ∧ isBlank '\u200b' = false ∧ isBlank '\ufeff' = false := by decide

/-! ## Trimming lists -/

/-- `xs` without the longest run of elements at its end that satisfy `p`. -/
def dropEndWhile (p : α → Bool) (xs : List α) : List α :=
  (xs.reverse.dropWhile p).reverse

/-- `xs` without the runs at both ends that satisfy `p`. -/
def trimBy (p : α → Bool) (xs : List α) : List α :=
  dropEndWhile p (xs.dropWhile p)

@[simp] theorem dropEndWhile_nil (p : α → Bool) : dropEndWhile p [] = [] := rfl

@[simp] theorem trimBy_nil (p : α → Bool) : trimBy p [] = [] := rfl

/-- The last element left is not one to drop. -/
theorem getLast?_dropEndWhile {p : α → Bool} {xs : List α} {x : α}
    (h : (dropEndWhile p xs).getLast? = some x) : p x = false := by
  have hx := List.head?_dropWhile_not p xs.reverse
  simp only [dropEndWhile, List.getLast?_reverse] at h
  simpa [h] using hx

/-- What is left is a start of the list. -/
theorem dropEndWhile_append_takeWhile (p : α → Bool) (xs : List α) :
    dropEndWhile p xs ++ (xs.reverse.takeWhile p).reverse = xs := by
  rw [dropEndWhile, ← List.reverse_append, List.takeWhile_append_dropWhile, List.reverse_reverse]

theorem length_dropEndWhile_le (p : α → Bool) (xs : List α) :
    (dropEndWhile p xs).length ≤ xs.length := by
  have h := congrArg List.length (dropEndWhile_append_takeWhile p xs)
  rw [List.length_append] at h
  omega

theorem length_trimBy_le (p : α → Bool) (xs : List α) : (trimBy p xs).length ≤ xs.length :=
  Nat.le_trans (length_dropEndWhile_le p _) (List.dropWhile_sublist p).length_le

theorem dropEndWhile_eq_self {p : α → Bool} {xs : List α}
    (h : ∀ x, xs.getLast? = some x → p x = false) : dropEndWhile p xs = xs := by
  have hd : xs.reverse.dropWhile p = xs.reverse := by
    cases hr : xs.reverse with
    | nil => rfl
    | cons y ys =>
      have hy : p y = false := h y (by rw [← List.head?_reverse, hr]; rfl)
      simp [hy]
  rw [dropEndWhile, hd, List.reverse_reverse]

/-- A list with nothing to drop at either end is left as it is. -/
theorem trimBy_eq_self {p : α → Bool} {xs : List α}
    (hstart : ∀ x, xs.head? = some x → p x = false)
    (hend : ∀ x, xs.getLast? = some x → p x = false) : trimBy p xs = xs := by
  have hd : xs.dropWhile p = xs := by
    cases xs with
    | nil => rfl
    | cons y ys => simp [hstart y rfl]
  rw [trimBy, hd, dropEndWhile_eq_self hend]

/-! ## Trimming texts -/

/-- The text without the blanks at its start. -/
def trimStart (s : String) : String := String.ofList (s.toList.dropWhile isBlank)

/-- The text without the blanks at its end. -/
def trimEnd (s : String) : String := String.ofList (dropEndWhile isBlank s.toList)

/-- The text without the blanks at both ends. -/
def trim (s : String) : String := String.ofList (trimBy isBlank s.toList)

@[simp] theorem toList_trimStart (s : String) :
    (trimStart s).toList = s.toList.dropWhile isBlank := String.toList_ofList

@[simp] theorem toList_trimEnd (s : String) :
    (trimEnd s).toList = dropEndWhile isBlank s.toList := String.toList_ofList

@[simp] theorem toList_trim (s : String) : (trim s).toList = trimBy isBlank s.toList :=
  String.toList_ofList

example : trim " \ta b\n" = "a b" := by decide

end PathQuery.Text
