/-!
# Taking texts apart

Each function has a list form, which recurses on the characters, and a form on strings.

* `afterPrefix?` and `beforeSuffix?` remove a text at one end (`afterPrefix?_eq_some_iff`,
  `beforeSuffix?_eq_some_iff`).
* `cutAt?` cuts at the first occurrence of one character, which it drops (`cutAt?_eq_some_iff`).
* `split` cuts at every occurrence of a separator, found from left to right without overlaps.
  Joining the pieces with the separator gives the text back (`intercalate_pieces`).

Decimal digits spell a number. `position?` reads digits after an optional plus sign, as positions
and bounds are written, if the number lies below `2 ^ 64`.
-/

namespace PathQuery.Text

/-! ## Ends -/

/-- What follows `start` in `xs`, if `xs` begins with it. -/
def dropStart? [DecidableEq α] : (start xs : List α) → Option (List α)
  | [], xs => some xs
  | _ :: _, [] => none
  | a :: start, x :: xs => if a = x then dropStart? start xs else none

theorem dropStart?_eq_some_iff [DecidableEq α] {start xs rest : List α} :
    dropStart? start xs = some rest ↔ xs = start ++ rest := by
  induction start generalizing xs with
  | nil => simp [dropStart?]
  | cons a start ih =>
    cases xs with
    | nil => simp [dropStart?]
    | cons x xs =>
      by_cases h : a = x
      · simp [dropStart?, h, ih]
      · simp [dropStart?, h, Ne.symm h]

/-- What precedes `finish` in `xs`, if `xs` ends with it. -/
def dropFinish? [DecidableEq α] (finish xs : List α) : Option (List α) :=
  (dropStart? finish.reverse xs.reverse).map List.reverse

theorem dropFinish?_eq_some_iff [DecidableEq α] {finish xs rest : List α} :
    dropFinish? finish xs = some rest ↔ xs = rest ++ finish := by
  simp only [dropFinish?, Option.map_eq_some_iff, dropStart?_eq_some_iff]
  constructor
  · rintro ⟨r, hr, rfl⟩
    have := congrArg List.reverse hr
    simpa using this
  · rintro rfl
    exact ⟨rest.reverse, by simp, by simp⟩

/-- The text after `start`, if `s` begins with it. -/
def afterPrefix? (start s : String) : Option String :=
  (dropStart? start.toList s.toList).map String.ofList

/-- The text before `finish`, if `s` ends with it. -/
def beforeSuffix? (finish s : String) : Option String :=
  (dropFinish? finish.toList s.toList).map String.ofList

theorem afterPrefix?_eq_some_iff {start s rest : String} :
    afterPrefix? start s = some rest ↔ s = start ++ rest := by
  simp only [afterPrefix?, Option.map_eq_some_iff, dropStart?_eq_some_iff]
  constructor
  · rintro ⟨r, hr, rfl⟩
    exact String.toList_inj.1 (by simp [hr])
  · rintro rfl
    exact ⟨rest.toList, by simp, by simp⟩

theorem beforeSuffix?_eq_some_iff {finish s rest : String} :
    beforeSuffix? finish s = some rest ↔ s = rest ++ finish := by
  simp only [beforeSuffix?, Option.map_eq_some_iff, dropFinish?_eq_some_iff]
  constructor
  · rintro ⟨r, hr, rfl⟩
    exact String.toList_inj.1 (by simp [hr])
  · rintro rfl
    exact ⟨rest.toList, by simp, by simp⟩

/-! ## One cut -/

/-- The lists before and after the first `c` in `xs`. -/
def cutAtFirst? [DecidableEq α] (c : α) : List α → Option (List α × List α)
  | [] => none
  | x :: xs =>
    if x = c then some ([], xs)
    else (cutAtFirst? c xs).map fun (before, after) => (x :: before, after)

theorem cutAtFirst?_eq_some_iff [DecidableEq α] {c : α} {xs before after : List α} :
    cutAtFirst? c xs = some (before, after) ↔ xs = before ++ c :: after ∧ c ∉ before := by
  induction xs generalizing before with
  | nil => simp [cutAtFirst?]
  | cons x xs ih =>
    by_cases h : x = c
    · subst h
      cases before with
      | nil => simp [cutAtFirst?, eq_comm]
      | cons b before =>
        simp only [cutAtFirst?, ↓reduceIte, Option.some.injEq, Prod.mk.injEq, List.nil_eq,
          reduceCtorEq, false_and, List.cons_append, List.cons.injEq, List.mem_cons, not_or,
          false_iff, not_and]
        intro hb
        exact fun hn => absurd hb.1 hn
    · cases before with
      | nil => simp [cutAtFirst?, h]
      | cons b before =>
        simp only [cutAtFirst?, h, ↓reduceIte, Option.map_eq_some_iff, Prod.exists, Prod.mk.injEq,
          List.cons.injEq, List.cons_append, List.mem_cons, not_or]
        constructor
        · rintro ⟨before', after', hcut, ⟨rfl, rfl⟩, rfl⟩
          obtain ⟨hxs, hc⟩ := ih.1 hcut
          exact ⟨⟨rfl, hxs⟩, Ne.symm h, hc⟩
        · rintro ⟨⟨rfl, hxs⟩, _, hc⟩
          exact ⟨before, after, ih.2 ⟨hxs, hc⟩, ⟨rfl, rfl⟩, rfl⟩

/-- The texts before and after the first `c` in `s`. -/
def cutAt? (c : Char) (s : String) : Option (String × String) :=
  (cutAtFirst? c s.toList).map fun (before, after) => (String.ofList before, String.ofList after)

theorem cutAt?_eq_some_iff {c : Char} {s before after : String} :
    cutAt? c s = some (before, after) ↔
      s.toList = before.toList ++ c :: after.toList ∧ c ∉ before.toList := by
  rw [cutAt?, Option.map_eq_some_iff, ← cutAtFirst?_eq_some_iff]
  constructor
  · rintro ⟨⟨front, back⟩, hcut, hparts⟩
    obtain ⟨rfl, rfl⟩ := Prod.mk.inj hparts
    rw [hcut, String.toList_ofList, String.toList_ofList]
  · intro hcut
    exact ⟨_, hcut, Prod.ext String.ofList_toList String.ofList_toList⟩

theorem cutAt?_eq_none_iff {c : Char} {s : String} : cutAt? c s = none ↔ c ∉ s.toList := by
  constructor
  · intro hcut hmem
    obtain ⟨before, after, hs, hbefore⟩ := List.eq_append_cons_of_mem hmem
    rw [cutAt?, cutAtFirst?_eq_some_iff.2 ⟨hs, hbefore⟩] at hcut
    cases hcut
  · intro hnot
    refine Option.eq_none_iff_forall_ne_some.2 fun parts hcut => hnot ?_
    rw [(cutAt?_eq_some_iff.1 hcut).1]
    exact List.mem_append_right _ List.mem_cons_self

/-! ## Every cut -/

/-- The pieces of `xs` between the occurrences of a non-empty `separator`: the first piece and the
others. The first `skip` elements belong to an occurrence that has been found already. -/
def piecesFrom [DecidableEq α] (separator : List α) (skip : Nat) : List α → List α × List (List α)
  | [] => ([], [])
  | x :: xs =>
    match skip with
    | skip + 1 => piecesFrom separator skip xs
    | 0 =>
      if separator.isPrefixOf (x :: xs) then
        let (piece, others) := piecesFrom separator (separator.length - 1) xs
        ([], piece :: others)
      else
        let (piece, others) := piecesFrom separator 0 xs
        (x :: piece, others)

/-- The pieces of `xs` between the occurrences of `separator`. The empty separator occurs before
and after every element. -/
def pieces [DecidableEq α] (separator xs : List α) : List (List α) :=
  if separator = [] then [] :: (xs.map fun x => [x]) ++ [[]]
  else
    let (piece, others) := piecesFrom separator 0 xs
    piece :: others

/-- From any point on, the pieces joined with the separator are what has not been skipped. -/
theorem intercalate_piecesFrom [DecidableEq α] {separator : List α} (hs : separator ≠ [])
    (skip : Nat) (xs : List α) (hskip : skip ≤ xs.length) :
    separator.intercalate ((piecesFrom separator skip xs).1 :: (piecesFrom separator skip xs).2) =
      xs.drop skip := by
  induction xs generalizing skip with
  | nil => simp [piecesFrom, List.intercalate]
  | cons x xs ih =>
    cases skip with
    | succ skip => simpa [piecesFrom] using ih skip (by simpa using hskip)
    | zero =>
      simp only [piecesFrom]
      split
      · next hp =>
        obtain ⟨rest, hrest⟩ := List.isPrefixOf_iff_prefix.1 hp
        have hlen : separator.length ≤ xs.length + 1 := by
          have := congrArg List.length hrest
          simp at this
          omega
        have := ih (separator.length - 1) (by omega)
        simp only [List.intercalate_cons_cons, List.nil_append, List.drop_zero, this]
        cases separator with
        | nil => exact absurd rfl hs
        | cons s separator =>
          simp only [List.cons_append, List.cons.injEq] at hrest
          simp [← hrest.2, hrest.1]
      · have := ih 0 (Nat.zero_le _)
        generalize hq : piecesFrom separator 0 xs = q at *
        obtain ⟨piece, others⟩ := q
        cases others <;> simp_all [List.intercalate]

/-- Joining the pieces with the separator gives the list back. -/
theorem intercalate_pieces [DecidableEq α] {separator : List α} (hs : separator ≠ [])
    (xs : List α) : separator.intercalate (pieces separator xs) = xs := by
  have h := intercalate_piecesFrom hs 0 xs (Nat.zero_le _)
  simpa [pieces, hs] using h

/-- The pieces of `text` between the occurrences of `separator`. -/
def split (separator text : String) : List String :=
  (pieces separator.toList text.toList).map String.ofList

example : split "||" "a|||b" = ["a", "|b"] := by decide
example : split "." "" = [""] ∧ split "." ".." = ["", "", ""] := by decide
example : split "" "ab" = ["", "a", "b", ""] := by decide

/-! ## Numbers -/

def digitsValue (digits : List Char) : Nat :=
  digits.foldl (fun n c => 10 * n + (c.toNat - '0'.toNat)) 0

/-- The digits of a position: at least one, after an optional plus sign. -/
def positionDigits? : List Char → Option (List Char)
  | '+' :: cs => if cs ≠ [] ∧ cs.all Char.isDigit then some cs else none
  | cs => if cs ≠ [] ∧ cs.all Char.isDigit then some cs else none

/-- The position that a text spells, if it is below `2 ^ 64`. -/
def position? (text : String) : Option Nat := do
  let n := digitsValue (← positionDigits? text.toList)
  if n < UInt64.size then some n else none

example : position? "+007" = some 7 ∧ position? "" = none ∧ position? "-1" = none := by decide
example : position? "18446744073709551615" = some (UInt64.size - 1) ∧
    position? "18446744073709551616" = none := by decide

end PathQuery.Text
