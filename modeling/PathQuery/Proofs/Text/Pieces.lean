import Mathlib.Data.List.Infix
import Mathlib.Data.List.TakeWhile
import PathQuery.Text.Blank
import PathQuery.Text.Split

/-!
# Trimmed texts and pieces

What trimming and cutting leave stands inside the text that they were given. So a trimmed text, a
piece of it and a trimmed piece have no character and no separator that the text has not.

Results:
1. `trim_trim`: a trimmed text stays as it is when it is trimmed again.
2. `not_infix_of_mem_pieces`: no piece has the separator in it.
3. `pieces_append`: a separator ends the piece before it.
4. `split_intercalate`: so parts that are joined with a separator are taken apart again.
-/

namespace PathQuery

namespace Text

variable {p : α → Bool} {xs : List α}

/-! ## Trimming -/

theorem isPrefix_dropEndWhile (p : α → Bool) (xs : List α) : dropEndWhile p xs <+: xs :=
  ⟨_, dropEndWhile_append_takeWhile p xs⟩

theorem isInfix_trimBy (p : α → Bool) (xs : List α) : trimBy p xs <:+: xs :=
  (isPrefix_dropEndWhile p _).isInfix.trans (List.dropWhile_suffix p).isInfix

/-- Neither end of what is left is to be dropped. -/
theorem ends_trimBy (p : α → Bool) (xs : List α) :
    (∀ x, (trimBy p xs).head? = some x → p x = false) ∧
    (∀ x, (trimBy p xs).getLast? = some x → p x = false) := by
  refine ⟨fun x hx => ?_, fun x hx => getLast?_dropEndWhile hx⟩
  obtain ⟨dropped, hdropped⟩ := isPrefix_dropEndWhile p (xs.dropWhile p)
  have hhead : (xs.dropWhile p).head? = some x := by
    rw [← hdropped, List.head?_append,
      show (dropEndWhile p (xs.dropWhile p)).head? = some x from hx]
    rfl
  have hnot := List.head?_dropWhile_not p xs
  rw [hhead] at hnot
  simpa using hnot

theorem trimBy_trimBy (p : α → Bool) (xs : List α) : trimBy p (trimBy p xs) = trimBy p xs :=
  trimBy_eq_self (ends_trimBy p xs).1 (ends_trimBy p xs).2

theorem dropEndWhile_eq_nil_iff : dropEndWhile p xs = [] ↔ ∀ x ∈ xs, p x = true := by
  unfold dropEndWhile
  simp only [List.reverse_eq_nil_iff, List.dropWhile_eq_nil_iff, List.mem_reverse]

/-- An end that would be dropped goes, and then the end before it. -/
theorem dropEndWhile_append (front : List α) (h : ∀ x ∈ xs, p x = true) :
    dropEndWhile p (front ++ xs) = dropEndWhile p front := by
  have hreverse : ∀ x ∈ xs.reverse, p x = true := fun x hx => h x (List.mem_reverse.1 hx)
  unfold dropEndWhile
  rw [List.reverse_append, List.dropWhile_append_of_pos hreverse]

/-- An end that is kept keeps what is before it. -/
theorem dropEndWhile_append_of_ne_nil {front : List α} (h : dropEndWhile p xs ≠ []) :
    dropEndWhile p (front ++ xs) = front ++ dropEndWhile p xs := by
  have hkept : (xs.reverse.dropWhile p).isEmpty = false := by
    rw [List.isEmpty_eq_false_iff]
    exact fun hnil => h (congrArg List.reverse hnil)
  unfold dropEndWhile
  rw [List.reverse_append, List.dropWhile_append, hkept, if_neg Bool.false_ne_true,
    List.reverse_append, List.reverse_reverse]

/-- What stands from an element on that is kept stays when the start is dropped. -/
theorem dropWhile_append_cons {x : α} (h : p x = false) (xs rest : List α) :
    (xs ++ x :: rest).dropWhile p = xs.dropWhile p ++ x :: rest := by
  induction xs with
  | nil => exact List.dropWhile_cons_of_neg (Bool.eq_false_iff.1 h)
  | cons y xs ih =>
    rw [List.cons_append, List.dropWhile_cons, List.dropWhile_cons, ih]
    split
    · rfl
    · rfl

/-- A part that would be dropped from the start goes, and then the start after it. -/
theorem trimBy_append {front : List α} (h : ∀ x ∈ front, p x = true) :
    trimBy p (front ++ xs) = trimBy p xs := by
  unfold trimBy
  rw [List.dropWhile_append_of_pos h]

/-- A part that would be dropped from the end goes, and then the end before it. -/
theorem trimBy_append_right (front : List α) (h : ∀ x ∈ xs, p x = true) :
    trimBy p (front ++ xs) = trimBy p front := by
  unfold trimBy
  rw [List.dropWhile_append]
  split
  · next hnil =>
    rw [List.dropWhile_eq_nil_iff.2 h, List.isEmpty_iff.1 hnil]
  · exact dropEndWhile_append _ h

/-- What is dropped from the end stands after what is left. -/
theorem exists_dropEndWhile_append (p : α → Bool) (xs : List α) :
    ∃ after, (∀ x ∈ after, p x = true) ∧ dropEndWhile p xs ++ after = xs :=
  ⟨_, fun x hx => List.all_eq_true.1 List.all_takeWhile x (List.mem_reverse.1 hx),
    dropEndWhile_append_takeWhile p xs⟩

theorem trimBy_dropEndWhile (p : α → Bool) (xs : List α) :
    trimBy p (dropEndWhile p xs) = trimBy p xs := by
  obtain ⟨after, hafter, hxs⟩ := exists_dropEndWhile_append p xs
  rw [← trimBy_append_right _ hafter, hxs]

/-- What is trimmed away stands before and after what is left. -/
theorem exists_append_trimBy (p : α → Bool) (xs : List α) :
    ∃ before after, (∀ x ∈ before, p x = true) ∧ (∀ x ∈ after, p x = true) ∧
      before ++ trimBy p xs ++ after = xs := by
  obtain ⟨after, hafter, hxs⟩ := exists_dropEndWhile_append p (xs.dropWhile p)
  refine ⟨xs.takeWhile p, after, List.all_eq_true.1 List.all_takeWhile, hafter, ?_⟩
  rw [trimBy, List.append_assoc, hxs, List.takeWhile_append_dropWhile]

/-- After a part that is not to be dropped at either end, only the end is trimmed. -/
theorem trimBy_append_of_ends {front : List α} (hne : front ≠ [])
    (hstart : ∀ x, front.head? = some x → p x = false)
    (hend : ∀ x, front.getLast? = some x → p x = false) (rest : List α) :
    trimBy p (front ++ rest) = front ++ dropEndWhile p rest := by
  have hkept : (front ++ rest).dropWhile p = front ++ rest := by
    obtain ⟨x, front, rfl⟩ := List.exists_cons_of_ne_nil hne
    exact List.dropWhile_cons_of_neg (Bool.eq_false_iff.1 (hstart x rfl))
  rw [trimBy, hkept]
  by_cases hrest : dropEndWhile p rest = []
  · rw [dropEndWhile_append front (dropEndWhile_eq_nil_iff.1 hrest), dropEndWhile_eq_self hend,
      hrest, List.append_nil]
  · exact dropEndWhile_append_of_ne_nil hrest

theorem trim_trim (s : String) : trim (trim s) = trim s := by
  refine String.toList_inj.1 ?_
  rw [toList_trim, toList_trim, trimBy_trimBy]

theorem ends_of_trim_eq {s : String} (h : trim s = s) :
    (∀ c, s.toList.head? = some c → isBlank c = false) ∧
    (∀ c, s.toList.getLast? = some c → isBlank c = false) := by
  have hends := ends_trimBy isBlank s.toList
  rw [← toList_trim, h] at hends
  exact hends

theorem trim_eq_self {s : String} (hstart : ∀ c, s.toList.head? = some c → isBlank c = false)
    (hend : ∀ c, s.toList.getLast? = some c → isBlank c = false) : trim s = s := by
  rw [trim, trimBy_eq_self hstart hend, String.ofList_toList]

/-- Blanks after a trimmed text are trimmed away. -/
theorem trim_append_of_isBlank {s blanks : String} (hs : trim s = s)
    (h : ∀ c ∈ blanks.toList, isBlank c = true) : trim (s ++ blanks) = s := by
  rw [trim, String.toList_append, trimBy_append_right _ h, ← toList_trim, hs,
    String.ofList_toList]

theorem isInfix_toList_trim (s : String) : (trim s).toList <:+: s.toList := by
  rw [toList_trim]
  exact isInfix_trimBy isBlank s.toList

/-! ## Pieces -/

section Pieces

variable [DecidableEq α] {separator : List α}

/-- From any point on, the first piece is a start of what has not been skipped. -/
theorem isPrefix_piecesFrom (separator : List α) (xs : List α) :
    (piecesFrom separator 0 xs).1 <+: xs := by
  induction xs with
  | nil => exact List.nil_prefix
  | cons x xs ih =>
    simp only [piecesFrom]
    split
    · exact List.nil_prefix
    · exact List.prefix_cons_inj x |>.2 ih

theorem not_infix_of_mem_piecesFrom (hseparator : separator ≠ []) (skip : Nat) (xs : List α) :
    ∀ piece ∈ (piecesFrom separator skip xs).1 :: (piecesFrom separator skip xs).2,
      ¬ separator <:+: piece := by
  have hnil : ¬ separator <:+: [] := fun h => hseparator (List.infix_nil.1 h)
  induction xs generalizing skip with
  | nil => exact List.forall_mem_singleton.2 hnil
  | cons x xs ih =>
    cases skip with
    | succ skip => exact ih skip
    | zero =>
      simp only [piecesFrom]
      split
      · exact List.forall_mem_cons.2 ⟨hnil, ih _⟩
      · next hstart =>
        obtain ⟨hfirst, hothers⟩ := List.forall_mem_cons.1 (ih 0)
        refine List.forall_mem_cons.2 ⟨fun h => ?_, hothers⟩
        rcases List.infix_cons_iff.1 h with hstarts | hinside
        · -- The piece goes on as the text does, so the text would have been cut here.
          have hpiece := (List.prefix_cons_inj x).2 (isPrefix_piecesFrom separator xs)
          exact hstart (List.isPrefixOf_iff_prefix.2 (hstarts.trans hpiece))
        · exact hfirst hinside

/-- No piece has the separator in it. -/
theorem not_infix_of_mem_pieces (hseparator : separator ≠ []) {piece : List α}
    (h : piece ∈ pieces separator xs) : ¬ separator <:+: piece := by
  unfold pieces at h
  rw [if_neg hseparator] at h
  exact not_infix_of_mem_piecesFrom hseparator 0 xs piece h

/-- Without the separator there is one piece. -/
theorem pieces_eq_singleton (hseparator : separator ≠ []) (h : ¬ separator <:+: xs) :
    pieces separator xs = [xs] := by
  have hfrom : piecesFrom separator 0 xs = (xs, []) := by
    induction xs with
    | nil => rfl
    | cons x xs ih =>
      obtain ⟨hstarts, hinside⟩ := not_or.1 (mt List.infix_cons_iff.2 h)
      rw [piecesFrom, if_neg (mt List.isPrefixOf_iff_prefix.1 hstarts), ih hinside]
  unfold pieces
  rw [if_neg hseparator, hfrom]

/-- What belongs to an occurrence that has been found is passed over. -/
theorem piecesFrom_skip (separator front rest : List α) :
    piecesFrom separator front.length (front ++ rest) = piecesFrom separator 0 rest := by
  induction front with
  | nil => rfl
  | cons x front ih => exact ih

/-- A separator ends the piece before it, unless it occurs earlier: in the piece, or across the
border to the separator. -/
theorem pieces_append (hseparator : separator ≠ []) (h : ¬ separator <:+: xs ++ separator.dropLast)
    (rest : List α) :
    pieces separator (xs ++ (separator ++ rest)) = xs :: pieces separator rest := by
  have hfrom : piecesFrom separator 0 (xs ++ (separator ++ rest)) =
      (xs, (piecesFrom separator 0 rest).1 :: (piecesFrom separator 0 rest).2) := by
    induction xs with
    | nil =>
      obtain ⟨s, more, rfl⟩ := List.exists_cons_of_ne_nil hseparator
      have hstarts : (s :: more).isPrefixOf (s :: (more ++ rest)) = true :=
        List.isPrefixOf_iff_prefix.2 ⟨rest, rfl⟩
      rw [List.nil_append, List.cons_append, piecesFrom, if_pos hstarts, List.length_cons,
        Nat.add_sub_cancel, piecesFrom_skip]
    | cons x xs ih =>
      rw [List.cons_append, List.infix_cons_iff, not_or] at h
      obtain ⟨hstarts, hinside⟩ := h
      -- A start that is the separator would end before the last character of the one that is there.
      have hstart : ¬ separator <+: x :: (xs ++ (separator ++ rest)) := by
        intro hprefix
        have hlast : x :: (xs ++ separator.dropLast) <+: x :: (xs ++ (separator ++ rest)) :=
          (List.prefix_cons_inj x).2 ((List.prefix_append_right_inj xs).2
            ((List.dropLast_prefix separator).trans (List.prefix_append separator rest)))
        refine hstarts (List.prefix_of_prefix_length_le hprefix hlast ?_)
        rw [List.length_cons, List.length_append, List.length_dropLast]
        omega
      rw [List.cons_append, piecesFrom, if_neg (mt List.isPrefixOf_iff_prefix.1 hstart), ih hinside]
  unfold pieces
  rw [if_neg hseparator, if_neg hseparator, hfrom]

end Pieces

theorem split_eq_singleton {separator text : String} (hseparator : separator ≠ "")
    (h : ¬ separator.toList <:+: text.toList) : split separator text = [text] := by
  unfold split
  rw [pieces_eq_singleton (mt String.toList_eq_nil_iff.1 hseparator) h, List.map_singleton,
    String.ofList_toList]

/-- The pieces joined with the separator are the text. -/
theorem intercalate_split {separator : String} (hseparator : separator ≠ "") (text : String) :
    separator.intercalate (split separator text) = text := by
  have hpieces := intercalate_pieces (mt String.toList_eq_nil_iff.1 hseparator) text.toList
  have hlists : (split separator text).map String.toList = pieces separator.toList text.toList := by
    simp [split, Function.comp_def]
  refine String.toList_inj.1 ?_
  rw [String.toList_intercalate, hlists, hpieces]

theorem split_append {separator text : String} (hseparator : separator ≠ "")
    (h : ¬ separator.toList <:+: text.toList ++ separator.toList.dropLast) (rest : String) :
    split separator (text ++ separator ++ rest) = text :: split separator rest := by
  unfold split
  rw [String.toList_append, String.toList_append, List.append_assoc,
    pieces_append (mt String.toList_eq_nil_iff.1 hseparator) h, List.map_cons, String.ofList_toList]

theorem not_infix_of_mem_split {separator text piece : String} (hseparator : separator ≠ "")
    (h : piece ∈ split separator text) : ¬ separator.toList <:+: piece.toList := by
  obtain ⟨cs, hcs, rfl⟩ := List.mem_map.1 h
  rw [String.toList_ofList]
  exact not_infix_of_mem_pieces (mt String.toList_eq_nil_iff.1 hseparator) hcs

/-- A separator of two characters stands in one of two lists, or across their border. -/
theorem pair_infix_append_iff {a b : α} {front back : List α} :
    [a, b] <:+: front ++ back ↔ [a, b] <:+: front ∨ [a, b] <:+: back ∨
      (front.getLast? = some a ∧ back.head? = some b) := by
  rw [List.infix_append_iff, ← List.singleton_suffix_iff_getLast?_eq_some,
    ← List.singleton_prefix_iff_head?_eq_some]
  constructor
  · rintro (hfront | hback | ⟨first, second, heq, hfirst, hsecond⟩)
    · exact .inl hfront
    · exact .inr (.inl hback)
    · match first, second with
      | [], _ => exact .inr (.inl (heq ▸ hsecond.isInfix))
      | [_], _ =>
        obtain ⟨rfl, rfl⟩ := List.cons.inj heq
        exact .inr (.inr ⟨hfirst, hsecond⟩)
      | [_, _], [] => exact .inl (heq ▸ hfirst.isInfix)
  · rintro (hfront | hback | ⟨hfirst, hsecond⟩)
    · exact .inl hfront
    · exact .inr (.inl hback)
    · exact .inr (.inr ⟨[a], [b], rfl, hfirst, hsecond⟩)

end Text

end PathQuery
