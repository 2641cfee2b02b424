import PathQuery.Reduction

/-!
# Substrings of substrings

A substring is a part of the text of another expression. A part of a part is a part of the whole
text, so two levels of substrings can be told as one, with the bounds added up. Each level counts
characters in the text of the level inside it, and it is only that text which has to be long enough.

Without a match there is no text to count in: every substring is null then, also one of
`countMatches`, which is a number by itself (`substring_of_no_match`).

Results:
1. `cut_eq_ok_iff`: what is cut out of a text, and when nothing is.
2. `IsPart.trans`, `IsPart.exists_between`: parts of parts.
3. `evaluate_substring`: one level of an expression.
4. `exists_evaluate_substring_iff`, `exists_evaluate_append`: bounds in a text, and cuts of it.
5. `substring_of_substring`: nested substrings, bounds, and what becomes of null and of errors.
-/

namespace PathQuery.Reduction

/-! ## Parts of a text -/

/-- `part` stands in `text` from `start` on and before `stop`, which is the end if not given. -/
def IsPart (start : Nat) (stop : Option Nat) (text part : String) : Prop :=
  ∃ before after : String, text = before ++ part ++ after ∧ before.length = start ∧
    start + part.length = stop.getD text.length

theorem IsPart.bounds {start : Nat} {stop : Option Nat} {text part : String}
    (h : IsPart start stop text part) :
    start ≤ stop.getD text.length ∧ stop.getD text.length ≤ text.length := by
  obtain ⟨before, after, rfl, rfl, hpart⟩ := h
  rw [← hpart, String.length_append, String.length_append]
  omega

theorem IsPart.length_eq {start stop : Nat} {text part : String}
    (h : IsPart start (some stop) text part) : part.length = stop - start := by
  obtain ⟨-, -, -, -, hpart⟩ := h
  have : start + part.length = stop := hpart
  omega

/-- A part is what is cut out of its text. -/
theorem IsPart.cut_eq {start : Nat} {stop : Option Nat} {text part : String}
    (h : IsPart start stop text part) : cut start stop text = .ok part := by
  have hbounds := h.bounds
  obtain ⟨before, after, rfl, rfl, hpart⟩ := h
  unfold cut
  simp only
  rw [if_pos hbounds, ← hpart]
  refine congrArg Except.ok (String.toList_inj.1 ?_)
  simp only [String.toList_ofList, String.toList_append, ← String.length_toList]
  rw [List.append_assoc, List.take_length_add_append, List.drop_left, List.take_left]

/-- Between bounds in the text there is a part. -/
theorem exists_isPart {start : Nat} {stop : Option Nat} {text : String}
    (hstart : start ≤ stop.getD text.length) (hstop : stop.getD text.length ≤ text.length) :
    ∃ part, IsPart start stop text part := by
  generalize hfinish : stop.getD text.length = finish at hstart hstop
  rw [← String.length_toList] at hstop
  refine ⟨String.ofList ((text.toList.take finish).drop start),
    String.ofList (text.toList.take start), String.ofList (text.toList.drop finish), ?_, ?_, ?_⟩
  · have hstarts : text.toList.take start = (text.toList.take finish).take start := by
      rw [List.take_take, Nat.min_eq_left hstart]
    refine String.toList_inj.1 ?_
    simp only [String.toList_append, String.toList_ofList]
    rw [hstarts, List.take_append_drop, List.take_append_drop]
  · rw [String.length_ofList, List.length_take]
    omega
  · rw [hfinish, String.length_ofList, List.length_drop, List.length_take]
    omega

/-- Every point in a text cuts it into the part before it and the part from there on. -/
theorem exists_isPart_append {middle : Nat} {text : String} (h : middle ≤ text.length) :
    ∃ front back, IsPart 0 (some middle) text front ∧ IsPart middle none text back ∧
      front ++ back = text := by
  obtain ⟨front, hfront⟩ : ∃ front, IsPart 0 (some middle) text front :=
    exists_isPart (Nat.zero_le _) h
  have hwhole := hfront
  obtain ⟨before, after, htext, hbefore, hlength⟩ := hfront
  obtain rfl : before = "" := String.length_eq_zero_iff.1 hbefore
  have hfront : front.length = middle := (Nat.zero_add _).symm.trans hlength
  rw [String.empty_append] at htext
  subst htext
  refine ⟨front, after, hwhole, ⟨front, "", ?_, hfront, ?_⟩, rfl⟩
  · exact (String.append_empty).symm
  · rw [Option.getD_none, String.length_append, hfront]

/-- A text is cut exactly at its parts. -/
theorem cut_eq_ok_iff {start : Nat} {stop : Option Nat} {text part : String} :
    cut start stop text = .ok part ↔ IsPart start stop text part := by
  refine ⟨fun h => ?_, IsPart.cut_eq⟩
  by_cases hbounds : start ≤ stop.getD text.length ∧ stop.getD text.length ≤ text.length
  · obtain ⟨own, hown⟩ := exists_isPart hbounds.1 hbounds.2
    obtain rfl : own = part := Except.ok.inj (hown.cut_eq.symm.trans h)
    exact hown
  · unfold cut at h
    simp only [if_neg hbounds] at h
    cases h

/-- A part of a part is a part of the whole text. Without an end of its own it ends where the outer
one does. -/
theorem IsPart.trans {start start' : Nat} {stop stop' : Option Nat} {text middle part : String}
    (h : IsPart start stop text middle) (h' : IsPart start' stop' middle part) :
    IsPart (start + start') ((stop'.map (start + ·)).or stop) text part := by
  obtain ⟨before, after, rfl, rfl, hmiddle⟩ := h
  obtain ⟨before', after', rfl, rfl, hpart⟩ := h'
  refine ⟨before ++ before', after' ++ after, by simp only [String.append_assoc],
    String.length_append _ _, ?_⟩
  cases stop' with
  | some stop' =>
    show before.length + before'.length + part.length = before.length + stop'
    have : before'.length + part.length = stop' := hpart
    omega
  | none =>
    have : before'.length + part.length = (before' ++ part ++ after').length := hpart
    show before.length + before'.length + part.length = stop.getD _
    omega

/-- A part that starts behind a point of the text is a part of the rest from there. -/
theorem IsPart.exists_between {start start' : Nat} {stop' : Option Nat} {text part : String}
    (h : IsPart (start + start') (stop'.map (start + ·)) text part) :
    ∃ rest, IsPart start none text rest ∧ IsPart start' stop' rest part := by
  obtain ⟨before, after, rfl, hbefore, hpart⟩ := h
  -- The point lies in what stands before the part, which it cuts into two.
  obtain ⟨front, back, rfl, hfront⟩ : ∃ front back : String,
      before = front ++ back ∧ front.length = start := by
    refine ⟨String.ofList (before.toList.take start), String.ofList (before.toList.drop start),
      ?_, ?_⟩
    · rw [← String.ofList_append, List.take_append_drop, String.ofList_toList]
    · rw [String.length_ofList, List.length_take, String.length_toList]
      omega
  rw [String.length_append] at hbefore
  refine ⟨back ++ part ++ after, ⟨front, "", ?_, hfront, ?_⟩, ⟨back, after, rfl, by omega, ?_⟩⟩
  · simp only [String.append_assoc, String.append_empty]
  · simp only [Option.getD_none, String.length_append]
    omega
  · cases stop' with
    | some stop' =>
      have : start + start' + part.length = start + stop' := hpart
      show start' + part.length = stop'
      omega
    | none =>
      have : start + start' + part.length = (front ++ back ++ part ++ after).length := hpart
      show start' + part.length = (back ++ part ++ after).length
      simp only [String.length_append] at this ⊢
      omega

/-! ## Values -/

/-- What a substring makes of the value of the expression inside it. -/
def cutValue (start : Nat) (stop : Option Nat) (value : Json) : Except QueryError Json :=
  if value.isNull then .ok .null else Json.string <$> cut start stop value.plainText

/-- Null stays null, and of any other value the result is a part of its text. -/
theorem cutValue_eq_ok_iff {start : Nat} {stop : Option Nat} {value result : Json} :
    cutValue start stop value = .ok result ↔
      (value = .null ∧ result = .null) ∨
      (value ≠ .null ∧ ∃ part, IsPart start stop value.plainText part ∧ result = .string part) := by
  by_cases hnull : value = .null
  · rw [hnull]
    show (Except.ok Json.null : Except QueryError Json) = .ok result ↔ _
    simp [eq_comm]
  · have hfalse : value.isNull = false := by
      cases value with
      | null => exact absurd rfl hnull
      | _ => rfl
    unfold cutValue
    simp only [hfalse, hnull, false_and, false_or, ne_eq, not_false_eq_true, true_and,
      Bool.false_eq_true, ↓reduceIte, ← cut_eq_ok_iff]
    cases cut start stop value.plainText with
    | error error => exact ⟨nofun, fun ⟨_, hpart, _⟩ => nomatch hpart⟩
    | ok part =>
      show (Except.ok (Json.string part) : Except QueryError Json) = .ok result ↔ _
      simp [eq_comm]

/-- A part of a part is cut out in one step. -/
theorem cutValue_of_cutValue {start start' : Nat} {stop stop' : Option Nat}
    {value middle result : Json} (h : cutValue start stop value = .ok middle)
    (h' : cutValue start' stop' middle = .ok result) :
    cutValue (start + start') ((stop'.map (start + ·)).or stop) value = .ok result := by
  rw [cutValue_eq_ok_iff] at h h' ⊢
  rcases h with ⟨rfl, rfl⟩ | ⟨hvalue, part, hpart, rfl⟩
  · rcases h' with ⟨-, rfl⟩ | ⟨hnot, -⟩
    · exact .inl ⟨rfl, rfl⟩
    · exact absurd rfl hnot
  · rcases h' with ⟨hnull, -⟩ | ⟨-, own, hown, rfl⟩
    · cases hnull
    · exact .inr ⟨hvalue, own, hpart.trans hown, rfl⟩

/-- Out of the rest of a text from some point on, the same is cut as out of the text. -/
theorem exists_cutValue_between {start start' : Nat} {stop' : Option Nat} {value result : Json}
    (h : cutValue (start + start') (stop'.map (start + ·)) value = .ok result) :
    ∃ middle, cutValue start none value = .ok middle ∧
      cutValue start' stop' middle = .ok result := by
  rw [cutValue_eq_ok_iff] at h
  rcases h with ⟨rfl, rfl⟩ | ⟨hvalue, part, hpart, rfl⟩
  · exact ⟨.null, rfl, rfl⟩
  · obtain ⟨rest, hrest, hown⟩ := hpart.exists_between
    exact ⟨.string rest, cutValue_eq_ok_iff.2 (.inr ⟨hvalue, rest, hrest, rfl⟩),
      cutValue_eq_ok_iff.2 (.inr ⟨nofun, part, hown, rfl⟩)⟩

/-! ## Expressions -/

/-- Without a match no expression fails. -/
theorem exists_evaluate_nil (reduction : Reduction) :
    ∃ value, evaluate reduction [] = .ok value := by
  cases reduction with
  | _ => exact ⟨_, rfl⟩

/-- For a match, a substring cuts the value of the expression inside it. -/
theorem evaluate_substring (m : Match) (start : Nat) (stop : Option Nat) (inner : Reduction) :
    evaluate (.substring start stop inner) [m] =
      evaluate inner [m] >>= cutValue start stop := by
  have hone (reduction : Reduction) : evaluate reduction [m] = apply [m] reduction :=
    if_neg fun h => Nat.lt_irrefl 1 h.1
  rw [hone, hone, apply, if_neg (List.cons_ne_nil m [])]
  refine bind_congr fun value => ?_
  unfold cutValue
  split
  · rfl
  · cases cut start stop value.plainText with
    | error error => rfl
    | ok part => rfl

section Match

variable {m : Match} {inner : Reduction}

/-- A value inside is cut, and an error inside is the error of the substring. -/
theorem evaluate_substring_cases (m : Match) (inner : Reduction) :
    (∃ value, evaluate inner [m] = .ok value ∧
      ∀ start stop, evaluate (.substring start stop inner) [m] = cutValue start stop value) ∨
    ∃ error, evaluate inner [m] = .error error ∧
      ∀ start stop, evaluate (.substring start stop inner) [m] = .error error := by
  cases hinner : evaluate inner [m] with
  | ok value =>
    refine .inl ⟨value, rfl, fun start stop => ?_⟩
    rw [evaluate_substring, hinner]
    rfl
  | error error =>
    refine .inr ⟨error, rfl, fun start stop => ?_⟩
    rw [evaluate_substring, hinner]
    rfl

theorem evaluate_of_nested {start start' : Nat} {stop stop' : Option Nat} {result : Json}
    (h : evaluate (.substring start' stop' (.substring start stop inner)) [m] = .ok result) :
    evaluate (.substring (start + start') ((stop'.map (start + ·)).or stop) inner) [m] =
      .ok result := by
  rw [evaluate_substring] at h
  rcases evaluate_substring_cases m inner with ⟨value, -, hcut⟩ | ⟨error, -, herror⟩
  · rw [hcut] at h ⊢
    cases hmiddle : cutValue start stop value with
    | ok middle =>
      rw [hmiddle] at h
      exact cutValue_of_cutValue hmiddle h
    | error error =>
      rw [hmiddle] at h
      cases h
  · rw [herror] at h
    cases h

theorem nested_of_evaluate {start start' : Nat} {stop' : Option Nat} {result : Json}
    (h : evaluate (.substring (start + start') (stop'.map (start + ·)) inner) [m] = .ok result) :
    evaluate (.substring start' stop' (.substring start none inner)) [m] = .ok result := by
  rw [evaluate_substring]
  rcases evaluate_substring_cases m inner with ⟨value, -, hcut⟩ | ⟨error, -, herror⟩
  · rw [hcut] at h ⊢
    obtain ⟨middle, hmiddle, hresult⟩ := exists_cutValue_between h
    rw [hmiddle]
    exact hresult
  · rw [herror] at h
    cases h

section Value

variable {value : Json} (hvalue : evaluate inner [m] = .ok value) (hnull : value ≠ .null)
include hvalue hnull

/-- What a substring makes of a value that is not null. -/
theorem evaluate_substring_eq_ok_iff {result : Json} (start : Nat) (stop : Option Nat) :
    evaluate (.substring start stop inner) [m] = .ok result ↔
      ∃ part, IsPart start stop value.plainText part ∧ result = .string part := by
  have hcut : evaluate (.substring start stop inner) [m] = cutValue start stop value := by
    rw [evaluate_substring, hvalue]
    rfl
  rw [hcut, cutValue_eq_ok_iff]
  simp only [hnull, false_and, ne_eq, not_false_eq_true, true_and, false_or]

theorem exists_evaluate_substring_iff (start stop : Nat) :
    (∃ result, evaluate (.substring start (some stop) inner) [m] = .ok result) ↔
      start ≤ stop ∧ stop ≤ value.plainText.length := by
  simp only [evaluate_substring_eq_ok_iff hvalue hnull]
  constructor
  · rintro ⟨_, part, hpart, -⟩
    exact hpart.bounds
  · rintro ⟨hstart, hstop⟩
    obtain ⟨part, hpart⟩ : ∃ part, IsPart start (some stop) value.plainText part :=
      exists_isPart hstart hstop
    exact ⟨.string part, part, hpart, rfl⟩

theorem exists_part_of_evaluate {start stop : Nat} {result : Json}
    (h : evaluate (.substring start (some stop) inner) [m] = .ok result) :
    ∃ part, result = .string part ∧ IsPart start (some stop) value.plainText part ∧
      part.length = stop - start := by
  obtain ⟨part, hpart, rfl⟩ := (evaluate_substring_eq_ok_iff hvalue hnull start (some stop)).1 h
  exact ⟨part, rfl, hpart, hpart.length_eq⟩

theorem exists_evaluate_append {middle : Nat} (h : middle ≤ value.plainText.length) :
    ∃ front back,
      evaluate (.substring 0 (some middle) inner) [m] = .ok (.string front) ∧
      evaluate (.substring middle none inner) [m] = .ok (.string back) ∧
      front ++ back = value.plainText := by
  obtain ⟨front, back, hfront, hback, happend⟩ := exists_isPart_append h
  exact ⟨front, back,
    (evaluate_substring_eq_ok_iff hvalue hnull 0 (some middle)).2 ⟨front, hfront, rfl⟩,
    (evaluate_substring_eq_ok_iff hvalue hnull middle none).2 ⟨back, hback, rfl⟩, happend⟩

end Value

end Match

/-- For at most one match, a substring of a substring is a substring of the expression inside both,
with the outer bounds counted from where the inner part starts. If the inner part goes on to the end
of its text, either of the two succeeds if the other does. Null stays null, an error stays what it
is, and without a match every substring is null. For a match and a value that is not null, the
bounds have to lie in its text, the result is the part between them, and two parts that meet are
the whole text. -/
theorem substring_of_substring {matched : List Match} (hone : matched.length ≤ 1)
    (inner : Reduction) :
    (∀ start stop start' stop' value,
      evaluate (.substring start' stop' (.substring start stop inner)) matched = .ok value →
      evaluate (.substring (start + start') ((stop'.map (start + ·)).or stop) inner) matched =
        .ok value) ∧
    (∀ start start' stop' value,
      evaluate (.substring start' stop' (.substring start none inner)) matched = .ok value ↔
      evaluate (.substring (start + start') (stop'.map (start + ·)) inner) matched = .ok value) ∧
    (∀ start stop, evaluate inner matched = .ok .null →
      evaluate (.substring start stop inner) matched = .ok .null) ∧
    (∀ start stop error, evaluate inner matched = .error error →
      evaluate (.substring start stop inner) matched = .error error) ∧
    (matched = [] → ∀ start stop, evaluate (.substring start stop inner) matched = .ok .null) ∧
    ∀ value, matched ≠ [] → evaluate inner matched = .ok value → value ≠ .null →
      (∀ start stop,
        (∃ result, evaluate (.substring start (some stop) inner) matched = .ok result) ↔
          start ≤ stop ∧ stop ≤ value.plainText.length) ∧
      (∀ start stop result, evaluate (.substring start (some stop) inner) matched = .ok result →
        ∃ part, result = .string part ∧ IsPart start (some stop) value.plainText part ∧
          part.length = stop - start) ∧
      ∀ middle ≤ value.plainText.length, ∃ front back,
        evaluate (.substring 0 (some middle) inner) matched = .ok (.string front) ∧
        evaluate (.substring middle none inner) matched = .ok (.string back) ∧
        front ++ back = value.plainText := by
  rcases matched with _ | ⟨m, _ | ⟨other, rest⟩⟩
  · refine ⟨fun _ _ _ _ _ h => h, fun _ _ _ _ => Iff.rfl, fun _ _ _ => rfl,
      fun _ _ error herror => ?_, fun _ _ _ => rfl, fun _ hne => absurd rfl hne⟩
    obtain ⟨value, hvalue⟩ := exists_evaluate_nil inner
    rw [hvalue] at herror
    cases herror
  · refine ⟨fun _ _ _ _ _ => evaluate_of_nested,
      fun _ _ _ _ => ⟨fun h => ?_, nested_of_evaluate⟩, fun start stop hnull => ?_,
      fun start stop error herror => ?_, nofun, fun value _ hvalue hnull => ?_⟩
    · have hnested := evaluate_of_nested h
      rwa [Option.or_none] at hnested
    · rw [evaluate_substring, hnull]
      rfl
    · rw [evaluate_substring, herror]
      rfl
    · exact ⟨exists_evaluate_substring_iff hvalue hnull,
        fun _ _ _ => exists_part_of_evaluate hvalue hnull,
        fun _ => exists_evaluate_append hvalue hnull⟩
  · exact absurd hone (by simp)

/-- The middle of a text, and the same in two steps: of the last three characters the first two. -/
theorem substring_of_substring_glyphs :
    let matched : List Match := [⟨"$", .empty, .string "añ→b"⟩]
    matched.length ≤ 1 ∧
    evaluate (.substring 1 (some 3) .matched) matched = .ok (.string "ñ→") ∧
    evaluate (.substring 0 (some 2) (.substring 1 none .matched)) matched = .ok (.string "ñ→") := by
  intro matched
  have hone : matched.length ≤ 1 := by decide
  have hvalue : evaluate .matched matched = .ok (.string "añ→b") := rfl
  have hpart : IsPart 1 (some 3) "añ→b" "ñ→" := ⟨"a", "b", by decide +kernel⟩
  have hcut : evaluate (.substring 1 (some 3) .matched) matched = .ok (.string "ñ→") :=
    (evaluate_substring_eq_ok_iff hvalue nofun 1 (some 3)).2 ⟨"ñ→", hpart, rfl⟩
  exact ⟨hone, hcut, ((substring_of_substring hone .matched).2.1 1 0 (some 2) _).2 hcut⟩

/-- The number of no matches has a text, but a substring of it is null, with bounds in that text as
with bounds outside. -/
theorem substring_of_no_match :
    evaluate .countMatches [] = .ok (.number (.int 0)) ∧
    (Json.number (.int 0)).plainText.length = 1 ∧
    evaluate (.substring 0 (some 1) .countMatches) [] = .ok .null ∧
    evaluate (.substring 5 (some 9) .countMatches) [] = .ok .null :=
  ⟨rfl, by decide +kernel, rfl, rfl⟩

end PathQuery.Reduction
