import PathQuery.Proofs.Path.Validity

/-!
# The text of a filter read again

The path of a match shows a filter as it was met: each clause with its path and a value, which is
the text of its alternatives or what its placeholder was bound to. Nothing in it is escaped. So the
filter is read back only if nothing that it shows has a meaning of its own where it stands;
`Filter.Legible` says what that is.

A value that was bound is read as alternatives, and there is only one of them, unless the value
looks like a placeholder, which is then read as one.

Results:
1. `result_readClause_shownText`: a clause is read with the value that it shows.
2. `filterMap_split`: clauses joined by `&&` are taken apart again.
3. `Shows.result_readClauses`: so a filter is read as its clauses with these values.
4. `Legible.spelled`: a legible filter in brackets is read as this filter.
-/

namespace PathQuery

/-! ## What is shown -/

def Filter.conditionOf (value : String) : Condition :=
  match Segment.placeholderName? value with
  | some name => .bind name
  | none => .oneOf value (Text.split disjunction value)

theorem Filter.result_readCondition (value : String) :
    (readCondition value).result = .ok (conditionOf value) := by
  unfold readCondition conditionOf
  cases Segment.placeholderName? value with
  | _ => rfl

/-- Segments that call functions as they may are found to do so. -/
theorem Filter.checkSegments_of_callsLast {functions : Registry} (path : String)
    {segments : List String} (h : CallsLast functions segments) :
    checkSegments functions path segments = .ok () := by
  induction segments with
  | nil => rfl
  | cons segment rest ih =>
    obtain ⟨hsegment, hrest⟩ := callsLast_cons_iff.1 h
    unfold checkSegments
    cases hcall : Segment.callName? segment with
    | none => exact ih hrest
    | some name =>
      obtain ⟨rfl, hknown⟩ := hsegment name hcall
      simp only [ne_eq, not_true_eq_false, ↓reduceIte, knownFunction, hknown]
      rfl

/-- The path of a clause can be read: it is not empty, it is not trimmed, it has no equals sign, no
clause starts in it, and it calls functions as it may. -/
structure Filter.IsPath (functions : Registry) (path : String) : Prop where
  ne : path ≠ ""
  trim : Text.trim path = path
  equals : '=' ∉ path.toList
  marker : ¬ Filter.marker.toList <:+: path.toList
  calls : CallsLast functions (Text.split dot path)

theorem Clause.Valid.isPath {functions : Registry} {clause : Clause} (h : clause.Valid functions) :
    Filter.IsPath functions clause.path :=
  ⟨h.path_ne, h.path_trim, h.path_equals, h.path_marker, h.calls⟩

namespace Clause

/-- The value that a clause shows in the path of a match. -/
def shown (clause : Clause) (text : String) : String :=
  match clause.condition with
  | .oneOf written _ => written
  | .bind _ => text

/-- The clause that is read from what a clause shows. -/
def again (clause : Clause) (text : String) : Clause :=
  ⟨clause.path, Filter.conditionOf (clause.shown text)⟩

def shownText (clause : Clause) (text : String) : String :=
  clause.path ++ "=" ++ clause.shown text

theorem render_eq (clause : Clause) (text : String) :
    clause.render text = Filter.marker ++ clause.shownText text := by
  unfold render shownText shown
  cases clause.condition with
  | _ => simp only [String.append_assoc]

variable {clause : Clause} {functions : Registry}

theorem again_of_oneOf {written : String} {alternatives : List String}
    (hclause : clause.condition.Valid) (h : clause.condition = .oneOf written alternatives)
    (text : String) : clause.again text = clause := by
  obtain ⟨path, condition⟩ := clause
  obtain rfl : condition = .oneOf written alternatives := h
  obtain ⟨-, -, hname, rfl⟩ := hclause
  unfold again shown Filter.conditionOf
  simp only [hname]

/-- What is read shows the same value. -/
theorem shown_again (hclause : clause.condition.Valid) (text : String) :
    (clause.again text).shown text = clause.shown text := by
  cases hcondition : clause.condition with
  | oneOf written alternatives => rw [again_of_oneOf hclause hcondition]
  | bind name =>
    unfold again shown Filter.conditionOf
    simp only [hcondition]
    cases Segment.placeholderName? text with
    | _ => rfl

theorem render_again (hclause : clause.condition.Valid) (text : String) :
    (clause.again text).render text = clause.render text := by
  rw [render_eq, render_eq, shownText, shown_again hclause]
  rfl

/-- The value can be read as it is shown: it is not trimmed, and no clause starts in it. -/
def Shows (clause : Clause) (text : String) : Prop :=
  Text.trim (clause.shown text) = clause.shown text ∧
    ¬ Filter.marker.toList <:+: (clause.shown text).toList

/-- A clause is read with the value that it shows. -/
theorem result_readClause_shownText (hpath : Filter.IsPath functions clause.path) {text : String}
    (hshows : clause.Shows text) :
    (Filter.readClause functions (clause.shownText text)).result = .ok (clause.again text) := by
  have hcut : Text.cutAt? '=' (clause.shownText text) = some (clause.path, clause.shown text) := by
    refine Text.cutAt?_eq_some_iff.2 ⟨?_, hpath.equals⟩
    simp only [shownText, String.toList_append, List.append_assoc]
    rfl
  have hcalls := Filter.checkSegments_of_callsLast clause.path hpath.calls
  unfold Filter.readClause
  simp only [hcut, hpath.trim, hshows.1, if_neg hpath.ne]
  simp only [Attempt.result_bind, Attempt.result_ofExcept, Attempt.result_pieces,
    Attempt.result_pure, Path.ok_bind, hcalls, Filter.result_readCondition]
  rfl

end Clause

/-! ## Clauses taken apart -/

namespace Filter

theorem marker_infix_append_iff {front back : List Char} :
    marker.toList <:+: front ++ back ↔ marker.toList <:+: front ∨ marker.toList <:+: back ∨
      (front.getLast? = some '@' ∧ back.head? = some '.') :=
  Text.pair_infix_append_iff

theorem split_marker_append {text : String} (h : ¬ marker.toList <:+: text.toList)
    (rest : String) :
    Text.split marker (text ++ marker ++ rest) = text :: Text.split marker rest := by
  refine Text.split_append (by decide) (fun hborder => ?_) rest
  rcases marker_infix_append_iff.1 hborder with hinside | hmarker | ⟨-, hdot⟩
  · exact h hinside
  · exact absurd hmarker (by decide)
  · cases hdot

/-- A text that is one clause between two markers. -/
structure IsPiece (text : String) : Prop where
  ne : text ≠ ""
  trim : Text.trim text = text
  marker : ¬ Filter.marker.toList <:+: text.toList

theorem IsPiece.clauseText?_eq {text : String} (h : IsPiece text)
    (hend : Text.beforeSuffix? conjunction text = none) : clauseText? text = some text := by
  simp only [clauseText?, h.trim, hend, if_neg h.ne]

/-- The text between two clauses is not part of the first one. -/
theorem IsPiece.clauseText?_append {text : String} (h : IsPiece text) :
    clauseText? (text ++ " && ") = some text := by
  obtain ⟨hstart, hend⟩ := Text.ends_of_trim_eq h.trim
  have hne : text.toList ≠ [] := mt String.toList_eq_nil_iff.1 h.ne
  have hkept : Text.trim (text ++ " &&") = text ++ " &&" := by
    refine Text.trim_eq_self ?_ ?_
    · intro c hc
      rw [String.toList_append, List.head?_append_of_ne_nil _ hne] at hc
      exact hstart c hc
    · intro c hc
      rw [String.toList_append, List.getLast?_append] at hc
      exact Option.some.inj hc ▸ rfl
  have htrim : Text.trim (text ++ " && ") = text ++ " &&" := by
    have hblank : text ++ " && " = text ++ " &&" ++ " " := by
      rw [String.append_assoc]
      rfl
    rw [hblank, Text.trim_append_of_isBlank hkept (List.all_eq_true.1 rfl)]
  have hsuffix : Text.beforeSuffix? conjunction (text ++ " &&") = some (text ++ " ") := by
    refine Text.beforeSuffix?_eq_some_iff.2 ?_
    rw [String.append_assoc]
    rfl
  have hblank : Text.trimEnd (text ++ " ") = text := by
    unfold Text.trimEnd
    rw [String.toList_append, Text.dropEndWhile_append _ (List.all_eq_true.1 rfl),
      Text.dropEndWhile_eq_self hend, String.ofList_toList]
  simp only [clauseText?, htrim, hsuffix, hblank, if_neg h.ne]

end Filter

theorem Clause.isPiece_shownText {clause : Clause} {functions : Registry}
    (hclause : Filter.IsPath functions clause.path) {text : String} (hshows : clause.Shows text) :
    Filter.IsPiece (clause.shownText text) := by
  obtain ⟨hstart, hend⟩ := Text.ends_of_trim_eq hclause.trim
  obtain ⟨-, hlast⟩ := Text.ends_of_trim_eq hshows.1
  have hpath : clause.path.toList ≠ [] := mt String.toList_eq_nil_iff.1 hclause.ne
  have hchars : (clause.shownText text).toList =
      clause.path.toList ++ '=' :: (clause.shown text).toList := by
    simp only [shownText, String.toList_append, List.append_assoc]
    rfl
  refine ⟨?_, ?_, ?_⟩
  · intro hnil
    rw [hnil] at hchars
    exact List.append_ne_nil_of_left_ne_nil hpath _ hchars.symm
  · refine Text.trim_eq_self ?_ ?_
    · intro c hc
      rw [hchars, List.head?_append_of_ne_nil _ hpath] at hc
      exact hstart c hc
    · intro c hc
      rw [hchars, List.getLast?_append, List.getLast?_cons] at hc
      cases hshown : (clause.shown text).toList.getLast? with
      | none =>
        rw [hshown] at hc
        exact Option.some.inj hc ▸ rfl
      | some d =>
        rw [hshown] at hc
        exact Option.some.inj hc ▸ hlast d hshown
  · intro hmarker
    rw [hchars, Filter.marker_infix_append_iff] at hmarker
    rcases hmarker with hmarker | hmarker | ⟨-, hdot⟩
    · exact hclause.marker hmarker
    · rcases List.infix_cons_iff.1 hmarker with hstarts | hmarker
      · exact absurd (List.cons_prefix_cons.1 hstarts).1 (by decide)
      · exact hshows.2 hmarker
    · exact absurd (Option.some.inj hdot) (by decide)

namespace Filter

theorem IsPiece.append {text : String} (h : IsPiece text) :
    ¬ Filter.marker.toList <:+: (text ++ " && ").toList := by
  rw [String.toList_append, marker_infix_append_iff]
  rintro (hmarker | hmarker | ⟨-, hdot⟩)
  · exact h.marker hmarker
  · exact absurd hmarker (by decide)
  · exact absurd hdot (by decide)

/-- Clauses joined by `&&` are taken apart again, if the last one does not end in it. -/
theorem filterMap_split {text : String} {texts : List String}
    (h : ∀ piece ∈ text :: texts, IsPiece piece)
    (hlast : ∀ piece, (text :: texts).getLast? = some piece →
      Text.beforeSuffix? conjunction piece = none) :
    ∃ rest, " && ".intercalate ((text :: texts).map (marker ++ ·)) = marker ++ rest ∧
      (Text.split marker rest).filterMap clauseText? = text :: texts := by
  induction texts generalizing text with
  | nil =>
    have hpiece := h text List.mem_cons_self
    refine ⟨text, String.intercalate_singleton, ?_⟩
    rw [Text.split_eq_singleton (by decide) hpiece.marker, List.filterMap_cons,
      hpiece.clauseText?_eq (hlast text rfl)]
    rfl
  | cons next texts ih =>
    obtain ⟨hpiece, htexts⟩ := List.forall_mem_cons.1 h
    rw [List.getLast?_cons_cons] at hlast
    obtain ⟨rest, hrest, hpieces⟩ := ih htexts hlast
    -- The marker of the next clause ends this one, with the `&&` before it still to be dropped.
    refine ⟨text ++ " && " ++ marker ++ rest, ?_, ?_⟩
    · rw [List.map_cons, List.map_cons, String.intercalate_cons_cons, ← List.map_cons, hrest]
      simp only [String.append_assoc]
    · rw [split_marker_append hpiece.append, List.filterMap_cons, hpiece.clauseText?_append,
        hpieces]

end Filter

/-! ## Filters that are shown -/

namespace Filter

def shown (clauses : List Clause) (texts : List String) : String :=
  " && ".intercalate (List.zipWith Clause.render clauses texts)

variable {functions : Registry} {clauses : List Clause} {texts : List String}

/-- The clauses of a filter can be read from what they show, and the last value does not end as if
another clause followed. -/
structure Shows (functions : Registry) (clauses : List Clause) (texts : List String) : Prop where
  each : List.Forall₂ (fun clause text => IsPath functions clause.path ∧ clause.Shows text)
    clauses texts
  last : ∀ clause text, (clauses.zip texts).getLast? = some (clause, text) →
    Text.beforeSuffix? conjunction (clause.shown text) = none

theorem beforeSuffix?_eq_none {front back : String}
    (h : Text.beforeSuffix? conjunction back = none) :
    Text.beforeSuffix? conjunction (front ++ "=" ++ back) = none := by
  refine Option.eq_none_iff_forall_ne_some.2 fun before hbefore => ?_
  have hchars := congrArg String.toList (Text.beforeSuffix?_eq_some_iff.1 hbefore)
  simp only [String.toList_append] at hchars
  have hnot (start : List Char) : back.toList ≠ start ++ conjunction.toList := by
    intro hback
    have hends : back = String.ofList start ++ conjunction := by
      rw [← String.toList_inj, String.toList_append, String.toList_ofList, hback]
    rw [Text.beforeSuffix?_eq_some_iff.2 hends] at h
    cases h
  rcases List.append_eq_append_iff.1 hchars with ⟨more, -, hback⟩ | ⟨more, hfront, hback⟩
  · exact hnot more hback
  · -- Only the end of `&&` would be in the value, so its start would be the equals sign.
    rcases List.eq_nil_or_concat more with rfl | ⟨more, c, rfl⟩
    · exact hnot [] hback.symm
    · rw [List.concat_eq_append, ← List.append_assoc] at hfront
      have hequals : ['='] = [c] := List.append_inj_right' hfront rfl
      have hmem : c ∈ conjunction.toList := by
        rw [hback, List.concat_eq_append]
        simp
      rw [← (List.cons.inj hequals).1] at hmem
      exact absurd hmem (by decide)

theorem result_mapM_readClause
    (h : List.Forall₂ (fun clause text => IsPath functions clause.path ∧ clause.Shows text)
      clauses texts) :
    Attempt.result ((List.zipWith Clause.shownText clauses texts).mapM (readClause functions)) =
      .ok (List.zipWith Clause.again clauses texts) := by
  induction h with
  | nil => rfl
  | cons hpair _ ih =>
    rw [List.zipWith_cons_cons, Attempt.result_mapM_cons,
      Clause.result_readClause_shownText hpair.1 hpair.2, ih]
    rfl

theorem Shows.isPiece_of_mem (h : Shows functions clauses texts) :
    ∀ piece ∈ List.zipWith Clause.shownText clauses texts, IsPiece piece := by
  intro piece hpiece
  rw [← List.map_uncurry_zip_eq_zipWith] at hpiece
  obtain ⟨⟨clause, text⟩, hpair, rfl⟩ := List.mem_map.1 hpiece
  obtain ⟨hpath, htext⟩ := (List.forall₂_iff_zip.1 h.each).2 hpair
  exact Clause.isPiece_shownText hpath htext

theorem Shows.beforeSuffix?_of_getLast? (h : Shows functions clauses texts) {piece : String}
    (hpiece : (List.zipWith Clause.shownText clauses texts).getLast? = some piece) :
    Text.beforeSuffix? conjunction piece = none := by
  rw [← List.map_uncurry_zip_eq_zipWith, List.getLast?_map] at hpiece
  obtain ⟨⟨clause, text⟩, hpair, rfl⟩ := Option.map_eq_some_iff.1 hpiece
  exact beforeSuffix?_eq_none (h.last clause text hpair)

theorem shown_eq (clauses : List Clause) (texts : List String) :
    shown clauses texts =
      " && ".intercalate ((List.zipWith Clause.shownText clauses texts).map (marker ++ ·)) := by
  unfold shown
  rw [List.map_zipWith]
  exact congrArg (fun f => " && ".intercalate (List.zipWith f clauses texts))
    (funext₂ Clause.render_eq)

/-- A filter is read as its clauses, with the values that they show. -/
theorem Shows.result_readClauses (h : Shows functions clauses texts) (hne : clauses ≠ []) :
    (readClauses functions (shown clauses texts)).result =
      .ok (List.zipWith Clause.again clauses texts) := by
  have hpieces := h.isPiece_of_mem
  have hlast : ∀ piece, (List.zipWith Clause.shownText clauses texts).getLast? = some piece →
      Text.beforeSuffix? conjunction piece = none := fun _ => h.beforeSuffix?_of_getLast?
  have hread := result_mapM_readClause h.each
  have hshown := shown_eq clauses texts
  obtain ⟨clause, clauses, rfl⟩ := List.exists_cons_of_ne_nil hne
  obtain ⟨text, texts, -, -, rfl⟩ := List.forall₂_cons_left_iff.1 h.each
  rw [List.zipWith_cons_cons] at hpieces hlast hread hshown
  obtain ⟨rest, hrest, hsplit⟩ := filterMap_split hpieces hlast
  rw [hrest] at hshown
  have hstart : Text.trimStart (marker ++ rest) = marker ++ rest := by
    rw [← String.toList_inj, Text.toList_trimStart, String.toList_append]
    rfl
  have hmarked : Text.afterPrefix? marker (marker ++ rest) = some rest :=
    Text.afterPrefix?_eq_some_iff.2 rfl
  have htexts : (Text.split marker (marker ++ rest)).filterMap clauseText? =
      clause.shownText text :: List.zipWith Clause.shownText clauses texts := by
    have hempty : clauseText? "" = none := rfl
    have hcut := @split_marker_append "" (by decide) rest
    rw [String.empty_append] at hcut
    rw [hcut, List.filterMap_cons, hempty, hsplit]
  unfold readClauses
  simp only [hshown, hstart, hmarked, Option.isNone_some, Bool.false_eq_true, ↓reduceIte,
    Attempt.result_bind, Attempt.result_pieces, Path.ok_bind, htexts, hread]
  rw [if_neg (by simp)]
  rfl

end Filter

theorem Outline.encloses_of_not_infix {cs : List Char} (hdot : ¬ [']', '.'] <:+: cs)
    (hopen : ¬ [']', '['] <:+: cs) (hlast : cs.getLast? ≠ some ']') : Encloses cs := by
  rintro front rest rfl
  cases rest with
  | nil => exact absurd List.getLast?_concat hlast
  | cons d rest =>
    have hd : d ≠ '.' := by
      rintro rfl
      exact hdot ⟨front, rest, by simp⟩
    have hd' : d ≠ '[' := by
      rintro rfl
      exact hopen ⟨front, rest, by simp⟩
    simp [mayClose, Glyph.plain, hd, hd']

/-- In the text of a filter with its parentheses, a pair that starts with a closing bracket stands
in the clauses. -/
theorem Filter.not_infix_parenthesized {c : Char} {cs : List Char} (hc : c ≠ ')')
    (h : ¬ [']', c] <:+: cs) : ¬ [']', c] <:+: ['?', '('] ++ (cs ++ [')']) := by
  rw [Text.pair_infix_append_iff, Text.pair_infix_append_iff]
  rintro (hfront | (hcs | hback | ⟨-, hclose⟩) | ⟨hfront, -⟩)
  · exact absurd (hfront.mem List.mem_cons_self) (by decide)
  · exact h hcs
  · exact absurd (hback.mem List.mem_cons_self) (by decide)
  · exact hc (Option.some.inj hclose).symm
  · exact absurd hfront (by decide)

/-- A filter in parentheses is read as the clauses that it is made of. -/
theorem Path.result_readBracket_filter {functions : Registry} {body : String}
    {clauses : List Clause} (h : (Filter.readClauses functions body).result = .ok clauses) :
    (readBracket functions ("?(" ++ body ++ ")")).result = .ok (.select (.filter clauses)) := by
  have hchars : ("?(" ++ body ++ ")").toList = '?' :: '(' :: (body.toList ++ [')']) := by
    simp only [String.toList_append, List.append_assoc]
    rfl
  have htrim : Text.trim ("?(" ++ body ++ ")") = "?(" ++ body ++ ")" := by
    refine Text.trim_eq_self ?_ ?_
    · intro c hc
      rw [hchars] at hc
      exact Option.some.inj hc ▸ rfl
    · intro c hc
      rw [String.toList_append, List.getLast?_append] at hc
      exact Option.some.inj hc ▸ rfl
  have hplaceholder : Segment.placeholderName? ("?(" ++ body ++ ")") = none := by
    refine Segment.placeholderName?_eq_none ?_
    rw [hchars]
    exact fun hdollar => absurd (Option.some.inj hdollar) (by decide)
  have hwildcard : "?(" ++ body ++ ")" ≠ "*" := by
    intro hstar
    rw [hstar] at hchars
    exact absurd (List.cons.inj hchars).1 (by decide)
  have hopen : Text.afterPrefix? "?(" ("?(" ++ body ++ ")") = some (body ++ ")") :=
    Text.afterPrefix?_eq_some_iff.2 (String.append_assoc ..)
  have hclose : Text.beforeSuffix? ")" (body ++ ")") = some body :=
    Text.beforeSuffix?_eq_some_iff.2 rfl
  unfold readBracket readSelector
  simp only [htrim, hplaceholder, if_neg hwildcard, hopen, hclose, Attempt.result_map, h]
  rfl

/-- The text of a filter in brackets spells the filter of the clauses that are read from it, if
nothing in it looks like an escape and no bracket closes before a dot or before another bracket. -/
theorem Filter.spelled_parenthesized {functions : Registry} {body : String} {clauses : List Clause}
    (hbackslash : '\\' ∉ body.toList) (hdot : ¬ "].".toList <:+: body.toList)
    (hopen : ¬ "][".toList <:+: body.toList)
    (hread : (readClauses functions body).result = .ok clauses) :
    (Step.select (.filter clauses)).Spelled functions
      (.plain '[' :: (("?(" ++ body ++ ")").toList.map .plain ++ [.plain ']'])) := by
  have hchars : ("?(" ++ body ++ ")").toList = ['?', '('] ++ (body.toList ++ [')']) := by
    simp only [String.toList_append, List.append_assoc]
    rfl
  refine .bracket ?_ ?_ ?_
  · rw [hchars]
    simp [hbackslash]
  · rw [hchars]
    refine Outline.encloses_of_not_infix (not_infix_parenthesized (by decide) hdot)
      (not_infix_parenthesized (by decide) hopen) ?_
    rw [List.getLast?_append, List.getLast?_concat]
    decide
  · rw [String.ofList_toList]
    exact Path.result_readBracket_filter hread

/-- The path of an element under a filter ends in the text of the filter in brackets. -/
theorem Filter.toList_filterPlace (place : String) (clauses : List Clause) (texts : List String) :
    (Walk.filterPlace place clauses texts).toList = place.toList ++ Glyph.writeAll
      (.plain '[' :: (("?(" ++ shown clauses texts ++ ")").toList.map .plain ++
        [.plain ']'])) := by
  rw [Glyph.writeAll_bracket]
  unfold Walk.filterPlace shown
  simp only [String.toList_append, List.append_assoc]
  rfl

/-! ## Legible filters -/

namespace Filter

/-- A text that a placeholder was bound to is read as itself: it is not trimmed, no clause starts in
it, and it is not cut into alternatives. -/
structure IsValue (text : String) : Prop where
  trim : Text.trim text = text
  marker : ¬ Filter.marker.toList <:+: text.toList
  whole : Segment.placeholderName? text = none → ¬ disjunction.toList <:+: text.toList

/-- What a filter shows can be read. -/
structure Legible (clauses : List Clause) (texts : List String) : Prop where
  /-- nothing looks like an escape -/
  backslash : '\\' ∉ (shown clauses texts).toList
  /-- no bracket closes before a dot or before another bracket -/
  closing : ¬ "].".toList <:+: (shown clauses texts).toList ∧
    ¬ "][".toList <:+: (shown clauses texts).toList
  /-- what a placeholder was bound to is read as itself -/
  bound : List.Forall₂ (fun clause text => ∀ name, clause.condition = .bind name → IsValue text)
    clauses texts
  /-- the last value does not end as if another clause followed -/
  last : ∀ clause text, (clauses.zip texts).getLast? = some (clause, text) →
    Text.beforeSuffix? conjunction (clause.shown text) = none

variable {functions : Registry} {clauses : List Clause} {texts : List String}

/-- The value of a valid clause can be read, and so can one that is bound and legible. -/
theorem Legible.shows (h : Legible clauses texts)
    (hclauses : ∀ clause ∈ clauses, clause.Valid functions) : Shows functions clauses texts := by
  refine ⟨?_, h.last⟩
  have hbound := h.bound
  clear h
  induction hbound with
  | nil => exact .nil
  | @cons clause text clauses texts hclause _ ih =>
    obtain ⟨hvalid, hclauses⟩ := List.forall_mem_cons.1 hclauses
    refine .cons ⟨hvalid.isPath, ?_⟩ (ih hclauses)
    have hcondition := hvalid.condition
    unfold Clause.Shows Clause.shown
    cases hkind : clause.condition with
    | oneOf written alternatives =>
      rw [hkind] at hcondition
      exact ⟨hcondition.1, hcondition.2.1⟩
    | bind name => exact ⟨(hclause name hkind).trim, (hclause name hkind).marker⟩

/-- A legible filter in brackets spells the filter of its clauses, with the values that they
show. -/
theorem Legible.spelled (h : Legible clauses texts) (hne : clauses ≠ [])
    (hclauses : ∀ clause ∈ clauses, clause.Valid functions) :
    (Step.select (.filter (List.zipWith Clause.again clauses texts))).Spelled functions
      (.plain '[' :: (("?(" ++ shown clauses texts ++ ")").toList.map .plain ++ [.plain ']'])) :=
  spelled_parenthesized h.backslash h.closing.1 h.closing.2
    ((h.shows hclauses).result_readClauses hne)

end Filter

end PathQuery
