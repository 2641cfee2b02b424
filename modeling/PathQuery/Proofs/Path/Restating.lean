import PathQuery.Proofs.Path.FilterText
import PathQuery.Proofs.Path.Joining

/-!
# Filters that state what was found

Reading the text of a filter inverts the writing of it, as long as the values in it are plain ones.
The filter that is read has the same paths in the same order, and asks for the values that are
shown: what a placeholder was bound to has become a text with its alternatives.

Without backslashes and closing brackets in it the whole selector is read so, wherever it stands in
a body.

Results:
1. `Plain.result_readClauses`: the clauses that are read from the text of plain clauses.
2. `Path.alike_readBody_selector`: what is read from their selector and what follows it.
3. `read_settled`: both, after any part of a body.
-/

namespace PathQuery

/-- The clause that asks for the value which a clause shows. -/
def Clause.settled (clause : Clause) (text : String) : Clause :=
  ⟨clause.path, .oneOf (clause.shown text) (Text.split Filter.disjunction (clause.shown text))⟩

namespace Filter

/-- A value that is read as it stands: it is not trimmed, no clause starts in it, it does not end as
if another clause followed, and it is no placeholder. -/
structure IsLiteral (value : String) : Prop where
  trim : Text.trim value = value
  marker : ¬ Filter.marker.toList <:+: value.toList
  ending : Text.beforeSuffix? conjunction value = none
  name : Segment.placeholderName? value = none

/-- Clauses whose paths can be read, with values that are read as they stand. -/
def Plain (functions : Registry) (clauses : List Clause) (texts : List String) : Prop :=
  List.Forall₂ (fun clause text => IsPath functions clause.path ∧ IsLiteral (clause.shown text))
    clauses texts

variable {functions : Registry} {clauses : List Clause} {texts : List String}

theorem Plain.shows (h : Plain functions clauses texts) : Shows functions clauses texts := by
  refine ⟨h.imp fun clause text hpair => ⟨hpair.1, hpair.2.trim, hpair.2.marker⟩, ?_⟩
  intro clause text hlast
  exact ((List.forall₂_iff_zip.1 h).2 (List.mem_of_getLast? hlast)).2.ending

/-- A literal value is no placeholder, so a clause that shows it is read as one that asks for it. -/
theorem Plain.zipWith_again (h : Plain functions clauses texts) :
    List.zipWith Clause.again clauses texts = List.zipWith Clause.settled clauses texts := by
  induction h with
  | nil => rfl
  | @cons clause text clauses texts hpair _ ih =>
    have hclause : clause.again text = clause.settled text := by
      unfold Clause.again Clause.settled conditionOf
      rw [hpair.2.name]
    rw [List.zipWith_cons_cons, List.zipWith_cons_cons, hclause, ih]

/-- The text of plain clauses is read as the clauses that ask for the values in it. -/
theorem Plain.result_readClauses (h : Plain functions clauses texts) (hne : clauses ≠ []) :
    (readClauses functions (shown clauses texts)).result =
      .ok (List.zipWith Clause.settled clauses texts) := by
  rw [h.shows.result_readClauses hne, h.zipWith_again]

/-! ## Characters of the text -/

theorem not_mem_intercalate {c : Char} {separator : String} (hseparator : c ∉ separator.toList)
    {parts : List String} (h : ∀ part ∈ parts, c ∉ part.toList) :
    c ∉ (separator.intercalate parts).toList := by
  induction parts with
  | nil => exact List.not_mem_nil
  | cons part parts ih =>
    obtain ⟨hpart, hparts⟩ := List.forall_mem_cons.1 h
    cases parts with
    | nil =>
      rw [String.intercalate_singleton]
      exact hpart
    | cons next parts =>
      rw [String.intercalate_cons_cons, String.toList_append, String.toList_append]
      intro hmem
      rcases List.mem_append.1 hmem with hmem | hmem
      · exact (List.mem_append.1 hmem).elim hpart hseparator
      · exact ih hparts hmem

/-- A character stands in the text of a filter only if it stands in a path or in a value, or is one
of those that are written between them. -/
theorem not_mem_shown {c : Char} (hc : c ∉ "@.= &".toList)
    (h : List.Forall₂ (fun clause text => c ∉ clause.path.toList ∧ c ∉ (clause.shown text).toList)
      clauses texts) : c ∉ (shown clauses texts).toList := by
  have hbetween : " && ".toList ⊆ "@.= &".toList := by decide
  have haround : marker.toList ++ ['='] ⊆ "@.= &".toList := by decide
  refine not_mem_intercalate (fun hmem => hc (hbetween hmem)) ?_
  intro part hpart
  rw [← List.map_uncurry_zip_eq_zipWith] at hpart
  obtain ⟨⟨clause, text⟩, hpair, rfl⟩ := List.mem_map.1 hpart
  obtain ⟨hpath, hvalue⟩ := (List.forall₂_iff_zip.1 h).2 hpair
  have hchars : (clause.render text).toList =
      marker.toList ++ (clause.path.toList ++ ('=' :: (clause.shown text).toList)) := by
    simp only [Clause.render_eq, Clause.shownText, String.toList_append, List.append_assoc]
    rfl
  show c ∉ (clause.render text).toList
  rw [hchars]
  simp only [List.mem_append, List.mem_cons, not_or]
  refine ⟨fun hmem => hc (haround (List.mem_append_left _ hmem)), hpath, ?_, hvalue⟩
  rintro rfl
  exact hc (haround (List.mem_append_right _ (List.mem_singleton_self _)))

end Filter

/-! ## The selector in a body -/

namespace Path

open PathQuery.Filter

variable {settings : Settings} {clauses : List Clause} {texts : List String}

/-- Without backslashes and closing brackets, the selector alone is read as the filter. -/
theorem result_readBody_selector (h : Plain settings.functions clauses texts) (hne : clauses ≠ [])
    (hchars : ∀ c ∈ ['\\', ']'], c ∉ (shown clauses texts).toList) :
    (readBody settings (Walk.filterPlace "" clauses texts)).result =
      .ok [.select (.filter (List.zipWith Clause.settled clauses texts))] := by
  have hclosing (d : Char) : ¬ [']', d] <:+: (shown clauses texts).toList := fun hinside =>
    hchars ']' (by decide) (hinside.mem List.mem_cons_self)
  have hspelled := spelled_parenthesized (hchars '\\' (by decide)) (hclosing '.') (hclosing '[')
    (h.result_readClauses hne)
  refine result_readBody_spelled (.cons hspelled .nil) ?_
  rw [toList_filterPlace, List.flatten_singleton]
  rfl

theorem filterPlace_append (front rest : String) :
    Walk.filterPlace front clauses texts ++ rest =
      front ++ (Walk.filterPlace "" clauses texts ++ rest) := by
  simp only [Walk.filterPlace, String.empty_append, String.append_assoc]

theorem exists_toList_filterPlace (clauses : List Clause) (texts : List String) (place : String) :
    ∃ init, (Walk.filterPlace place clauses texts).toList = init ++ [']'] := by
  refine ⟨(place ++ "[?(" ++ shown clauses texts ++ ")").toList, ?_⟩
  simp only [Walk.filterPlace, shown, String.toList_append, List.append_assoc]
  rfl

/-- What follows the selector is read as by itself, if it starts with a dot or a bracket or is
nothing. -/
theorem alike_readBody_selector (h : Plain settings.functions clauses texts) (hne : clauses ≠ [])
    (hchars : ∀ c ∈ ['\\', ']'], c ∉ (shown clauses texts).toList) {rest : String}
    (hrest : rest = "" ∨ rest.toList.head? = some '.' ∨ rest.toList.head? = some '[') :
    Alike (fun more whole =>
        whole = .select (.filter (List.zipWith Clause.settled clauses texts)) :: more)
      (readBody settings rest).result
      (readBody settings (Walk.filterPlace "" clauses texts ++ rest)).result := by
  have hread := result_readBody_selector h hne hchars
  rcases hrest with rfl | hrest
  · rw [String.append_empty, hread]
    exact .ok rfl
  · obtain ⟨init, hinit⟩ := exists_toList_filterPlace clauses texts ""
    refine alike_readBody hread ?_ hrest ?_
    · rw [hinit, Glyph.trailing_concat]
      rfl
    · rintro ⟨hdot, -⟩
      exact absurd ((endsInDot_iff hinit).1 hdot).1 (by decide)

end Path

namespace Filter

/-- The text of a filter whose paths can be read and whose values are read as they stand is read,
clause by clause, as a filter with the same paths that asks for these values. If there is no
backslash and no closing bracket in the paths and values, the whole selector is read as this one
step wherever it stands in a body, unless it comes after a dot. What follows it, from a dot or a
bracket on, is read as by itself. -/
theorem read_settled {settings : Settings} {clauses : List Clause} {texts : List String}
    (hne : clauses ≠ []) (h : Plain settings.functions clauses texts) :
    (readClauses settings.functions (shown clauses texts)).result =
      .ok (List.zipWith Clause.settled clauses texts) ∧
    ((∀ c ∈ ['\\', ']'], List.Forall₂ (fun clause text =>
        c ∉ clause.path.toList ∧ c ∉ (clause.shown text).toList) clauses texts) →
      ∀ (front rest : String) (steps : List Step),
        (Path.readBody settings front).result = .ok steps →
        Glyph.trailing front.toList % 2 = 0 → ¬ Path.EndsInDot front →
        (rest = "" ∨ rest.toList.head? = some '.' ∨ rest.toList.head? = some '[') →
        Path.Alike (fun more whole =>
            whole = steps ++ .select (.filter (List.zipWith Clause.settled clauses texts)) :: more)
          (Path.readBody settings rest).result
          (Path.readBody settings (Walk.filterPlace front clauses texts ++ rest)).result) := by
  refine ⟨h.result_readClauses hne, ?_⟩
  intro hchars front rest steps hfront heven hdot hrest
  have hbetween : ∀ c ∈ ['\\', ']'], c ∉ "@.= &".toList :=
    List.forall_mem_cons.2 ⟨by decide, List.forall_mem_singleton.2 (by decide)⟩
  have hshown : ∀ c ∈ ['\\', ']'], c ∉ (shown clauses texts).toList := fun c hc =>
    not_mem_shown (hbetween c hc) (hchars c hc)
  have hopen : (Walk.filterPlace "" clauses texts ++ rest).toList.head? = some '[' := by
    rw [String.toList_append, toList_filterPlace]
    rfl
  have hselector := Path.alike_readBody_selector h hne hshown hrest
  have hwhole := Path.alike_readBody hfront heven (.inr hopen) fun hends => hdot hends.1
  rw [Path.filterPlace_append]
  refine (hselector.trans hwhole).imp ?_
  rintro more _ ⟨_, rfl, rfl⟩
  rfl

/-- A bound value with an at sign, an equals sign and a parenthesis, alternatives that end in an
ampersand, and an empty value. The selector stands between an escaped dot and a bracket. -/
theorem read_settled_of_signs :
    let settings : Settings := ⟨.default, .builtins⟩
    let clauses : List Clause :=
      [⟨"n.max()", .bind "x"⟩, ⟨"b@", .oneOf "u||v&" []⟩, ⟨"c", .bind "y"⟩]
    let texts := ["@=)", "v&", ""]
    let again : List Clause :=
      [⟨"n.max()", .oneOf "@=)" ["@=)"]⟩, ⟨"b@", .oneOf "u||v&" ["u", "v&"]⟩,
      ⟨"c", .oneOf "" [""]⟩]
    Plain settings.functions clauses texts ∧
    (readClauses settings.functions "@.n.max()=@=) && @.b@=u||v& && @.c=").result = .ok again ∧
    (Path.readBody settings ".k\\.[?(@.n.max()=@=) && @.b@=u||v& && @.c=)][0]").result =
      .ok [.key "k.", .select (.filter again), .select (.index 0)] := by
  intro settings clauses texts again
  have hcalls (path : String)
      (h : checkSegments settings.functions path (Text.split dot path) = .ok ()) :
      CallsLast settings.functions (Text.split dot path) :=
    (Path.gives_checkSegments settings.functions path _).of_eq_ok h
  have hplain : Plain settings.functions clauses texts := by
    refine .cons ⟨?_, ?_⟩ (.cons ⟨?_, ?_⟩ (.cons ⟨?_, ?_⟩ .nil))
    · exact ⟨by decide, by decide, by decide, by decide, hcalls "n.max()" rfl⟩
    · exact ⟨by decide, by decide, by decide, by decide⟩
    · exact ⟨by decide, by decide, by decide, by decide, hcalls "b@" rfl⟩
    · exact ⟨by decide, by decide, by decide, by decide⟩
    · exact ⟨by decide, by decide, by decide, by decide, hcalls "c" rfl⟩
    · exact ⟨by decide, by decide, by decide, by decide⟩
  have hchars : ∀ c ∈ ['\\', ']'], List.Forall₂ (fun clause text =>
      c ∉ clause.path.toList ∧ c ∉ (clause.shown text).toList) clauses texts :=
    List.forall_mem_cons.2 ⟨by decide, List.forall_mem_singleton.2 (by decide)⟩
  have hfront : (Path.readBody settings ".k\\.").result = .ok [.key "k."] := by decide +kernel
  have hdot : ¬ Path.EndsInDot ".k\\." := by
    rw [Path.endsInDot_iff (show ".k\\.".toList = ".k\\".toList ++ ['.'] by decide)]
    decide
  have hrest : (Path.readBody settings "[0]").result = .ok [.select (.index 0)] := by
    decide +kernel
  obtain ⟨hread, hselector⟩ := read_settled (List.cons_ne_nil _ _) hplain
  obtain ⟨_, hwhole, rfl⟩ := (hselector hchars ".k\\." "[0]" [.key "k."] hfront (by decide) hdot
    (.inr (.inr (by decide)))).exists_of_eq_ok hrest
  exact ⟨hplain, hread, hwhole⟩

end Filter

end PathQuery
