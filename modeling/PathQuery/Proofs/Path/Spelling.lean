import PathQuery.Proofs.Path.Escaping
import PathQuery.Proofs.Text.Numeral
import PathQuery.Proofs.Text.Pieces

/-!
# The spelling of functions and positions

Names of functions and positions are written without escapes. Positions are made of digits, and so
are most names of letters and digits. These have no meaning of their own and are no blanks, so they
are read as they stand. `Segment.Callable` says of any name whether it can stand in a path.

Results:
1. `readSegment_call`: a name with parentheses is read as the function, if it is registered.
2. `readBracket_position`: a position in brackets selects the element there.
-/

namespace PathQuery

/-! ## Functions -/

/-- The name of a function as it is written in a path: letters and digits. -/
def Segment.IsName (name : String) : Prop :=
  name ≠ "" ∧ ∀ c ∈ name.toList, c.isAlphanum = true

theorem Segment.isName_of_all {name : String} (hne : name ≠ "")
    (h : name.toList.all Char.isAlphanum = true) : IsName name :=
  ⟨hne, List.all_eq_true.1 h⟩

/-- A name that can be called in a path: no character of it ends it before its parentheses, and it
has no blanks at its ends. -/
structure Segment.Callable (name : String) : Prop where
  trimmed : Text.trim name = name
  plain : ∀ c ∈ ['\\', '.', '[', '('], c ∉ name.toList

/-- A name that is not empty and has only letters and digits can be called. -/
theorem Segment.IsName.callable {name : String} (h : IsName name) : Callable name where
  trimmed := Text.trim_eq_self
    (fun c hc => Text.isBlank_of_isAlphanum (h.2 c (List.mem_of_head? hc)))
    (fun c hc => Text.isBlank_of_isAlphanum (h.2 c (List.mem_of_getLast? hc)))
  plain c hc hmem := by
    have hother : ∀ c ∈ ['\\', '.', '[', '('], c.isAlphanum = false := by simp
    exact Text.ne_of_isAlphanum (h.2 c hmem) (hother c hc) rfl

def Glyph.ofCall (name : String) : List Glyph := (name.toList ++ ['(', ')']).map plain

theorem Glyph.ofCall_ne_nil (name : String) : ofCall name ≠ [] := by
  unfold ofCall
  rw [List.map_append]
  exact List.append_ne_nil_of_right_ne_nil _ (List.cons_ne_nil _ _)

namespace Path

variable {functions : Registry} {name : String}

theorem callName?_call (hname : Segment.Callable name) :
    Segment.callName? (name ++ "()") = some name := by
  have hnone : ∀ c ∈ ([] : List Char), Text.isBlank c = true := List.forall_mem_nil _
  have hspells := Segment.SpellsCall.call hnone hname.trimmed (hname.plain '(' (by decide))
    hnone hnone hnone
  refine Segment.callName?_eq_some_iff.2 ?_
  rw [String.toList_append]
  simpa using hspells

/-- A call is no placeholder, as it does not end in a brace. -/
theorem placeholderName?_call (name : String) :
    Segment.placeholderName? (name ++ "()") = none := by
  refine Segment.placeholderName?_eq_none_of_getLast? ?_
  rw [String.toList_append, List.getLast?_append]
  exact fun h => absurd (Option.some.inj h) (by decide)

theorem hasEscaped_plain (cs wanted : List Char) :
    hasEscaped (cs.map Glyph.plain) wanted = false := by
  unfold hasEscaped
  rw [List.any_map, List.any_eq_false]
  exact fun _ _ => Bool.false_ne_true

theorem textOf_plain (cs : List Char) : textOf (cs.map Glyph.plain) = String.ofList cs := by
  unfold textOf
  rw [List.map_map]
  exact congrArg String.ofList (List.map_id cs)

theorem readName_call (hname : Segment.Callable name) (hknown : functions.contains name = true) :
    readName functions (Glyph.ofCall name) = .ok (.function name) := by
  have htext : textOf (Glyph.ofCall name) = name ++ "()" := by
    rw [Glyph.ofCall, textOf_plain, String.ofList_append, String.ofList_toList]
  have hquotes : name ++ "()" ≠ Segment.emptyKey := by
    intro heq
    have hlast := congrArg (fun text => text.toList.getLast?) heq
    simp [Segment.emptyKey] at hlast
  unfold readName
  simp only [htext]
  rw [if_neg fun h => hquotes h.1, placeholderName?_call, ite_self]
  rw [Glyph.ofCall, hasEscaped_plain, if_neg Bool.false_ne_true, callName?_call hname]
  show Step.function <$> Filter.knownFunction functions name = _
  rw [Filter.knownFunction, if_pos hknown]
  rfl

theorem trimGlyphs_call (hname : Segment.Callable name) :
    trimGlyphs (Glyph.ofCall name) = Glyph.ofCall name := by
  unfold Glyph.ofCall
  rw [List.map_append]
  refine Text.trimBy_eq_self ?_ ?_
  · intro glyph hglyph
    rw [List.head?_append, List.head?_map] at hglyph
    cases hhead : name.toList.head? with
    | none =>
      rw [hhead] at hglyph
      exact Option.some.inj hglyph ▸ rfl
    | some c =>
      rw [hhead] at hglyph
      exact Option.some.inj hglyph ▸ (Text.ends_of_trim_eq hname.trimmed).1 c hhead
  · intro glyph hglyph
    rw [List.getLast?_append] at hglyph
    exact Option.some.inj hglyph ▸ rfl

/-- A name with parentheses is read as the function. -/
theorem readSegment_call (hname : Segment.Callable name)
    (hknown : functions.contains name = true) :
    readSegment functions (Glyph.ofCall name) = .ok [.function name] := by
  rw [readSegment_of_trimGlyphs functions (trimGlyphs_call hname) (Glyph.ofCall_ne_nil name),
    readName_call hname hknown]
  rfl

end Path

/-! ## Positions -/

/-- A position in brackets selects the element there. -/
theorem Path.readBracket_position (functions : Registry) {k : Nat} (hk : k < UInt64.size) :
    (readBracket functions (toString k)).result = .ok (.select (.index k)) := by
  obtain ⟨c, rest, hdigits⟩ := Text.exists_cons_toString k
  have halpha (d : Char) (hd : d ∈ (toString k).toList) : d.isAlphanum = true :=
    Text.isAlphanum_of_isDigit (Text.isDigit_of_mem_toString hd)
  have hhead {d : Char} (hd : d.isAlphanum = false) : (toString k).toList.head? ≠ some d := by
    intro h
    exact Text.ne_of_isAlphanum (halpha d (List.mem_of_head? h)) hd rfl
  have hplaceholder : Segment.placeholderName? (toString k) = none :=
    Segment.placeholderName?_eq_none (hhead rfl)
  have hwildcard : toString k ≠ "*" := by
    intro h
    exact hhead (d := '*') rfl (h ▸ rfl)
  have hfilter : Text.afterPrefix? "?(" (toString k) = none := by
    cases hopened : Text.afterPrefix? "?(" (toString k) with
    | none => rfl
    | some text =>
      refine absurd ?_ (hhead (d := '?') rfl)
      rw [Text.afterPrefix?_eq_some_iff.1 hopened, String.toList_append]
      rfl
  have hrange : Text.cutAt? ':' (toString k) = none := by
    refine Text.cutAt?_eq_none_iff.2 fun hmem => ?_
    exact absurd rfl (Text.ne_of_isAlphanum (halpha ':' hmem) rfl)
  unfold readBracket
  rw [Text.trim_toString, hplaceholder, Attempt.result_map, readSelector, if_neg hwildcard, hfilter,
    hrange, Attempt.result_ofExcept, readPosition, Text.position?_toString hk]
  rfl

end PathQuery
