import PathQuery.Proofs.Path.FilterText
import PathQuery.Proofs.Path.Parts

/-!
# What escapes do in a path

The steps of a path are those of its parts. In a segment an escaped character is kept at either
end, it is never the dollar sign of a placeholder or a quote of the empty key, and an escaped
parenthesis is none of a call. So a segment that starts with an escaped character is a key; but a
call is told by its parentheses alone, and there the escape at the start is lost.

In a bracket escapes only keep a closing bracket from closing it. What the bracket spells, be it a
placeholder, a position, a range or a filter, is told by its text without them, and so is the value
of a clause.

Results:
1. `nameStep_of_readName`, `segmentSteps_of_readSegment`: the step of a segment, by its escapes.
2. `bracketStep_of_readBracket`: the step of a bracket, by its text.
3. `exists_steps_of_parts`: the steps of a path, part by part.
-/

namespace PathQuery

namespace Path

/-! ## Segments -/

/-- The step of a segment without the plain blanks around it, by the escapes in it. -/
inductive NameStep (glyphs : List Glyph) : Step → Prop
  | empty : glyphs = Segment.emptyKey.toList.map .plain → NameStep glyphs (.key "")
  | placeholder {name : String} {rest : List Glyph} : glyphs = .plain '$' :: rest →
      Segment.placeholderName? (textOf glyphs) = some name → NameStep glyphs (.placeholder name)
  | call {name : String} : Segment.callName? (textOf glyphs) = some name →
      hasEscaped glyphs ['(', ')'] = false → NameStep glyphs (.function name)
  | key : Segment.callName? (textOf glyphs) = none ∨ hasEscaped glyphs ['(', ')'] = true →
      NameStep glyphs (.key (textOf glyphs))

/-- Glyphs with the text of the empty key spell it, if neither quote is escaped. -/
theorem eq_plain_emptyKey {glyphs : List Glyph} (htext : textOf glyphs = Segment.emptyKey)
    (hescaped : hasEscaped glyphs ['\''] = false) :
    glyphs = Segment.emptyKey.toList.map .plain := by
  have hchars : glyphs.map Glyph.char = Segment.emptyKey.toList := by
    rw [← htext, textOf, String.toList_ofList]
  rw [← hchars, List.map_map]
  refine (List.map_id glyphs).symm.trans (List.map_congr_left fun glyph hglyph => ?_)
  have hquote : glyph.char ∈ Segment.emptyKey.toList := hchars ▸ List.mem_map_of_mem hglyph
  have hplain := List.any_eq_false.1 hescaped glyph hglyph
  obtain ⟨c, escaped⟩ := glyph
  obtain rfl : c = '\'' := by simpa [Segment.emptyKey] using hquote
  cases escaped with
  | false => rfl
  | true => exact absurd rfl hplain

/-- A placeholder starts with its dollar sign. -/
theorem exists_cons_of_placeholderName? {segment name : String}
    (h : Segment.placeholderName? segment = some name) : ∃ rest, segment.toList = '$' :: rest := by
  obtain ⟨inner, rfl, -⟩ := Segment.placeholderName?_eq_some_iff.1 h
  exact ⟨_, String.toList_append⟩

variable {functions : Registry} {glyphs : List Glyph} {step : Step}

theorem nameStep_of_readName (h : readName functions glyphs = .ok step) : NameStep glyphs step := by
  unfold readName at h
  simp only at h
  split at h
  · next hempty =>
    cases h
    exact .empty (eq_plain_emptyKey hempty.1 hempty.2)
  · split at h
    · next name hname =>
      obtain rfl := (gives_placeholder name _).of_eq_ok h
      obtain ⟨hstart, hname⟩ := Option.ite_none_left_eq_some.1 hname
      obtain ⟨rest, hrest⟩ := exists_cons_of_placeholderName? hname
      rw [textOf, String.toList_ofList] at hrest
      obtain ⟨⟨c, escaped⟩, more, rfl, rfl, -⟩ := List.map_eq_cons_iff.1 hrest
      obtain rfl : escaped = false := Bool.eq_false_iff.2 hstart
      exact .placeholder rfl hname
    · split at h
      · next name hname =>
        obtain ⟨hescaped, hname⟩ := Option.ite_none_left_eq_some.1 hname
        obtain ⟨known, hknown, rfl⟩ := exists_of_map_eq_ok h
        obtain ⟨rfl, -⟩ := (gives_knownFunction functions _).of_eq_ok hknown
        exact .call hname (Bool.eq_false_iff.2 hescaped)
      · next hnone =>
        cases h
        refine .key ?_
        split at hnone
        · next hescaped => exact .inr hescaped
        · exact .inl hnone

/-- An escaped character at the start makes a key of the segment, unless it ends in a call. -/
theorem NameStep.of_escaped (h : NameStep glyphs step) {c : Char} {rest : List Glyph}
    (hglyphs : glyphs = ⟨c, true⟩ :: rest) :
    step = .key (textOf glyphs) ∨ ∃ name, step = .function name ∧
      Segment.callName? (textOf glyphs) = some name ∧ hasEscaped glyphs ['(', ')'] = false := by
  cases h with
  | empty h =>
    rw [hglyphs] at h
    cases h
  | placeholder h _ =>
    rw [hglyphs] at h
    cases h
  | call hname hescaped => exact .inr ⟨_, rfl, hname, hescaped⟩
  | key _ => exact .inl rfl

/-- The steps of a segment. Plain blanks around it are dropped, and what is left is its name; if
that starts with an escaped character, it is a key or calls a function. -/
def SegmentSteps (glyphs : List Glyph) (steps : List Step) : Prop :=
  ∃ front name back, glyphs = front ++ name ++ back ∧
    (∀ glyph ∈ front ++ back, glyph.isPlainBlank = true) ∧
    (∀ glyph, name.head? = some glyph → glyph.isPlainBlank = false) ∧
    (∀ glyph, name.getLast? = some glyph → glyph.isPlainBlank = false) ∧
    (name = [] → steps = []) ∧
    (name ≠ [] → ∃ step, steps = [step] ∧ NameStep name step ∧
      ∀ c rest, name = ⟨c, true⟩ :: rest →
        step = .key (textOf name) ∨ ∃ function, step = .function function ∧
          Segment.callName? (textOf name) = some function ∧ hasEscaped name ['(', ')'] = false)

theorem segmentSteps_of_readSegment {steps : List Step}
    (h : readSegment functions glyphs = .ok steps) : SegmentSteps glyphs steps := by
  obtain ⟨front, back, hfront, hback, hglyphs⟩ :=
    Text.exists_append_trimBy Glyph.isPlainBlank glyphs
  obtain ⟨hstart, hend⟩ := Text.ends_trimBy Glyph.isPlainBlank glyphs
  refine ⟨front, trimGlyphs glyphs, back, hglyphs.symm, ?_, hstart, hend, ?_, ?_⟩
  · intro glyph hglyph
    exact (List.mem_append.1 hglyph).elim (hfront glyph) (hback glyph)
  · intro hnil
    unfold readSegment at h
    rw [hnil] at h
    exact (Except.ok.inj h).symm
  · intro hne
    rw [readSegment_of_trimGlyphs functions rfl hne] at h
    obtain ⟨step, hstep, h⟩ := exists_of_bind_eq_ok h
    cases h
    have hname := nameStep_of_readName hstep
    exact ⟨step, rfl, hname, fun c rest => hname.of_escaped⟩

/-! ## Brackets -/

/-- A clause shows its path and its value; the value is a placeholder if it looks like one. -/
def ClauseOf (text : String) (clause : Clause) : Prop :=
  ∃ path value, text = path ++ "=" ++ value ∧ '=' ∉ path.toList ∧
    clause = ⟨Text.trim path, Filter.conditionOf (Text.trim value)⟩

/-- The step of a bracket, by its trimmed text without escapes: a position or a range has no dollar
sign in it. -/
inductive BracketStep (text : String) : Step → Prop
  | placeholder {name : String} : Segment.placeholderName? text = some name →
      BracketStep text (.placeholder name)
  | index {position : Nat} : '$' ∉ text.toList → BracketStep text (.select (.index position))
  | range {start stop : Nat} : '$' ∉ text.toList → BracketStep text (.select (.range start stop))
  | filter {body : String} {clauses : List Clause} : text = "?(" ++ body ++ ")" →
      List.Forall₂ ClauseOf ((Text.split Filter.marker body).filterMap Filter.clauseText?) clauses →
      BracketStep text (.select (.filter clauses))

theorem not_mem_of_trim {s : String} {c : Char} (hc : Text.isBlank c = false)
    (h : c ∉ (Text.trim s).toList) : c ∉ s.toList := by
  obtain ⟨before, after, hbefore, hafter, hs⟩ :=
    Text.exists_append_trimBy Text.isBlank s.toList
  rw [← hs, ← Text.toList_trim]
  intro hmem
  rcases List.mem_append.1 hmem with hmem | hmem
  · rcases List.mem_append.1 hmem with hmem | hmem
    · exact Bool.false_ne_true (hc.symm.trans (hbefore c hmem))
    · exact h hmem
  · exact Bool.false_ne_true (hc.symm.trans (hafter c hmem))

/-- A position has digits and perhaps a plus sign. -/
theorem dollar_not_mem_of_readPosition {text content : String} {position : Nat}
    (h : readPosition text content = .ok position) : '$' ∉ text.toList := by
  unfold readPosition at h
  split at h
  · next n hposition =>
    obtain ⟨-, digits, htext, hnumeral⟩ := Text.position?_eq_some_iff.1 hposition
    have hdigits : '$' ∉ digits := fun hmem =>
      absurd ((Text.isNumeral_iff.1 hnumeral).2.1 _ hmem) (by decide)
    rcases htext with htext | htext
    · rw [htext]
      exact hdigits
    · rw [htext]
      exact List.not_mem_cons_of_ne_of_not_mem (by decide) hdigits
  · cases h

theorem rangeStep_of_readRange {content start stop : String} {selector : Selector}
    (h : readRange content start stop = .ok selector) :
    '$' ∉ start.toList ∧ '$' ∉ stop.toList ∧ ∃ first last, selector = .range first last := by
  have hdollar : Text.isBlank '$' = false := rfl
  unfold readRange at h
  simp only at h
  split at h
  · cases h
  · split at h
    · next hblank =>
      rw [pure_bind] at h
      obtain ⟨last, hlast, h⟩ := exists_of_bind_eq_ok h
      cases h
      refine ⟨not_mem_of_trim hdollar ?_,
        not_mem_of_trim hdollar (dollar_not_mem_of_readPosition hlast), 0, last, rfl⟩
      rw [hblank]
      exact List.not_mem_nil
    · obtain ⟨first, hfirst, h⟩ := exists_of_bind_eq_ok h
      obtain ⟨last, hlast, h⟩ := exists_of_bind_eq_ok h
      cases h
      exact ⟨not_mem_of_trim hdollar (dollar_not_mem_of_readPosition hfirst),
        not_mem_of_trim hdollar (dollar_not_mem_of_readPosition hlast), first, last, rfl⟩

theorem clauseOf_of_readClause {text : String} {clause : Clause}
    (h : (Filter.readClause functions text).result = .ok clause) : ClauseOf text clause := by
  unfold Filter.readClause at h
  cases hcut : Text.cutAt? '=' text with
  | none =>
    rw [hcut] at h
    cases h
  | some parts =>
    obtain ⟨path, value⟩ := parts
    obtain ⟨htext, hequals⟩ := Text.cutAt?_eq_some_iff.1 hcut
    rw [hcut] at h
    simp only at h
    split at h
    · cases h
    · simp only [Attempt.result_bind, Attempt.result_ofExcept, Attempt.result_pieces,
        Attempt.result_pure, ok_bind, Filter.result_readCondition] at h
      obtain ⟨_, -, h⟩ := exists_of_bind_eq_ok h
      cases h
      refine ⟨path, value, String.toList_inj.1 ?_, hequals, rfl⟩
      rw [htext]
      simp

theorem forall₂_of_result_mapM {α β : Type} {f : α → Attempt β} {as : List α} {bs : List β}
    (h : Attempt.result (as.mapM f) = .ok bs) :
    List.Forall₂ (fun a b => (f a).result = .ok b) as bs := by
  induction as generalizing bs with
  | nil =>
    cases h
    exact .nil
  | cons a as ih =>
    rw [Attempt.result_mapM_cons] at h
    obtain ⟨b, hb, h⟩ := exists_of_bind_eq_ok h
    obtain ⟨rest, hrest, h⟩ := exists_of_bind_eq_ok h
    cases h
    exact .cons hb (ih hrest)

theorem forall₂_clauseOf {body : String} {clauses : List Clause}
    (h : (Filter.readClauses functions body).result = .ok clauses) :
    List.Forall₂ ClauseOf
      ((Text.split Filter.marker body).filterMap Filter.clauseText?) clauses := by
  unfold Filter.readClauses at h
  split at h
  · cases h
  · simp only [Attempt.result_bind, Attempt.result_pieces, ok_bind] at h
    obtain ⟨read, hread, h⟩ := exists_of_bind_eq_ok h
    split at h
    · cases h
    · cases h
      exact (forall₂_of_result_mapM hread).imp fun _ _ => clauseOf_of_readClause

theorem bracketStep_of_readSelector {text : String} {selector : Selector}
    (h : (readSelector functions text).result = .ok selector) :
    BracketStep text (.select selector) := by
  unfold readSelector at h
  split at h
  · cases h
  · split at h
    · next rest hrest =>
      split at h
      · cases h
      · next body hbody =>
        rw [Attempt.result_map] at h
        obtain ⟨clauses, hclauses, rfl⟩ := exists_of_map_eq_ok h
        refine .filter ?_ (forall₂_clauseOf hclauses)
        rw [Text.afterPrefix?_eq_some_iff.1 hrest, Text.beforeSuffix?_eq_some_iff.1 hbody,
          String.append_assoc]
    · split at h
      · next start stop hcut =>
        rw [Attempt.result_ofExcept] at h
        obtain ⟨hstart, hstop, first, last, rfl⟩ := rangeStep_of_readRange h
        refine .range ?_
        rw [(Text.cutAt?_eq_some_iff.1 hcut).1, List.mem_append, not_or]
        exact ⟨hstart, List.not_mem_cons_of_ne_of_not_mem (by decide) hstop⟩
      · rw [Attempt.result_ofExcept] at h
        obtain ⟨position, hposition, rfl⟩ := exists_of_map_eq_ok h
        exact .index (dollar_not_mem_of_readPosition hposition)

theorem bracketStep_of_readBracket {content : String}
    (h : (readBracket functions content).result = .ok step) :
    BracketStep (Text.trim content) step := by
  unfold readBracket at h
  split at h
  · next name hname =>
    obtain rfl := (gives_placeholder name content).of_eq_ok h
    exact .placeholder hname
  · rw [Attempt.result_map] at h
    obtain ⟨selector, hselector, rfl⟩ := exists_of_map_eq_ok h
    exact bracketStep_of_readSelector hselector

/-- So a dollar sign at the start of a bracket makes a placeholder, escaped or not. -/
theorem BracketStep.of_dollar {text : String} (h : BracketStep text step)
    (hdollar : text.toList.head? = some '$') :
    ∃ name, step = .placeholder name ∧ Segment.placeholderName? text = some name := by
  have hmem : '$' ∈ text.toList := List.mem_of_head? hdollar
  cases h with
  | placeholder hname => exact ⟨_, rfl, hname⟩
  | index hnot => exact absurd hmem hnot
  | range hnot => exact absurd hmem hnot
  | filter htext _ =>
    rw [htext, String.toList_append, String.toList_append] at hdollar
    cases hdollar

/-! ## Paths -/

def PartSteps : Part → List Step → Prop
  | .segment glyphs, steps => SegmentSteps glyphs steps
  | .passthrough, steps => steps = [.passthrough]
  | .bracket content, steps =>
    ∃ step, steps = [step] ∧ BracketStep (Text.trim (textOf content)) step ∧
      ((Text.trim (textOf content)).toList.head? = some '$' → ∃ name, step = .placeholder name)

theorem partSteps_of_readLexeme {part : Part} {steps : List Step}
    (h : (readLexeme functions part.lexeme).result = .ok steps) : PartSteps part steps := by
  cases part with
  | segment glyphs => exact segmentSteps_of_readSegment h
  | passthrough => exact (Except.ok.inj h).symm
  | bracket content =>
    rw [Part.lexeme, readLexeme, Attempt.result_bind] at h
    obtain ⟨step, hstep, h⟩ := exists_of_bind_eq_ok h
    cases h
    have hbracket := bracketStep_of_readBracket hstep
    refine ⟨step, rfl, hbracket, fun hdollar => ?_⟩
    obtain ⟨name, hname, -⟩ := hbracket.of_dollar hdollar
    exact ⟨name, hname⟩

/-- A path that can be read is a dollar sign and a body, with blanks around them of which none is
escaped. The body is made of parts, and the steps of the path are those of its parts. -/
theorem exists_steps_of_parts {settings : Settings} {path : String} {steps : List Step}
    (hread : (read settings path).result = .ok steps) :
    ∃ front gap body back : List Char,
      path.toList = front ++ '$' :: (gap ++ (body ++ back)) ∧
      (∀ c ∈ front ++ gap ++ back, Text.isBlank c = true) ∧
      (Glyph.isDangling body = true → back = []) ∧
      (∃ parts, Outline.Divides (Glyph.ofChars body) parts) ∧
      ∀ parts, Outline.Divides (Glyph.ofChars body) parts →
        ∃ pieces, List.Forall₂ PartSteps parts pieces ∧ steps = pieces.flatten := by
  rw [read_eq] at hread
  cases hbody : body? path.toList with
  | none =>
    rw [hbody] at hread
    cases hread
  | some body =>
    rw [hbody] at hread
    simp only [result_readBody_eq, String.toList_ofList] at hread
    obtain ⟨front, gap, back, hpath, hblank, hdangling⟩ := exists_surrounded hbody
    obtain ⟨last, pieces, hending, hpieces, rfl⟩ := exists_parts_of_readOutline hread
    refine ⟨front, gap, body, back, hpath, hblank, hdangling, Outline.exists_divides hending, ?_⟩
    intro parts hparts
    obtain ⟨last', hending', hlexemes⟩ := hparts.outline
    obtain rfl : last' = last := Ending.segment.inj (hending'.symm.trans hending)
    rw [hlexemes] at hpieces
    have hread := List.forall₂_map_left_iff.1 (forall₂_of_result_mapM hpieces)
    exact ⟨pieces, hread.imp fun _ _ => partSteps_of_readLexeme, rfl⟩

/-- A key between escaped blanks, the last of them at the end of the path. -/
theorem exists_steps_of_parts_of_blanks :
    ∃ front gap body back : List Char,
      " $.\\ a\\ ".toList = front ++ '$' :: (gap ++ (body ++ back)) ∧
      (∀ c ∈ front ++ gap ++ back, Text.isBlank c = true) ∧
      (Glyph.isDangling body = true → back = []) ∧
      (∃ parts, Outline.Divides (Glyph.ofChars body) parts) ∧
      ∀ parts, Outline.Divides (Glyph.ofChars body) parts →
        ∃ pieces, List.Forall₂ PartSteps parts pieces ∧ [Step.key " a "] = pieces.flatten := by
  have hread : (read ⟨.default, .builtins⟩ " $.\\ a\\ ").result = .ok [.key " a "] := by
    decide +kernel
  exact exists_steps_of_parts hread

/-- The escape at the start of a call is lost, be it that of a blank, and so is the escape of a
dollar sign in a bracket or in a clause. -/
theorem read_escaped_start :
    let settings : Settings := ⟨.default, .builtins⟩
    Outline.Divides (Glyph.ofChars ".\\length()".toList)
      [.segment [], .segment (⟨'l', true⟩ :: "ength()".toList.map .plain)] ∧
    (read settings "$.\\length()").result = .ok [.function "length"] ∧
    (read settings "$.\\ length()").result = .ok [.function "length"] ∧
    (read settings "$[\\$\x7bx\x7d]").result = .ok [.placeholder "x"] ∧
    (read settings "$[?(@.a=\\$\x7bx\x7d)]").result =
      .ok [.select (.filter [⟨"a", .bind "x"⟩])] := by
  intro settings
  have hname : Outline.Unbroken (⟨'l', true⟩ :: "ength()".toList.map .plain) := by decide
  have hempty : Outline.Unbroken [] := by decide
  refine ⟨Outline.Divides.dot hempty (.last hname), ?_, ?_, ?_, ?_⟩
  · decide +kernel
  · decide +kernel
  · decide +kernel
  · decide +kernel

end Path

end PathQuery
