import PathQuery.Proofs.Path.Surroundings
import PathQuery.Proofs.Stages

/-!
# A dot before a bracket

What stands in a bracket can be written after a dot as well.

* Before a selector in brackets, a dot asks for a list. That is one step more, but a selector takes
  nothing but a list anyway, so the matches are the same.
* A placeholder can stand in brackets, or without them after a dot. Both are the same step.

The texts around are read alike in both spellings, and so the paths are.

Results:
1. `Walk.found_passthrough`: asking for a list before a selector changes no match.
2. `Path.result_readBody_dot`: a dot before a bracket is read as asking for a list.
3. `Path.result_readBody_placeholder`: both spellings of a placeholder.
4. `Engine.dot_before_bracket`: the spellings in a whole path.
-/

namespace PathQuery

/-! ## Asking for a list -/

/-- A selector takes nothing but a list, so it makes no difference to ask for one before it. -/
theorem Walk.found_passthrough (functions : Registry) (front back : List Step)
    (selector : Selector) (place : String) (value : Json) (bindings : Bindings) :
    found functions (front ++ .passthrough :: .select selector :: back) place value bindings =
      found functions (front ++ .select selector :: back) place value bindings := by
  rw [found_append, found_append]
  apply List.flatMap_congr
  intro m _
  rw [found_cons]
  cases m.value with
  | array items => exact List.append_nil _
  | _ =>
    -- Neither step leads out of a value that is no list.
    rw [found_cons]
    cases selector with
    | _ => rfl

namespace Path

variable {settings : Settings}

/-- A dot before a bracket is read as asking for a list. -/
theorem result_readBody_dot {text : String} {own : List Step}
    (hopen : text.toList.head? = some '[') (hread : (readBody settings text).result = .ok own) :
    (readBody settings ("." ++ text)).result = .ok (.passthrough :: own) := by
  obtain ⟨rest, hrest⟩ := List.head?_eq_some_iff.1 hopen
  have hchars : ("." ++ text).toList = '.' :: text.toList := String.toList_append
  have hglyphs : Glyph.ofChars text.toList = .plain '[' :: Glyph.ofChars rest := by
    rw [hrest]
    exact Glyph.ofChars_cons (by decide) rest
  have houtline : Outline.ofGlyphs (Glyph.ofChars ("." ++ text).toList) =
      (Outline.ofGlyphs (Glyph.ofChars text.toList)).after [.segment [], .passthrough] := by
    rw [hchars, Glyph.ofChars_cons (by decide), hglyphs, Outline.ofGlyphs, Outline.inSegment,
      if_pos rfl]
    rfl
  have hlexemes : Attempt.result ([Lexeme.segment [], .passthrough].mapM
      (readLexeme settings.functions)) = .ok [[], [.passthrough]] := rfl
  have hdangling : Glyph.isDangling text.toList = Glyph.isDangling ("." ++ text).toList := by
    rw [hchars, Glyph.isDangling_cons (by decide)]
  -- An error of the outline would show the body, so the two readings are only alike.
  rw [result_readBody_eq] at hread
  obtain ⟨_, hwhole, rfl⟩ := (alike_readOutline hdangling).exists_of_eq_ok hread
  rw [result_readBody_eq, houtline, readOutline_after hlexemes, hwhole]
  rfl

end Path

/-! ## Placeholders -/

namespace Segment

def ofPlaceholder (name : String) : String := "$\x7b" ++ (name ++ "\x7d")

/-- A name that can stand in a placeholder of either spelling. -/
structure IsPlaceholderName (name : String) : Prop where
  nonempty : name ≠ ""
  trimmed : Text.trim name = name
  plain : ∀ c ∈ ['.', '[', ']', '\\'], c ∉ name.toList

variable {name : String}

theorem toList_ofPlaceholder (name : String) :
    (ofPlaceholder name).toList = ('$' :: '\x7b' :: name.toList) ++ ['\x7d'] := by
  unfold ofPlaceholder
  rw [String.toList_append, String.toList_append]
  rfl

theorem trim_ofPlaceholder (name : String) :
    Text.trim (ofPlaceholder name) = ofPlaceholder name := by
  refine Text.trim_eq_self ?_ ?_
  · rw [toList_ofPlaceholder]
    rintro c ⟨⟩
    rfl
  · rw [toList_ofPlaceholder, List.getLast?_concat]
    rintro c ⟨⟩
    rfl

theorem IsPlaceholderName.not_mem (h : IsPlaceholderName name) {c : Char}
    (hc : c ∈ ['.', '[', ']', '\\']) : c ∉ (ofPlaceholder name).toList := by
  have hother : ∀ c ∈ ['.', '[', ']', '\\'], c ∉ ['$', '\x7b', '\x7d'] := by simp
  have hname := h.plain c hc
  have hc := hother c hc
  rw [toList_ofPlaceholder]
  simp only [List.mem_cons, List.mem_append, List.not_mem_nil, or_false, not_or] at hc ⊢
  exact ⟨⟨hc.1, hc.2.1, hname⟩, hc.2.2⟩

theorem IsPlaceholderName.placeholderName? (h : IsPlaceholderName name) :
    Segment.placeholderName? (ofPlaceholder name) = some name :=
  placeholderName?_eq_some_iff.2 ⟨name, rfl, h.trimmed⟩

end Segment

namespace Path

variable {functions : Registry} {name : String}

theorem placeholder_eq_ok (h : Segment.IsPlaceholderName name) (segment : String) :
    placeholder name segment = .ok (.placeholder name) := if_neg h.nonempty

/-- In a bracket a placeholder is one. -/
theorem spelled_bracket_placeholder (h : Segment.IsPlaceholderName name) :
    (Step.placeholder name).Spelled functions
      (.plain '[' :: ((Segment.ofPlaceholder name).toList.map .plain ++ [.plain ']'])) := by
  refine .bracket (h.not_mem (by decide)) ?_ ?_
  · intro front rest hcontent
    have hclosing : ']' ∉ (Segment.ofPlaceholder name).toList := h.not_mem (by decide)
    rw [hcontent] at hclosing
    exact absurd (List.mem_append_right _ List.mem_cons_self) hclosing
  · unfold readBracket
    rw [String.ofList_toList, Segment.trim_ofPlaceholder, h.placeholderName?,
      Attempt.result_ofExcept, placeholder_eq_ok h]

theorem readSegment_placeholder (h : Segment.IsPlaceholderName name) :
    readSegment functions ((Segment.ofPlaceholder name).toList.map .plain) =
      .ok [.placeholder name] := by
  have htext : textOf ((Segment.ofPlaceholder name).toList.map .plain) =
      Segment.ofPlaceholder name := by
    rw [textOf_plain, String.ofList_toList]
  have htrim : trimGlyphs ((Segment.ofPlaceholder name).toList.map .plain) =
      (Segment.ofPlaceholder name).toList.map .plain := by
    rw [Segment.toList_ofPlaceholder]
    refine Text.trimBy_eq_self ?_ ?_
    · rintro glyph ⟨⟩
      rfl
    · rw [List.map_append]
      intro glyph hglyph
      exact Option.some.inj (List.getLast?_concat.symm.trans hglyph) ▸ rfl
  have hquotes : Segment.ofPlaceholder name ≠ Segment.emptyKey := by
    intro heq
    have hchars := congrArg String.toList heq
    rw [Segment.toList_ofPlaceholder] at hchars
    cases hchars
  rw [readSegment_of_trimGlyphs functions htrim (by rw [Segment.toList_ofPlaceholder]; nofun)]
  unfold readName
  simp only [htext]
  rw [if_neg fun hempty => hquotes hempty.1, h.placeholderName?, Segment.toList_ofPlaceholder]
  show (placeholder name _).map _ = _
  rw [placeholder_eq_ok h]
  rfl

/-- So it is after a dot. -/
theorem spelled_segment_placeholder (h : Segment.IsPlaceholderName name) :
    (Step.placeholder name).Spelled functions
      (.plain '.' :: (Segment.ofPlaceholder name).toList.map .plain) := by
  have hplain {c : Char} (hc : c ∈ ['.', '[', ']', '\\']) :
      Glyph.plain c ∉ (Segment.ofPlaceholder name).toList.map .plain :=
    mt Glyph.plain_mem_map_iff.1 (h.not_mem hc)
  refine .segment ?_ (hplain (by decide)) (hplain (by decide)) (hplain (by decide)) ?_
    (readSegment_placeholder h)
  · rw [Segment.toList_ofPlaceholder]
    nofun
  · rw [Segment.toList_ofPlaceholder, List.map_append]
    intro glyph hglyph
    exact Option.some.inj (List.getLast?_concat.symm.trans hglyph) ▸ rfl

def bracketed (text : String) : String := "[" ++ (text ++ "]")

theorem toList_bracketed (text : String) :
    (bracketed text).toList = ('[' :: text.toList) ++ [']'] := by
  unfold bracketed
  rw [String.toList_append, String.toList_append]
  rfl

/-- Both spellings of a placeholder are read as this one step. -/
theorem result_readBody_placeholder (settings : Settings) (h : Segment.IsPlaceholderName name) :
    (readBody settings (bracketed (Segment.ofPlaceholder name))).result =
        .ok [.placeholder name] ∧
      (readBody settings ("." ++ Segment.ofPlaceholder name)).result =
        .ok [.placeholder name] := by
  constructor
  · refine result_readBody_spelled (.cons (spelled_bracket_placeholder h) .nil) ?_
    rw [List.flatten_singleton, toList_bracketed, Glyph.writeAll_bracket]
    rfl
  · refine result_readBody_spelled (.cons (spelled_segment_placeholder h) .nil) ?_
    rw [List.flatten_singleton, String.toList_append]
    exact congrArg ('.' :: ·) (Glyph.writeAll_plain _).symm

/-! ## In a path -/

theorem follows_bracketed (text : String) : Follows (bracketed text) := by
  refine .inr ?_
  rw [toList_bracketed]
  rfl

theorem ended_bracketed (text : String) : Ended (bracketed text) :=
  ended_of_toList (toList_bracketed text) (by decide)

/-- What ends in some way does so after a dot. -/
theorem ended_dot_append {text : String} {init : List Char} {c : Char}
    (htext : text.toList = init ++ [c]) (hc : c ≠ '.' ∧ c ≠ '\\' ∧ Text.isBlank c = false) :
    Ended ("." ++ text) := by
  have hchars : ("." ++ text).toList = ('.' :: init) ++ [c] := by
    rw [String.toList_append, htext]
    rfl
  exact ended_of_toList hchars hc

theorem follows_dot_append (text : String) : Follows ("." ++ text) := by
  refine .inl ?_
  rw [String.toList_append]
  rfl

variable {settings : Settings} {path rest : String} {steps : List Step}

/-- A bracket with a selector is read alike without a dot before it and with one, up to the step
that asks for a list. -/
theorem alike_read_dot (hread : (read settings path).result = .ok steps) (hend : Ended path)
    (hrest : rest = "" ∨ Follows rest) {text : String} {selector : Selector}
    (htext : (read settings ("$" ++ bracketed text)).result = .ok [.select selector]) :
    Alike (fun plain dotted => ∃ more, plain = steps ++ .select selector :: more ∧
        dotted = steps ++ .passthrough :: .select selector :: more)
      (read settings (path ++ (bracketed text ++ rest))).result
      (read settings (path ++ ("." ++ bracketed text ++ rest))).result := by
  rw [read_root_append (follows_bracketed text) (ended_bracketed text)] at htext
  have hopen : (bracketed text).toList.head? = some '[' := by
    rw [toList_bracketed]
    rfl
  have hplain := alike_read_between hread hend htext (follows_bracketed text)
    (ended_bracketed text) hrest
  have hdotted := alike_read_between hread hend (result_readBody_dot hopen htext)
    (follows_dot_append _) (ended_dot_append (toList_bracketed text) (by decide)) hrest
  exact hplain.common hdotted

/-- A placeholder is read alike in brackets and after a dot. -/
theorem alike_read_placeholder (hread : (read settings path).result = .ok steps)
    (hend : Ended path) (hrest : rest = "" ∨ Follows rest)
    (hname : Segment.IsPlaceholderName name) :
    Alike Eq (read settings (path ++ (bracketed (Segment.ofPlaceholder name) ++ rest))).result
      (read settings (path ++ ("." ++ Segment.ofPlaceholder name ++ rest))).result := by
  obtain ⟨hbracket, hsegment⟩ := result_readBody_placeholder settings hname
  have hplain := alike_read_between hread hend hbracket (follows_bracketed _) (ended_bracketed _)
    hrest
  have hdotted := alike_read_between hread hend hsegment (follows_dot_append _)
    (ended_dot_append (Segment.toList_ofPlaceholder name) (by decide)) hrest
  refine (hplain.common hdotted).imp ?_
  rintro plain dotted ⟨more, rfl, rfl⟩
  rfl

end Path

namespace Engine

open PathQuery.Path

/-- Let a path be accepted that ends in no dot, no blank and no escape, and let what follows be
nothing, or start with a dot or a bracket.

A selector in brackets may be written between them with a dot before it or without one: either both
paths are refused with errors of one kind, whatever they are searched in, or both have the same
matches in every document and under all bindings. A placeholder may be written there in brackets or
after a dot: either both paths are refused with errors of one kind, or they have the same steps.
None of this depends on what the engines have been asked before. -/
theorem dot_before_bracket (settings : Settings) (before before' : List Operation)
    {path rest : String} {steps : List Step}
    (hread : ((parse settings path).run.run (Operation.memoryAfter settings before)).1 = .ok steps)
    (hend : Ended path) (hrest : rest = "" ∨ Follows rest) :
    let parsed (before : List Operation) (path : String) :=
      ((parse settings path).run.run (Operation.memoryAfter settings before)).1
    let searched (before : List Operation) (path : String) (bindings : Bindings)
        (document : Json) :=
      ((findUnder settings bindings document path).run (Operation.memoryAfter settings before)).1.1
    (∀ text selector, parsed before ("$" ++ bracketed text) = .ok [.select selector] →
      (∃ error own, own.kind = error.kind ∧ ∀ bindings document,
        searched before (path ++ (bracketed text ++ rest)) bindings document = .error error ∧
        searched before' (path ++ ("." ++ bracketed text ++ rest)) bindings document =
          .error own) ∨
      ∀ bindings document, ∃ found,
        searched before (path ++ (bracketed text ++ rest)) bindings document = .ok found ∧
        searched before' (path ++ ("." ++ bracketed text ++ rest)) bindings document = .ok found) ∧
    ∀ name, Segment.IsPlaceholderName name →
      Alike Eq (parsed before (path ++ (bracketed (Segment.ofPlaceholder name) ++ rest)))
        (parsed before' (path ++ ("." ++ Segment.ofPlaceholder name ++ rest))) := by
  rw [Operation.run_parse_memoryAfter] at hread
  simp only [Operation.run_parse_memoryAfter, Operation.run_findUnder_memoryAfter]
  refine ⟨fun text selector htext => ?_, fun name hname =>
    alike_read_placeholder hread hend hrest hname⟩
  have halike := alike_read_dot hread hend hrest htext
  cases hplain : (read settings (path ++ (bracketed text ++ rest))).result with
  | error error =>
    obtain ⟨own, hdotted, hkind⟩ := halike.exists_of_eq_error hplain
    exact .inl ⟨error, own, hkind, fun bindings document =>
      ⟨matchesOf_of_error hplain bindings document, matchesOf_of_error hdotted bindings document⟩⟩
  | ok steps =>
    obtain ⟨_, hdotted, more, rfl, rfl⟩ := halike.exists_of_eq_ok hplain
    refine .inr fun bindings document => ⟨_, matchesOf_of_read hplain bindings document, ?_⟩
    rw [matchesOf_of_read hdotted, Walk.found_passthrough]

/-- A filter and a placeholder on rows, with a key after them. -/
theorem dot_before_bracket_of_rows :
    let settings : Settings := ⟨.default, .builtins⟩
    let before : List Operation := [.parse "$.rows[*]"]
    let parsed (path : String) :=
      ((parse settings path).run.run (Operation.memoryAfter settings before)).1
    let searched (path : String) (bindings : Bindings) (document : Json) :=
      ((findUnder settings bindings document path).run (Operation.memoryAfter settings before)).1.1
    parsed "$.rows" = .ok [.key "rows"] ∧ Ended "$.rows" ∧ Follows ".x" ∧
    parsed "$[?(@.a=1)]" = .ok [.select (.filter [⟨"a", .oneOf "1" ["1"]⟩])] ∧
    (∀ bindings document, ∃ found,
      searched "$.rows[?(@.a=1)].x" bindings document = .ok found ∧
      searched "$.rows.[?(@.a=1)].x" bindings document = .ok found) ∧
    Segment.IsPlaceholderName "row" ∧
    parsed "$.rows[$\x7brow\x7d].x" = .ok [.key "rows", .placeholder "row", .key "x"] ∧
    parsed "$.rows.$\x7brow\x7d.x" = .ok [.key "rows", .placeholder "row", .key "x"] := by
  intro settings before parsed searched
  have hparsed (path : String) : parsed path = (read settings path).result :=
    Operation.run_parse_memoryAfter settings before path
  have hread : parsed "$.rows" = .ok [.key "rows"] := by
    rw [hparsed]
    decide +kernel
  have hend : Ended "$.rows" :=
    ended_of_toList (show "$.rows".toList = "$.row".toList ++ ['s'] from rfl) (by decide)
  have hrest : Follows ".x" := .inl rfl
  have hfilter : parsed "$[?(@.a=1)]" =
      .ok [.select (.filter [⟨"a", .oneOf "1" ["1"]⟩])] := by
    rw [hparsed]
    decide +kernel
  have hname : Segment.IsPlaceholderName "row" := ⟨by decide, by decide, by simp⟩
  have hplain : parsed "$.rows[$\x7brow\x7d].x" =
      .ok [.key "rows", .placeholder "row", .key "x"] := by
    rw [hparsed]
    decide +kernel
  obtain ⟨hselector, hplaceholder⟩ :=
    dot_before_bracket settings before before hread hend (.inr hrest)
  obtain ⟨_, hdotted, rfl⟩ := (hplaceholder "row" hname).exists_of_eq_ok hplain
  refine ⟨hread, hend, hrest, hfilter, ?_, hname, hplain, hdotted⟩
  rcases hselector "?(@.a=1)" _ hfilter with ⟨error, own, -, hrefused⟩ | hfound
  · have haccepted : (read settings "$.rows[?(@.a=1)].x").result =
        .ok [.key "rows", .select (.filter [⟨"a", .oneOf "1" ["1"]⟩]), .key "x"] := by
      decide +kernel
    have herror : searched "$.rows[?(@.a=1)].x" .empty .null = .error error :=
      (hrefused .empty .null).1
    simp only [searched, Operation.run_findUnder_memoryAfter, matchesOf_of_read haccepted] at herror
    cases herror
  · exact hfound

end Engine

end PathQuery
