import PathQuery.Proofs.Path.PartSteps
import PathQuery.Proofs.Session.Transparency

/-!
# The names of placeholders

A placeholder is found in three places: it is a segment, the content of a bracket, or the value of a
clause. Blanks around its name are dropped everywhere. A segment or a bracket without a name is
refused. The value of a clause is not looked at so: if it has no name, the clause binds the empty
one.

Results:
1. `exists_lexemes_of_read`: each step of a path is read from one of its lexemes.
2. `result_readLexeme_nameless`, `exists_error_of_nameless`: a segment or a bracket without a name
   is refused, and so is the body around it.
3. `result_readClause_bind_iff`: a clause with a placeholder is accepted for the sake of its path.
4. `Engine.parse_placeholders`: the names in a path.
-/

namespace PathQuery

/-! ## Lexemes with an end -/

def Outline.all (outline : Outline) : List Lexeme :=
  outline.lexemes ++
    match outline.ending with
    | .segment glyphs => [.segment glyphs]
    | .bracket => []

namespace Path

/-! ## Reading one after the other -/

section Rules

variable {α β : Type} {f : α → Attempt β} {as : List α}

theorem exists_of_mem_forall₂ {R : α → β → Prop} {bs : List β} (h : List.Forall₂ R as bs) {b : β}
    (hb : b ∈ bs) : ∃ a ∈ as, R a b := by
  induction h with
  | nil => cases hb
  | @cons a c as bs ha _ ih =>
    rcases List.mem_cons.1 hb with rfl | hb
    · exact ⟨a, List.mem_cons_self, ha⟩
    · obtain ⟨own, hown, hrelated⟩ := ih hb
      exact ⟨own, List.mem_cons_of_mem _ hown, hrelated⟩

/-- What cannot be read makes the whole fail, with its own error if it comes first. -/
theorem exists_error_of_mapM {a : α} {error : QueryError} (h : (f a).result = .error error)
    (front back : List α) :
    ∃ own, Attempt.result ((front ++ a :: back).mapM f) = .error own ∧
      ((∀ earlier ∈ front, ∃ b, (f earlier).result = .ok b) → own = error) := by
  induction front with
  | nil =>
    refine ⟨error, ?_, fun _ => rfl⟩
    rw [List.nil_append, Attempt.result_mapM_cons, h]
    rfl
  | cons first front ih =>
    obtain ⟨own, hown, hsame⟩ := ih
    rw [List.cons_append, Attempt.result_mapM_cons, hown]
    cases hfirst : (f first).result with
    | error error =>
      refine ⟨error, rfl, fun hfront => ?_⟩
      obtain ⟨b, hb⟩ := hfront first List.mem_cons_self
      rw [hfirst] at hb
      cases hb
    | ok b =>
      exact ⟨own, rfl, fun hfront => hsame (List.forall_mem_cons.1 hfront).2⟩

end Rules

variable {settings : Settings} {functions : Registry} {steps : List Step} {step : Step}

inductive ReadFrom (functions : Registry) : Step → Lexeme → Prop
  | segment {step : Step} {glyphs : List Glyph} :
      readName functions (trimGlyphs glyphs) = .ok step → ReadFrom functions step (.segment glyphs)
  | passthrough : ReadFrom functions .passthrough .passthrough
  | bracket {step : Step} {content : List Char} :
      (readBracket functions (String.ofList content)).result = .ok step →
      ReadFrom functions step (.bracket content)

theorem readFrom_of_mem {lexeme : Lexeme} {own : List Step}
    (h : (readLexeme functions lexeme).result = .ok own) (hstep : step ∈ own) :
    ReadFrom functions step lexeme := by
  cases lexeme with
  | segment glyphs =>
    have hsegment : readSegment functions glyphs = .ok own := h
    unfold readSegment at hsegment
    split at hsegment
    · cases hsegment
      cases hstep
    · obtain ⟨name, hname, rfl⟩ := exists_of_map_eq_ok hsegment
      obtain rfl := List.mem_singleton.1 hstep
      exact .segment hname
  | passthrough =>
    cases h
    obtain rfl := List.mem_singleton.1 hstep
    exact .passthrough
  | bracket content =>
    rw [readLexeme, Attempt.result_bind] at h
    obtain ⟨own, hown, h⟩ := exists_of_bind_eq_ok h
    cases h
    obtain rfl := List.mem_singleton.1 hstep
    exact .bracket hown

/-- The lexemes of a path, if it starts with a dollar sign. -/
def lexemes? (path : String) : Option (List Lexeme) :=
  (body? path.toList).map fun body => (Outline.ofGlyphs (Glyph.ofChars body)).all

theorem exists_body_of_lexemes? {path : String} {lexemes : List Lexeme}
    (h : lexemes? path = some lexemes) :
    ∃ body, (Outline.ofGlyphs (Glyph.ofChars body.toList)).all = lexemes ∧
      ∀ settings, read settings path = readBody settings body := by
  obtain ⟨body, hbody, rfl⟩ := Option.map_eq_some_iff.1 h
  refine ⟨String.ofList body, ?_, fun settings => ?_⟩
  · rw [String.toList_ofList]
  · rw [read_eq, hbody]

/-- Each step of a path is read from one of its lexemes. -/
theorem exists_lexemes_of_read {path : String} (hread : (read settings path).result = .ok steps) :
    ∃ lexemes, lexemes? path = some lexemes ∧
      ∀ step ∈ steps, ∃ lexeme ∈ lexemes, ReadFrom settings.functions step lexeme := by
  rw [read_eq] at hread
  cases hbody : body? path.toList with
  | none =>
    rw [hbody] at hread
    cases hread
  | some body =>
    simp only [hbody, result_readBody_eq, String.toList_ofList] at hread
    obtain ⟨last, parts, hending, hparts, rfl⟩ := exists_parts_of_readOutline hread
    refine ⟨_, congrArg (Option.map _) hbody, fun step hstep => ?_⟩
    obtain ⟨own, hown, hstep⟩ := List.mem_flatten.1 hstep
    obtain ⟨lexeme, hlexeme, hread⟩ := exists_of_mem_forall₂ (forall₂_of_result_mapM hparts) hown
    refine ⟨lexeme, ?_, readFrom_of_mem hread hstep⟩
    show lexeme ∈ (Outline.ofGlyphs (Glyph.ofChars body)).all
    rw [Outline.all, hending]
    exact hlexeme

/-! ## Names -/

theorem trim_of_placeholderName? {segment name : String}
    (h : Segment.placeholderName? segment = some name) : Text.trim name = name := by
  obtain ⟨inner, -, rfl⟩ := Segment.placeholderName?_eq_some_iff.1 h
  exact Text.trim_trim inner

theorem placeholder_eq_ok_iff {name segment : String} :
    placeholder name segment = .ok step ↔ name ≠ "" ∧ step = .placeholder name := by
  unfold placeholder
  split
  · next hempty => exact ⟨nofun, fun h => absurd hempty h.1⟩
  · next hname =>
    exact ⟨fun h => ⟨hname, (Except.ok.inj h).symm⟩, fun h => congrArg Except.ok h.2.symm⟩

/-- A placeholder that is read from a segment has a name. -/
theorem named_of_readName {glyphs : List Glyph} {name : String}
    (h : readName functions glyphs = .ok (.placeholder name)) :
    name ≠ "" ∧ Text.trim name = name := by
  unfold readName at h
  simp only at h
  split at h
  · cases h
  · split at h
    · next inner hinner =>
      obtain ⟨hname, ⟨⟩⟩ := placeholder_eq_ok_iff.1 h
      exact ⟨hname, trim_of_placeholderName? (Option.ite_none_left_eq_some.1 hinner).2⟩
    · split at h
      · obtain ⟨known, -, h⟩ := exists_of_map_eq_ok h
        cases h
      · cases h

/-- So has one that is read from a bracket. -/
theorem named_of_readBracket {content name : String}
    (h : (readBracket functions content).result = .ok (.placeholder name)) :
    name ≠ "" ∧ Text.trim name = name := by
  unfold readBracket at h
  split at h
  · next inner hinner =>
    obtain ⟨hname, ⟨⟩⟩ := placeholder_eq_ok_iff.1 h
    exact ⟨hname, trim_of_placeholderName? hinner⟩
  · rw [Attempt.result_map] at h
    obtain ⟨selector, -, h⟩ := exists_of_map_eq_ok h
    cases h

theorem ReadFrom.named {lexeme : Lexeme} {name : String}
    (h : ReadFrom functions (.placeholder name) lexeme) : name ≠ "" ∧ Text.trim name = name := by
  cases h with
  | segment hname => exact named_of_readName hname
  | bracket hbracket => exact named_of_readBracket hbracket

end Path

/-! ## Without a name -/

/-- A segment or a bracket is a placeholder without a name, with this text. -/
inductive Lexeme.Nameless : Lexeme → String → Prop
  | segment {glyphs : List Glyph} : (Path.trimGlyphs glyphs).head? = some (.plain '$') →
      Segment.placeholderName? (Path.textOf (Path.trimGlyphs glyphs)) = some "" →
      Nameless (.segment glyphs) (Path.textOf (Path.trimGlyphs glyphs))
  | bracket {content : List Char} :
      Segment.placeholderName? (Text.trim (String.ofList content)) = some "" →
      Nameless (.bracket content) (String.ofList content)

/-- It does not end in a backslash. -/
theorem Lexeme.not_nameless_concat {init : List Glyph} {text : String} :
    ¬ Nameless (.segment (init ++ [.plain '\\'])) text := by
  rintro (⟨-, hname⟩ | -)
  rw [Path.trimGlyphs_concat rfl, Segment.placeholderName?_eq_none_of_getLast?] at hname
  · cases hname
  · rw [Path.textOf, String.toList_ofList, List.map_append, List.map_singleton,
      List.getLast?_concat]
    exact fun h => absurd (Option.some.inj h) (by decide)

namespace Path

theorem result_readLexeme_nameless {lexeme : Lexeme} {text : String} (h : lexeme.Nameless text) :
    (readLexeme functions lexeme).result = .error (.namelessPlaceholder text) := by
  cases h with
  | @segment glyphs hstart hname =>
    obtain ⟨rest, hglyphs⟩ := List.head?_eq_some_iff.1 hstart
    have hquotes : textOf (trimGlyphs glyphs) ≠ Segment.emptyKey := by
      intro heq
      rw [heq] at hname
      cases hname
    have hread : readName functions (trimGlyphs glyphs) =
        .error (.namelessPlaceholder (textOf (trimGlyphs glyphs))) := by
      unfold readName
      simp only
      rw [if_neg fun hempty => hquotes hempty.1, hname, hglyphs]
      rfl
    show readSegment functions glyphs = _
    rw [readSegment_of_trimGlyphs functions rfl (hglyphs ▸ List.cons_ne_nil _ _), hread]
    rfl
  | bracket hname =>
    rw [readLexeme, Attempt.result_bind, readBracket, hname]
    rfl

variable {body : String}

/-- Without an escape that has no character, the steps of an outline are those of all its
lexemes. -/
theorem readOutline_eq_map_flatten {outline : Outline} {last : List Glyph}
    (hending : outline.ending = .segment last) (hdangling : Glyph.isDangling body.toList = false) :
    readOutline settings body outline =
      List.flatten <$> Attempt.result (outline.all.mapM (readLexeme settings.functions)) := by
  have hlast : (readEnding settings.functions body (.segment last)).result =
      (readLexeme settings.functions (.segment last)).result := rfl
  unfold readOutline Outline.all
  rw [hending, result_readDangling settings.options hdangling, hlast, List.mapM_append]
  simp only [Attempt.result_bind, Attempt.result_mapM_cons]
  cases Attempt.result (outline.lexemes.mapM (readLexeme settings.functions)) with
  | error error => rfl
  | ok parts =>
    cases (readLexeme settings.functions (.segment last)).result with
    | error error => rfl
    | ok own =>
      have hflatten : (parts ++ [own]).flatten = parts.flatten ++ own := by simp
      exact congrArg Except.ok hflatten.symm

/-- A body with an escape that has no character ends in a plain backslash. -/
theorem exists_of_isDangling {cs : List Char} (h : Glyph.isDangling cs = true) :
    ∃ front, Glyph.ofChars cs = front ++ [.plain '\\'] := by
  obtain ⟨glyphs, hglyphs, rfl | rfl⟩ := Glyph.exists_writeAll cs
  · rw [Glyph.isDangling_writeAll hglyphs] at h
    cases h
  · exact ⟨glyphs, Glyph.ofChars_writeAll_append hglyphs _⟩

/-- The segment at its end then ends in this backslash, so it is no placeholder. -/
theorem not_nameless_of_isDangling {cs : List Char} (hdangling : Glyph.isDangling cs = true)
    {last : List Glyph} (hending : (Outline.ofGlyphs (Glyph.ofChars cs)).ending = .segment last)
    {text : String} : ¬ (Lexeme.segment last).Nameless text := by
  have hplain {c : Char} (hc : c ≠ '\\') : Glyph.plain '\\' ≠ .plain c :=
    Glyph.backslash_ne hc false
  obtain ⟨glyphs, hglyphs⟩ := exists_of_isDangling hdangling
  rw [hglyphs] at hending
  obtain ⟨init, rfl⟩ := (Outline.exists_of_ending_concat (hplain (by decide))
    (hplain (by decide)) (hplain (by decide)) glyphs).1 [] last hending
  exact Lexeme.not_nameless_concat

/-- A segment or a bracket without a name makes the body fail. If what comes before it can be read,
this is the error. -/
theorem exists_error_of_nameless {front back : List Lexeme} {lexeme : Lexeme} {text : String}
    (hall : (Outline.ofGlyphs (Glyph.ofChars body.toList)).all = front ++ lexeme :: back)
    (h : lexeme.Nameless text) :
    ∃ error, (readBody settings body).result = .error error ∧
      ((∀ earlier ∈ front, ∃ own, (readLexeme settings.functions earlier).result = .ok own) →
        error = .namelessPlaceholder text) := by
  have hrefused : (readLexeme settings.functions lexeme).result =
      .error (.namelessPlaceholder text) := result_readLexeme_nameless h
  have hlast {last : List Glyph} (hdangling : Glyph.isDangling body.toList = true)
      (hending : (Outline.ofGlyphs (Glyph.ofChars body.toList)).ending = .segment last) :
      lexeme ≠ .segment last :=
    fun heq => not_nameless_of_isDangling hdangling hending (heq ▸ h)
  rw [result_readBody_eq]
  generalize Outline.ofGlyphs (Glyph.ofChars body.toList) = outline at hall hlast ⊢
  -- All lexemes but a segment at the end are read before anything else is looked at.
  have hbefore {others : List Lexeme} (hlexemes : outline.lexemes = front ++ lexeme :: others) :
      ∃ error, readOutline settings body outline = .error error ∧
        ((∀ earlier ∈ front, ∃ own, (readLexeme settings.functions earlier).result = .ok own) →
          error = .namelessPlaceholder text) := by
    obtain ⟨error, herror, hsame⟩ := exists_error_of_mapM hrefused front others
    refine ⟨error, ?_, hsame⟩
    unfold readOutline
    rw [hlexemes, herror]
    rfl
  cases hending : outline.ending with
  | bracket =>
    rw [Outline.all, hending, List.append_nil] at hall
    exact hbefore hall
  | segment last =>
    cases hdangling : Glyph.isDangling body.toList with
    | false =>
      obtain ⟨error, herror, hsame⟩ := exists_error_of_mapM hrefused front back
      refine ⟨error, ?_, hsame⟩
      rw [readOutline_eq_map_flatten hending hdangling, hall, herror]
      rfl
    | true =>
      rw [Outline.all, hending] at hall
      rcases List.eq_nil_or_concat back with rfl | ⟨others, other, rfl⟩
      · obtain ⟨-, hown⟩ := List.append_inj' hall rfl
        exact absurd (List.cons.inj hown).1.symm (hlast hdangling hending)
      · rw [List.concat_eq_append, ← List.cons_append, ← List.append_assoc] at hall
        exact hbefore (List.append_inj' hall rfl).1

/-! ## Clauses -/

/-- A clause whose value is a placeholder is accepted for the sake of its path alone. Its name is
not looked at, so it may be empty. -/
theorem result_readClause_bind_iff {path value name : String} (hpath : '=' ∉ path.toList)
    (hname : Segment.placeholderName? (Text.trim value) = some name) {clause : Clause} :
    (Filter.readClause functions (path ++ ("=" ++ value))).result = .ok clause ↔
      (Text.trim path ≠ "" ∧
        Filter.CallsLast functions (Text.split Filter.dot (Text.trim path))) ∧
      clause = ⟨Text.trim path, .bind name⟩ := by
  have hcut : Text.cutAt? '=' (path ++ ("=" ++ value)) = some (path, value) := by
    refine Text.cutAt?_eq_some_iff.2 ⟨?_, hpath⟩
    rw [String.toList_append, String.toList_append]
    rfl
  have hcondition : Filter.conditionOf (Text.trim value) = .bind name := by
    unfold Filter.conditionOf
    rw [hname]
  have hcalls := gives_checkSegments functions (Text.trim path)
    (Text.split Filter.dot (Text.trim path))
  unfold Filter.readClause
  rw [hcut]
  simp only
  split
  · next hempty => exact ⟨nofun, fun h => absurd hempty h.1.1⟩
  · next hne =>
    simp only [Attempt.result_bind, Attempt.result_ofExcept, Attempt.result_pieces,
      Attempt.result_pure, ok_bind, Filter.result_readCondition, hcondition]
    constructor
    · intro h
      obtain ⟨_, hchecked, h⟩ := exists_of_bind_eq_ok h
      cases h
      exact ⟨⟨hne, hcalls.of_eq_ok hchecked⟩, rfl⟩
    · rintro ⟨⟨-, hlast⟩, rfl⟩
      rw [Filter.checkSegments_of_callsLast _ hlast]
      rfl

end Path

/-- The value of a clause is a placeholder without a name. -/
def Filter.NamelessValue (text : String) : Prop :=
  ∃ path value, text = path ++ "=" ++ value ∧ '=' ∉ path.toList ∧
    Segment.placeholderName? (Text.trim value) = some ""

/-- A bracket holds a filter with such a clause. -/
def Lexeme.HoldsNamelessValue : Lexeme → Prop
  | .bracket content => ∃ body, Text.trim (String.ofList content) = "?(" ++ body ++ ")" ∧
    ∃ text ∈ (Text.split Filter.marker body).filterMap Filter.clauseText?,
      Filter.NamelessValue text
  | _ => False

namespace Path

/-- The name that a clause binds is trimmed, and it is empty only if there is none in its text. -/
theorem named_of_clauseOf {text name : String} {clause : Clause} (h : ClauseOf text clause)
    (hname : clause.condition = .bind name) :
    Text.trim name = name ∧ (name = "" → Filter.NamelessValue text) := by
  obtain ⟨path, value, htext, hequals, rfl⟩ := h
  have hinner : Segment.placeholderName? (Text.trim value) = some name := by
    simp only [Filter.conditionOf] at hname
    split at hname
    · next inner hinner =>
      cases hname
      exact hinner
    · cases hname
  refine ⟨trim_of_placeholderName? hinner, ?_⟩
  rintro rfl
  exact ⟨path, value, htext, hequals, hinner⟩

theorem ReadFrom.clause_named {lexeme : Lexeme} {clauses : List Clause} {clause : Clause}
    {name : String} (h : ReadFrom functions (.select (.filter clauses)) lexeme)
    (hclause : clause ∈ clauses) (hname : clause.condition = .bind name) :
    Text.trim name = name ∧ (name = "" → lexeme.HoldsNamelessValue) := by
  cases h with
  | segment hsegment => cases nameStep_of_readName hsegment
  | bracket hbracket =>
    cases bracketStep_of_readBracket hbracket with
    | @filter body _ hcontent hclauses =>
      obtain ⟨text, htext, hclause⟩ := exists_of_mem_forall₂ hclauses hclause
      obtain ⟨htrim, hnameless⟩ := named_of_clauseOf hclause hname
      exact ⟨htrim, fun hempty => ⟨body, hcontent, text, htext, hnameless hempty⟩⟩

end Path

namespace Engine

/-- In an accepted path every placeholder has a name without blanks around it, be it a segment or a
bracket, and so has every clause with a placeholder as its value, unless there is no name in the
text of that clause.

A segment or a bracket without a name makes the path be refused, with an error of configuration if
everything before it can be read. A clause without a name is accepted as if it had one: all that is
looked at is its path. -/
theorem parse_placeholders (settings : Settings) (before : List Operation) (path : String) :
    let parsed := ((parse settings path).run.run (Operation.memoryAfter settings before)).1
    (∀ steps, parsed = .ok steps → ∃ lexemes, Path.lexemes? path = some lexemes ∧
      (∀ name, .placeholder name ∈ steps → name ≠ "" ∧ Text.trim name = name) ∧
      ∀ clauses, .select (.filter clauses) ∈ steps → ∀ clause ∈ clauses, ∀ name,
        clause.condition = .bind name → Text.trim name = name ∧
          (name = "" → ∃ lexeme ∈ lexemes, lexeme.HoldsNamelessValue)) ∧
    (∀ front lexeme back text, Path.lexemes? path = some (front ++ lexeme :: back) →
      lexeme.Nameless text → ∃ error, parsed = .error error ∧
        ((∀ earlier ∈ front, ∃ own,
            (Path.readLexeme settings.functions earlier).result = .ok own) →
          error = .namelessPlaceholder text ∧ error.kind = .config)) ∧
    ∀ own value name clause, '=' ∉ own.toList →
      Segment.placeholderName? (Text.trim value) = some name →
      ((Filter.readClause settings.functions (own ++ ("=" ++ value))).result = .ok clause ↔
        (Text.trim own ≠ "" ∧
          Filter.CallsLast settings.functions (Text.split Filter.dot (Text.trim own))) ∧
        clause = ⟨Text.trim own, .bind name⟩) := by
  simp only [Operation.run_parse_memoryAfter]
  refine ⟨fun steps hsteps => ?_, fun front lexeme back text hlexemes hnameless => ?_,
    fun own value name clause hequals hname => Path.result_readClause_bind_iff hequals hname⟩
  · obtain ⟨lexemes, hlexemes, hfrom⟩ := Path.exists_lexemes_of_read hsteps
    refine ⟨lexemes, hlexemes, fun name hname => ?_, fun clauses hfilter clause hclause name => ?_⟩
    · obtain ⟨lexeme, -, hplaceholder⟩ := hfrom _ hname
      exact hplaceholder.named
    · intro hname
      obtain ⟨lexeme, hlexeme, hselector⟩ := hfrom _ hfilter
      obtain ⟨htrim, hnameless⟩ := hselector.clause_named hclause hname
      exact ⟨htrim, fun hempty => ⟨lexeme, hlexeme, hnameless hempty⟩⟩
  · obtain ⟨body, hall, hread⟩ := Path.exists_body_of_lexemes? hlexemes
    rw [hread]
    obtain ⟨error, herror, hfirst⟩ := Path.exists_error_of_nameless hall hnameless
    refine ⟨error, herror, fun hfront => ?_⟩
    obtain rfl := hfirst hfront
    exact ⟨rfl, rfl⟩

/-- A clause and a segment with blanks around their names, a bracket without a name before one that
is refused too, and a clause without a name. -/
theorem parse_placeholders_of_blanks :
    let settings : Settings := ⟨.default, .builtins⟩
    let parsed (path : String) :=
      ((parse settings path).run.run (Operation.memoryAfter settings [.parse "$.b"])).1
    let named := "$.a[?(@.b=$\x7b k \x7d)].$\x7b x \x7d"
    let nameless := "$.a[$\x7b \x7d][*]"
    parsed named = .ok [.key "a", .select (.filter [⟨"b", .bind "k"⟩]), .placeholder "x"] ∧
    ("x" ≠ "" ∧ Text.trim "x" = "x") ∧ Text.trim "k" = "k" ∧
    Path.lexemes? nameless = some ([.segment [], .segment [.plain 'a']] ++
      .bracket "$\x7b \x7d".toList :: [.segment [], .bracket ['*'], .segment []]) ∧
    parsed nameless = .error (.namelessPlaceholder "$\x7b \x7d") ∧
    (Filter.readClause settings.functions "b=$\x7b\x7d").result = .ok ⟨"b", .bind ""⟩ := by
  intro settings parsed named nameless
  have hnamed : parsed named =
      .ok [.key "a", .select (.filter [⟨"b", .bind "k"⟩]), .placeholder "x"] := by
    show ((parse settings named).run.run _).1 = _
    rw [Operation.run_parse_memoryAfter]
    decide +kernel
  have hlexemes : Path.lexemes? nameless = some ([.segment [], .segment [.plain 'a']] ++
      .bracket "$\x7b \x7d".toList :: [.segment [], .bracket ['*'], .segment []]) := by
    decide
  have hfront : ∀ earlier ∈ [Lexeme.segment [], .segment [.plain 'a']], ∃ own,
      (Path.readLexeme settings.functions earlier).result = .ok own :=
    List.forall_mem_cons.2 ⟨⟨[], rfl⟩, List.forall_mem_singleton.2 ⟨[.key "a"], rfl⟩⟩
  have hchecked : Filter.checkSegments settings.functions "b" (Text.split Filter.dot "b") =
      .ok () := rfl
  have hcalls := (Path.gives_checkSegments settings.functions "b" _).of_eq_ok hchecked
  obtain ⟨haccepted, -, hclause⟩ := parse_placeholders settings [.parse "$.b"] named
  obtain ⟨-, hrefused, -⟩ := parse_placeholders settings [.parse "$.b"] nameless
  obtain ⟨_, -, hplaceholder, hvalue⟩ := haccepted _ hnamed
  obtain ⟨error, herror, hfirst⟩ := hrefused _ _ _ _ hlexemes (.bracket rfl)
  obtain ⟨rfl, -⟩ := hfirst hfront
  refine ⟨hnamed, hplaceholder "x" (by simp), ?_, hlexemes, herror, ?_⟩
  · exact (hvalue [⟨"b", .bind "k"⟩] (by simp) _ (List.mem_singleton_self _) "k" rfl).1
  · exact (hclause "b" "$\x7b\x7d" "" _ (by decide) rfl).2 ⟨⟨by decide, hcalls⟩, rfl⟩

/-- A clause without a name binds the empty one, where a bracket and a segment are refused. -/
theorem parse_nameless_value :
    let settings : Settings := ⟨.default, .builtins⟩
    let parsed (path : String) :=
      ((parse settings path).run.run (Operation.memoryAfter settings [])).1
    parsed "$.a[?(@.b=$\x7b\x7d)]" = .ok [.key "a", .select (.filter [⟨"b", .bind ""⟩])] ∧
    parsed "$.a[$\x7b\x7d]" = .error (.namelessPlaceholder "$\x7b\x7d") ∧
    parsed "$.a.$\x7b\x7d" = .error (.namelessPlaceholder "$\x7b\x7d") := by
  intro settings parsed
  have hparsed (path : String) : parsed path = (Path.read settings path).result :=
    Operation.run_parse_memoryAfter settings [] path
  refine ⟨?_, ?_, ?_⟩
  · rw [hparsed]
    decide +kernel
  · rw [hparsed]
    decide +kernel
  · rw [hparsed]
    decide +kernel

end Engine

end PathQuery
