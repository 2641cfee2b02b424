import PathQuery.Proofs.Path.Trail
import PathQuery.Proofs.Text.Pieces

/-!
# What reading guarantees

Reading a path checks everything that could be wrong with it. `Gives` says so of one reader: it
fails for a mistake in the path or in what the path asks for, and otherwise what it gives has a
property. Each reader has one lemma about it, made from those of the readers it calls.

Results:
1. `gives_readClause`, `gives_readClauses`: a filter has clauses, which are valid.
2. `gives_read`: the steps of a path are valid, and an error of reading is one of the path.
3. `followed_of_result_read`: a step that stays at a list is followed by a step in brackets.
-/

namespace PathQuery

/-! ## Valid steps -/

/-- A function is called by the last segment only, and it is registered. -/
def Filter.CallsLast (functions : Registry) (segments : List String) : Prop :=
  ∀ front segment rest name, segments = front ++ segment :: rest →
    Segment.callName? segment = some name → rest = [] ∧ functions.contains name = true

/-- A text of alternatives is none of a placeholder, and fills a clause to its end. -/
def Condition.Valid : Condition → Prop
  | .oneOf written alternatives =>
    Text.trim written = written ∧ ¬ Filter.marker.toList <:+: written.toList ∧
      Segment.placeholderName? written = none ∧
      alternatives = Text.split Filter.disjunction written
  | .bind _ => True

/-- A clause as a filter spells it. -/
structure Clause.Valid (functions : Registry) (clause : Clause) : Prop where
  path_ne : clause.path ≠ ""
  path_trim : Text.trim clause.path = clause.path
  path_equals : '=' ∉ clause.path.toList
  path_marker : ¬ Filter.marker.toList <:+: clause.path.toList
  calls : Filter.CallsLast functions (Text.split Filter.dot clause.path)
  condition : clause.condition.Valid

/-- A function is registered, and a filter has clauses, all of them valid. -/
def Step.Valid (functions : Registry) : Step → Prop
  | .function name => functions.contains name = true
  | .select (.filter clauses) => clauses ≠ [] ∧ ∀ clause ∈ clauses, clause.Valid functions
  | _ => True

def Step.isBracket : Step → Bool
  | .select _ | .placeholder _ => true
  | _ => false

def Path.StartsInBracket (steps : List Step) : Prop :=
  ∃ step rest, steps = step :: rest ∧ step.isBracket = true

/-- Each step that stays at a list is followed by one in brackets. -/
def Path.Followed (steps : List Step) : Prop :=
  ∀ front rest, steps = front ++ .passthrough :: rest → StartsInBracket rest

theorem Filter.callsLast_nil (functions : Registry) : CallsLast functions [] := by
  intro front segment rest name heq
  exact absurd heq.symm (List.append_ne_nil_of_right_ne_nil front (List.cons_ne_nil _ _))

theorem Filter.callsLast_cons_iff {functions : Registry} {segment : String}
    {rest : List String} :
    CallsLast functions (segment :: rest) ↔
      (∀ name, Segment.callName? segment = some name →
        rest = [] ∧ functions.contains name = true) ∧ CallsLast functions rest := by
  constructor
  · intro h
    refine ⟨fun name => h [] segment rest name rfl, ?_⟩
    rintro front own after name rfl hname
    exact h (segment :: front) own after name rfl hname
  · rintro ⟨hsegment, hrest⟩ front own after name heq hname
    rcases List.cons_eq_append_iff.1 heq with ⟨rfl, h⟩ | ⟨front', rfl, h⟩
    · obtain ⟨rfl, rfl⟩ := List.cons.inj h
      exact hsegment name hname
    · exact hrest front' own after name h hname

/-! ## Outcomes of readers -/

namespace Path

/-- A reader fails for a mistake in the path or in what it asks for, and otherwise gives something
with a property. -/
inductive Gives (P : α → Prop) : Except QueryError α → Prop
  | ok {a : α} : P a → Gives P (.ok a)
  | error {error : QueryError} : error.kind = .parse ∨ error.kind = .config → Gives P (.error error)

section Rules

variable {P R : α → Prop} {Q : β → Prop} {outcome : Except QueryError α}

theorem Gives.of_eq_ok (h : Gives P outcome) {a : α} (ha : outcome = .ok a) : P a := by
  cases h with
  | ok hp => exact Except.ok.inj ha ▸ hp
  | error _ => cases ha

theorem Gives.of_eq_error (h : Gives P outcome) {error : QueryError} (ha : outcome = .error error) :
    error.kind = .parse ∨ error.kind = .config := by
  cases h with
  | ok _ => cases ha
  | error herror => exact Except.error.inj ha ▸ herror

theorem exists_of_bind_eq_ok {next : α → Except QueryError β} {b : β}
    (h : outcome >>= next = .ok b) : ∃ a, outcome = .ok a ∧ next a = .ok b := by
  cases outcome with
  | error error => cases h
  | ok a => exact ⟨a, rfl, h⟩

theorem exists_of_map_eq_ok {f : α → β} {b : β} (h : f <$> outcome = .ok b) :
    ∃ a, outcome = .ok a ∧ f a = b := by
  cases outcome with
  | error error => cases h
  | ok a => exact ⟨a, rfl, Except.ok.inj h⟩

theorem ok_bind (a : α) (next : α → Except QueryError β) : (Except.ok a >>= next) = next a := rfl

theorem Gives.imp (h : Gives P outcome) (hR : ∀ a, P a → R a) : Gives R outcome := by
  cases h with
  | ok ha => exact .ok (hR _ ha)
  | error herror => exact .error herror

theorem Gives.bind (h : Gives P outcome) {next : α → Except QueryError β}
    (hnext : ∀ a, P a → Gives Q (next a)) : Gives Q (outcome >>= next) := by
  cases h with
  | ok ha => exact hnext _ ha
  | error herror => exact .error herror

theorem Gives.map {f : α → β} (h : Gives P outcome) (hf : ∀ a, P a → Q (f a)) :
    Gives Q (f <$> outcome) := by
  cases h with
  | ok ha => exact .ok (hf _ ha)
  | error herror => exact .error herror

theorem gives_mapM {as : List α} {read : α → Attempt β} (h : ∀ a ∈ as, Gives Q (read a).result) :
    Gives (∀ b ∈ ·, Q b) (Attempt.result (as.mapM read)) := by
  induction as with
  | nil => exact .ok nofun
  | cons a as ih =>
    obtain ⟨ha, has⟩ := List.forall_mem_cons.1 h
    rw [Attempt.result_mapM_cons]
    exact ha.bind fun b hb => (ih has).bind fun bs hbs => .ok (List.forall_mem_cons.2 ⟨hb, hbs⟩)

end Rules

variable (functions : Registry)

/-! ## Clauses -/

theorem gives_knownFunction (name : String) :
    Gives (fun known => known = name ∧ functions.contains name = true)
      (Filter.knownFunction functions name) := by
  unfold Filter.knownFunction
  split
  · next hknown => exact .ok ⟨rfl, hknown⟩
  · exact .error (.inr rfl)

theorem gives_checkSegments (path : String) (segments : List String) :
    Gives (fun _ => Filter.CallsLast functions segments)
      (Filter.checkSegments functions path segments) := by
  induction segments with
  | nil => exact .ok (Filter.callsLast_nil functions)
  | cons segment rest ih =>
    simp only [Filter.callsLast_cons_iff, Filter.checkSegments]
    cases Segment.callName? segment with
    | none => exact ih.imp fun _ hrest => ⟨nofun, hrest⟩
    | some name =>
      simp only
      split
      · exact .error (.inr rfl)
      · next hlast =>
        obtain rfl := not_not.1 hlast
        refine (gives_knownFunction functions name).bind ?_
        rintro _ ⟨-, hknown⟩
        refine .ok ⟨?_, Filter.callsLast_nil functions⟩
        rintro own ⟨⟩
        exact ⟨rfl, hknown⟩

theorem gives_readCondition {value : String} (htrim : Text.trim value = value)
    (hmarker : ¬ Filter.marker.toList <:+: value.toList) :
    Gives Condition.Valid (Filter.readCondition value).result := by
  unfold Filter.readCondition
  cases hname : Segment.placeholderName? value with
  | some name => exact .ok trivial
  | none =>
    rw [Attempt.result_bind, Attempt.result_pieces]
    exact .ok ⟨htrim, hmarker, hname, rfl⟩

/-- The text of a clause, in which there is no marker, is read as a valid clause. -/
theorem gives_readClause {text : String} (hmarker : ¬ Filter.marker.toList <:+: text.toList) :
    Gives (Clause.Valid functions) (Filter.readClause functions text).result := by
  unfold Filter.readClause
  cases hcut : Text.cutAt? '=' text with
  | none => exact .error (.inl rfl)
  | some parts =>
    obtain ⟨before, after⟩ := parts
    obtain ⟨htext, hequals⟩ := Text.cutAt?_eq_some_iff.1 hcut
    have hpath : (Text.trim before).toList <:+: before.toList := Text.isInfix_toList_trim before
    have hvalue : (Text.trim after).toList <:+: after.toList := Text.isInfix_toList_trim after
    have hbefore : before.toList <:+: text.toList := ⟨[], _, htext.symm⟩
    have hafter : after.toList <:+: text.toList :=
      ⟨before.toList ++ ['='], [], by rw [htext]; simp⟩
    simp only
    split
    · exact .error (.inl rfl)
    · next hne =>
      simp only [Attempt.result_bind, Attempt.result_ofExcept, Attempt.result_pieces,
        Attempt.result_pure, ok_bind]
      refine (gives_checkSegments functions _ _).bind fun _ hcalls => ?_
      refine (gives_readCondition (Text.trim_trim after) ?_).bind fun condition hcondition => ?_
      · exact fun h => hmarker (h.trans (hvalue.trans hafter))
      · exact .ok ⟨hne, Text.trim_trim before, fun h => hequals (hpath.mem h),
          fun h => hmarker (h.trans (hpath.trans hbefore)), hcalls, hcondition⟩

theorem isInfix_of_clauseText? {piece clause : String}
    (h : Filter.clauseText? piece = some clause) : clause.toList <:+: piece.toList := by
  have htrim : (Text.trim piece).toList <:+: piece.toList := Text.isInfix_toList_trim piece
  simp only [Filter.clauseText?, Option.ite_none_left_eq_some, Option.some.injEq] at h
  obtain ⟨-, rfl⟩ := h
  cases hend : Text.beforeSuffix? Filter.conjunction (Text.trim piece) with
  | none => exact htrim
  | some before =>
    have hbefore := congrArg String.toList (Text.beforeSuffix?_eq_some_iff.1 hend)
    rw [String.toList_append] at hbefore
    have hstart : before.toList <:+: (Text.trim piece).toList := ⟨[], _, hbefore.symm⟩
    simp only [Text.toList_trimEnd]
    exact (Text.isPrefix_dropEndWhile _ _).isInfix.trans (hstart.trans htrim)

/-- A filter has clauses, and all of them are valid. -/
theorem gives_readClauses (body : String) :
    Gives (fun clauses => clauses ≠ [] ∧ ∀ clause ∈ clauses, clause.Valid functions)
      (Filter.readClauses functions body).result := by
  unfold Filter.readClauses
  split
  · exact .error (.inr rfl)
  · simp only [Attempt.result_bind, Attempt.result_pieces, ok_bind]
    have hread : Gives (∀ clause ∈ ·, clause.Valid functions)
        (Attempt.result (((Text.split Filter.marker body).filterMap Filter.clauseText?).mapM
          (Filter.readClause functions))) := by
      refine gives_mapM fun text htext => ?_
      obtain ⟨piece, hpiece, hclause⟩ := List.mem_filterMap.1 htext
      have hmarker := Text.not_infix_of_mem_split (by decide) hpiece
      exact gives_readClause functions fun h => hmarker (h.trans (isInfix_of_clauseText? hclause))
    refine hread.bind fun clauses hclauses => ?_
    split
    · exact .error (.inr rfl)
    · next hne => exact .ok ⟨hne, hclauses⟩

/-! ## Brackets and segments -/

theorem gives_readPosition (text content : String) :
    Gives (fun _ => True) (readPosition text content) := by
  unfold readPosition
  split
  · exact .ok trivial
  · exact .error (.inr rfl)

theorem gives_readRange (content start stop : String) :
    Gives (fun selector => Step.Valid functions (.select selector))
      (readRange content start stop) := by
  have hstop := gives_readPosition (Text.trim stop) content
  unfold readRange
  simp only
  split
  · exact .error (.inr rfl)
  · split
    · rw [pure_bind]
      exact hstop.bind fun _ _ => .ok trivial
    · exact (gives_readPosition _ content).bind fun _ _ => hstop.bind fun _ _ => .ok trivial

theorem gives_readSelector (content : String) :
    Gives (fun selector => Step.Valid functions (.select selector))
      (readSelector functions content).result := by
  unfold readSelector
  split
  · exact .error (.inr rfl)
  · split
    · split
      · exact .error (.inl rfl)
      · rw [Attempt.result_map]
        exact (gives_readClauses functions _).map fun _ h => h
    · split
      · exact gives_readRange functions content _ _
      · exact (gives_readPosition content content).map fun _ _ => trivial

theorem gives_placeholder (name segment : String) :
    Gives (fun step => step = .placeholder name) (placeholder name segment) := by
  unfold placeholder
  split
  · exact .error (.inr rfl)
  · exact .ok rfl

theorem gives_readBracket (content : String) :
    Gives (fun step => step.Valid functions ∧ step.isBracket = true)
      (readBracket functions content).result := by
  unfold readBracket
  cases Segment.placeholderName? (Text.trim content) with
  | some name =>
    refine (gives_placeholder name content).imp ?_
    rintro _ rfl
    exact ⟨trivial, rfl⟩
  | none =>
    simp only [Attempt.result_map]
    exact (gives_readSelector functions _).map fun _ h => ⟨h, rfl⟩

theorem gives_readName (glyphs : List Glyph) :
    Gives (fun step => step.Valid functions ∧ step ≠ .passthrough) (readName functions glyphs) := by
  unfold readName
  simp only
  split
  · exact .ok ⟨trivial, nofun⟩
  · split
    · refine (gives_placeholder _ _).imp ?_
      rintro _ rfl
      exact ⟨trivial, nofun⟩
    · split
      · refine (gives_knownFunction functions _).map ?_
        rintro _ ⟨rfl, hknown⟩
        exact ⟨hknown, nofun⟩
      · exact .ok ⟨trivial, nofun⟩

theorem gives_readSegment (glyphs : List Glyph) :
    Gives (∀ step ∈ ·, step.Valid functions ∧ step ≠ .passthrough)
      (readSegment functions glyphs) := by
  unfold readSegment
  split
  · exact .ok nofun
  · exact (gives_readName functions _).map fun step h => List.forall_mem_singleton.2 h

/-! ## Paths -/

theorem gives_bracket (content : List Char) :
    Gives (fun steps => ∃ step, steps = [step] ∧ step.Valid functions ∧ step.isBracket = true)
      (readLexeme functions (.bracket content)).result := by
  simp only [readLexeme, Attempt.result_bind]
  exact (gives_readBracket functions _).bind fun step h => .ok ⟨step, rfl, h⟩

theorem gives_readLexeme (lexeme : Lexeme) :
    Gives (∀ step ∈ ·, step.Valid functions) (readLexeme functions lexeme).result := by
  cases lexeme with
  | segment glyphs =>
    exact (gives_readSegment functions glyphs).imp fun steps h step hstep => (h step hstep).1
  | passthrough => exact .ok (List.forall_mem_singleton.2 trivial)
  | bracket content =>
    refine (gives_bracket functions content).imp ?_
    rintro _ ⟨step, rfl, hstep, -⟩
    exact List.forall_mem_singleton.2 hstep

theorem gives_readEnding (body : String) (ending : Ending) :
    Gives (∀ step ∈ ·, step.Valid functions) (readEnding functions body ending).result := by
  cases ending with
  | segment glyphs =>
    exact (gives_readSegment functions glyphs).imp fun steps h step hstep => (h step hstep).1
  | bracket => exact .error (.inl rfl)

theorem gives_readDangling (options : Options) (body : String) :
    Gives (fun _ => True) (readDangling options body).result := by
  unfold readDangling
  split
  · split
    · exact .error (.inl rfl)
    · exact .ok trivial
  · exact .ok trivial

theorem gives_readBody (settings : Settings) (body : String) :
    Gives (∀ step ∈ ·, step.Valid settings.functions) (readBody settings body).result := by
  have hlexemes (lexemes : List Lexeme) :
      Gives (∀ part ∈ ·, ∀ step ∈ part, step.Valid settings.functions)
        (Attempt.result (lexemes.mapM (readLexeme settings.functions))) :=
    gives_mapM fun lexeme _ => gives_readLexeme settings.functions lexeme
  simp only [readBody, Attempt.result_bind]
  refine (hlexemes _).bind fun parts hparts => ?_
  refine (gives_readDangling settings.options body).bind fun _ _ => ?_
  refine (gives_readEnding settings.functions body _).bind fun last hlast => .ok ?_
  intro step hstep
  rcases List.mem_append.1 hstep with hstep | hstep
  · obtain ⟨part, hpart, hstep⟩ := List.mem_flatten.1 hstep
    exact hparts part hpart step hstep
  · exact hlast step hstep

/-- An error of reading is one of the path, and the steps of a path that can be read are valid. -/
theorem gives_read (settings : Settings) (path : String) :
    Gives (∀ step ∈ ·, step.Valid settings.functions) (read settings path).result := by
  unfold read
  split
  · exact gives_readBody settings _
  · exact .error (.inl rfl)

end Path

/-! ## Lists before brackets -/

namespace Path

theorem followed_cons_iff {step : Step} {rest : List Step} :
    Followed (step :: rest) ↔
      (step = .passthrough → StartsInBracket rest) ∧ Followed rest := by
  constructor
  · intro h
    refine ⟨?_, ?_⟩
    · rintro rfl
      exact h [] rest rfl
    · rintro front after rfl
      exact h (step :: front) after rfl
  · rintro ⟨hstep, hrest⟩ front after heq
    rcases List.cons_eq_append_iff.1 heq with ⟨rfl, h⟩ | ⟨front', rfl, h⟩
    · obtain ⟨rfl, rfl⟩ := List.cons.inj h
      exact hstep rfl
    · exact hrest front' after h

theorem followed_nil : Followed [] := by
  intro front rest heq
  exact absurd heq.symm (List.append_ne_nil_of_right_ne_nil front (List.cons_ne_nil _ _))

theorem Followed.append {front rest : List Step} (hfront : ∀ step ∈ front, step ≠ .passthrough)
    (hrest : Followed rest) : Followed (front ++ rest) := by
  induction front with
  | nil => exact hrest
  | cons step front ih =>
    obtain ⟨hstep, hfront⟩ := List.forall_mem_cons.1 hfront
    exact followed_cons_iff.2 ⟨fun h => absurd h hstep, ih hfront⟩

end Path

namespace Outline

variable {functions : Registry}

theorem reads_after_cons_iff {lexeme : Lexeme} {lexemes : List Lexeme} {outline : Outline}
    {steps : List Step} :
    (outline.after (lexeme :: lexemes)).Reads functions steps ↔
      ∃ first more, (Path.readLexeme functions lexeme).result = .ok first ∧
        (outline.after lexemes).Reads functions more ∧ steps = first ++ more := by
  constructor
  · generalize hwhole : outline.after (lexeme :: lexemes) = whole
    intro h
    cases h with
    | ending => cases hwhole
    | @after own first more rest hown hrest =>
      obtain ⟨others, ending⟩ := rest
      cases hwhole
      exact ⟨first, more, hown, hrest, rfl⟩
  · rintro ⟨first, more, hlexeme, hrest, rfl⟩
    exact .after hlexeme hrest

theorem reads_of_parts {lexemes : List Lexeme} {ending : Ending} {body : String}
    {parts : List (List Step)} {last : List Step}
    (hparts : Attempt.result (lexemes.mapM (Path.readLexeme functions)) = .ok parts)
    (hlast : (Path.readEnding functions body ending).result = .ok last) :
    (Outline.mk lexemes ending).Reads functions (parts.flatten ++ last) := by
  induction lexemes generalizing parts with
  | nil =>
    cases hparts
    cases ending with
    | segment glyphs => exact .ending hlast
    | bracket => cases hlast
  | cons lexeme lexemes ih =>
    rw [Attempt.result_mapM_cons] at hparts
    obtain ⟨first, hlexeme, hparts⟩ := Path.exists_of_bind_eq_ok hparts
    obtain ⟨others, hrest, hparts⟩ := Path.exists_of_bind_eq_ok hparts
    cases hparts
    rw [List.flatten_cons, List.append_assoc]
    exact .after hlexeme (ih hrest)

/-- A dot before a bracket is the only way to stay at a list, so the bracket follows. -/
theorem followed_of_reads (glyphs : List Glyph) :
    (∀ read steps, (inSegment read glyphs).Reads functions steps → Path.Followed steps) ∧
    (∀ read steps, (inBracket read glyphs).Reads functions steps →
      Path.Followed steps ∧ Path.StartsInBracket steps) ∧
    (opensBracket glyphs = true → ∀ steps, (inSegment [] glyphs).Reads functions steps →
      Path.StartsInBracket steps) := by
  have hplain {read : List Glyph} {first : List Step}
      (h : Path.readSegment functions read = .ok first) : ∀ step ∈ first, step ≠ .passthrough :=
    fun step hstep => ((Path.gives_readSegment functions read).of_eq_ok h step hstep).2
  induction glyphs with
  | nil =>
    refine ⟨fun read steps h => ?_, fun read steps h => ?_, fun h => nomatch h⟩
    · cases h with
      | ending hread =>
        rw [← List.append_nil steps]
        exact Path.followed_nil.append (hplain hread)
    · rw [inBracket] at h
      generalize hwhole : Outline.mk [] .bracket = whole at h
      cases h with
      | _ => cases hwhole
  | cons glyph rest ih =>
    obtain ⟨hsegment, hbracket, hopens⟩ := ih
    refine ⟨fun read steps h => ?_, fun read steps h => ?_, fun hopen steps h => ?_⟩
    · rw [inSegment] at h
      split at h
      · obtain ⟨first, more, hfirst, hmore, rfl⟩ := reads_after_cons_iff.1 h
        refine Path.Followed.append (hplain hfirst) ?_
        split at hmore
        · next hopen =>
          obtain ⟨_, rest, hstay, hrest, rfl⟩ := reads_after_cons_iff.1 hmore
          cases hstay
          exact Path.followed_cons_iff.2 ⟨fun _ => hopens hopen _ hrest, hsegment _ _ hrest⟩
        · exact hsegment _ _ hmore
      · split at h
        · obtain ⟨first, more, hfirst, hmore, rfl⟩ := reads_after_cons_iff.1 h
          exact (hbracket _ _ hmore).1.append (hplain hfirst)
        · exact hsegment _ _ h
    · rw [inBracket] at h
      split at h
      · obtain ⟨first, more, hfirst, hmore, rfl⟩ := reads_after_cons_iff.1 h
        obtain ⟨step, rfl, -, hstep⟩ := (Path.gives_bracket functions _).of_eq_ok hfirst
        have hstay : step = .passthrough → Path.StartsInBracket more := by
          rintro rfl
          cases hstep
        exact ⟨Path.followed_cons_iff.2 ⟨hstay, hsegment _ _ hmore⟩, step, more, rfl, hstep⟩
      · exact hbracket _ _ h
    · have hglyph : glyph = .plain '[' := of_decide_eq_true hopen
      rw [inSegment, hglyph, if_neg (by decide), if_pos rfl] at h
      obtain ⟨first, more, hfirst, hmore, rfl⟩ := reads_after_cons_iff.1 h
      cases hfirst
      exact (hbracket _ _ hmore).2

end Outline

namespace Path

variable {settings : Settings}

/-- A body that can be read is read as its outline is. -/
theorem reads_of_result_readBody {body : String} {steps : List Step}
    (h : (readBody settings body).result = .ok steps) :
    (Outline.ofGlyphs (Glyph.ofChars body.toList)).Reads settings.functions steps := by
  simp only [readBody, Attempt.result_bind, Attempt.result_pure] at h
  obtain ⟨parts, hparts, h⟩ := exists_of_bind_eq_ok h
  obtain ⟨_, -, h⟩ := exists_of_bind_eq_ok h
  obtain ⟨last, hlast, h⟩ := exists_of_bind_eq_ok h
  cases h
  exact Outline.reads_of_parts hparts hlast

/-- In a path that can be read, a step that stays at a list comes before one in brackets. -/
theorem followed_of_result_read {path : String} {steps : List Step}
    (h : (read settings path).result = .ok steps) : Followed steps := by
  unfold read at h
  split at h
  · exact (Outline.followed_of_reads _).1 _ _ (reads_of_result_readBody h)
  · cases h

end Path

end PathQuery
