import PathQuery.Proofs.Path.Validity

/-!
# Reading a body in two parts

A body can be cut before a dot or before a bracket: the part before the cut and the part after it
are read by themselves, and the steps of the whole are those of both parts. The cut may not stand
behind an escape, nor between a dot and the bracket that it belongs to.

What is read after the cut is the same in both readings, up to the text of an error, which shows the
body. `Path.Alike` compares two readings that far.

Results:
1. `inSegment_join`: the outline of the first part goes on with that of the second one.
2. `alike_readBody`: the second part is read alike, by itself and after the first one.
3. `readBody_append`: so the steps of the whole are those of the parts.
-/

namespace PathQuery

/-! ## Outlines -/

namespace Outline

theorem after_after (first second : List Lexeme) (outline : Outline) :
    (outline.after second).after first = outline.after (first ++ second) := by
  simp only [after, List.append_assoc]

/-- A part that ends in a segment goes on with this segment. The cut only matters to a dot or to a
closing bracket right before it. -/
theorem inSegment_join {back : List Glyph} (hback : mayClose back = true) (front : List Glyph)
    (hdot : front.getLast? = some (.plain '.') → opensBracket back = false) :
    (∀ read last, (inSegment read front).ending = .segment last →
      inSegment read (front ++ back) =
        (inSegment last.reverse back).after (inSegment read front).lexemes) ∧
    (∀ read last, (inBracket read front).ending = .segment last →
      inBracket read (front ++ back) =
        (inSegment last.reverse back).after (inBracket read front).lexemes) := by
  induction front with
  | nil =>
    refine ⟨?_, nofun⟩
    rintro read last ⟨⟩
    rw [List.reverse_reverse]
    rfl
  | cons glyph rest ih =>
    have hrest : rest.getLast? = some (.plain '.') → opensBracket back = false := by
      intro h
      refine hdot ?_
      rw [List.getLast?_cons, h]
      rfl
    obtain ⟨hsegment, hbracket⟩ := ih hrest
    constructor
    · intro read last hlast
      rw [List.cons_append, inSegment, inSegment]
      rw [inSegment] at hlast
      split
      · next hglyph =>
        have hopens : opensBracket (rest ++ back) = opensBracket rest := by
          cases rest with
          | nil => exact hdot (congrArg some hglyph)
          | cons next rest => rfl
        rw [if_pos hglyph] at hlast
        rw [hopens, hsegment _ _ hlast, after_after]
        rfl
      · next hglyph =>
        rw [if_neg hglyph] at hlast
        split
        · next hopen =>
          rw [if_pos hopen] at hlast
          rw [hbracket _ _ hlast, after_after]
          rfl
        · next hopen =>
          rw [if_neg hopen] at hlast
          exact hsegment _ _ hlast
    · intro read last hlast
      have hcloses : mayClose (rest ++ back) = mayClose rest := by
        cases rest with
        | nil => exact hback
        | cons next rest => rfl
      rw [List.cons_append, inBracket, inBracket, hcloses]
      rw [inBracket] at hlast
      split
      · next hclose =>
        rw [if_pos hclose] at hlast
        rw [hsegment _ _ hlast, after_after]
        rfl
      · next hclose =>
        rw [if_neg hclose] at hlast
        exact hbracket _ _ hlast

/-- A dot and a bracket end the segment before them, whatever it is. -/
theorem exists_inSegment_separator {glyph : Glyph} (h : glyph = .plain '.' ∨ glyph = .plain '[')
    (rest : List Glyph) : ∃ lexemes ending, ∀ read,
      inSegment read (glyph :: rest) = ⟨.segment read.reverse :: lexemes, ending⟩ := by
  rcases h with rfl | rfl
  · refine ⟨(if opensBracket rest then [.passthrough] else []) ++ (inSegment [] rest).lexemes,
      (inSegment [] rest).ending, fun read => ?_⟩
    rw [inSegment, if_pos rfl]
    rfl
  · refine ⟨(inBracket [] rest).lexemes, (inBracket [] rest).ending, fun read => ?_⟩
    rw [inSegment, if_neg (by decide), if_pos rfl]
    rfl

/-- The second part starts with an empty segment when it stands alone. After a first part it starts
with the last segment of that one, and all else in it is the same. -/
theorem exists_ofGlyphs_join {glyph : Glyph} (h : glyph = .plain '.' ∨ glyph = .plain '[')
    (front rest : List Glyph)
    (hdot : front.getLast? = some (.plain '.') → glyph ≠ .plain '[') :
    ∃ back : Outline, ofGlyphs (glyph :: rest) = back.after [.segment []] ∧
      ∀ last, (ofGlyphs front).ending = .segment last →
        ofGlyphs (front ++ glyph :: rest) =
          back.after ((ofGlyphs front).lexemes ++ [.segment last]) := by
  have hcloses : mayClose (glyph :: rest) = true := by
    rcases h with rfl | rfl
    · rfl
    · rfl
  have hopens : front.getLast? = some (.plain '.') → opensBracket (glyph :: rest) = false :=
    fun hlast => decide_eq_false (hdot hlast)
  obtain ⟨lexemes, ending, hinside⟩ := exists_inSegment_separator h rest
  refine ⟨⟨lexemes, ending⟩, hinside [], fun last hlast => ?_⟩
  rw [ofGlyphs, (inSegment_join hcloses front hopens).1 [] last hlast, hinside,
    List.reverse_reverse, ← after_after]
  rfl

end Outline

/-! ## Outcomes alike -/

namespace Path

/-- Two outcomes have values that are related, or are both errors of one kind. -/
inductive Alike (R : α → β → Prop) : Except QueryError α → Except QueryError β → Prop
  | ok {a : α} {b : β} : R a b → Alike R (.ok a) (.ok b)
  | error {error own : QueryError} : own.kind = error.kind → Alike R (.error error) (.error own)

section Rules

variable {R : α → β → Prop} {S : γ → δ → Prop} {first : Except QueryError α}
  {second : Except QueryError β}

theorem alike_refl {R : α → α → Prop} (h : ∀ a, R a a) (outcome : Except QueryError α) :
    Alike R outcome outcome := by
  cases outcome with
  | ok a => exact .ok (h a)
  | error error => exact .error rfl

theorem Alike.bind (h : Alike R first second) {next : α → Except QueryError γ}
    {next' : β → Except QueryError δ} (hnext : ∀ a b, R a b → Alike S (next a) (next' b)) :
    Alike S (first >>= next) (second >>= next') := by
  cases h with
  | ok hr => exact hnext _ _ hr
  | error hkind => exact .error hkind

theorem Alike.map (h : Alike R first second) {f : α → γ} {g : β → δ}
    (hfg : ∀ a b, R a b → S (f a) (g b)) : Alike S (f <$> first) (g <$> second) := by
  cases h with
  | ok hr => exact .ok (hfg _ _ hr)
  | error hkind => exact .error hkind

theorem Alike.imp (h : Alike R first second) {R' : α → β → Prop} (hR : ∀ a b, R a b → R' a b) :
    Alike R' first second := by
  cases h with
  | ok hr => exact .ok (hR _ _ hr)
  | error hkind => exact .error hkind

theorem Alike.trans (h : Alike R first second) {T : β → γ → Prop} {third : Except QueryError γ}
    (hthird : Alike T second third) : Alike (fun a c => ∃ b, R a b ∧ T b c) first third := by
  cases h with
  | ok hr =>
    cases hthird with
    | ok ht => exact .ok ⟨_, hr, ht⟩
  | error hkind =>
    cases hthird with
    | error hown => exact .error (hown.trans hkind)

/-- Two outcomes that are alike to a third one. -/
theorem Alike.common (h : Alike R first second) {T : α → γ → Prop} {third : Except QueryError γ}
    (hthird : Alike T first third) : Alike (fun b c => ∃ a, R a b ∧ T a c) second third := by
  cases h with
  | ok hr =>
    cases hthird with
    | ok ht => exact .ok ⟨_, hr, ht⟩
  | error hkind =>
    cases hthird with
    | error hown => exact .error (hown.trans hkind.symm)

theorem Alike.exists_of_eq_ok (h : Alike R first second) {a : α} (ha : first = .ok a) :
    ∃ b, second = .ok b ∧ R a b := by
  cases h with
  | ok hr => exact ⟨_, rfl, Except.ok.inj ha ▸ hr⟩
  | error _ => cases ha

theorem Alike.exists_of_eq_error (h : Alike R first second) {error : QueryError}
    (herror : first = .error error) : ∃ own, second = .error own ∧ own.kind = error.kind := by
  cases h with
  | ok _ => cases herror
  | error hkind => exact ⟨_, rfl, Except.error.inj herror ▸ hkind⟩

end Rules

/-- The end of a body is read alike in two bodies. -/
theorem alike_readEnding (functions : Registry) (body body' : String) (ending : Ending) :
    Alike Eq (readEnding functions body ending).result
      (readEnding functions body' ending).result := by
  cases ending with
  | segment glyphs => exact alike_refl (fun _ => rfl) _
  | bracket => exact .error rfl

/-- An escape without a character is dealt with alike in two bodies that both end in one, or both
do not. -/
theorem alike_readDangling (options : Options) {body body' : String}
    (h : Glyph.isDangling body.toList = Glyph.isDangling body'.toList) :
    Alike Eq (readDangling options body).result (readDangling options body').result := by
  unfold readDangling
  rw [h]
  cases Glyph.isDangling body'.toList with
  | false => exact .ok rfl
  | true =>
    cases options.strictEscapes with
    | false => exact .ok rfl
    | true => exact .error rfl

/-! ## Readings of an outline -/

/-- The steps of an outline. An error may show the body that it is of. -/
def readOutline (settings : Settings) (body : String) (outline : Outline) :
    Except QueryError (List Step) := do
  let parts ← Attempt.result (outline.lexemes.mapM (readLexeme settings.functions))
  (readDangling settings.options body).result
  return parts.flatten ++ (← (readEnding settings.functions body outline.ending).result)

variable {settings : Settings} {body body' front back : String} {outline : Outline}
  {steps : List Step}

theorem result_readBody_eq : (readBody settings body).result =
    readOutline settings body (Outline.ofGlyphs (Glyph.ofChars body.toList)) := by
  simp only [readBody, readOutline, Attempt.result_bind, Attempt.result_pure]
  rfl

/-- Lexemes in front add their steps. -/
theorem readOutline_after {lexemes : List Lexeme} {parts : List (List Step)}
    (h : Attempt.result (lexemes.mapM (readLexeme settings.functions)) = .ok parts) :
    readOutline settings body (outline.after lexemes) =
      (parts.flatten ++ ·) <$> readOutline settings body outline := by
  have hlexemes : Attempt.result
      ((outline.after lexemes).lexemes.mapM (readLexeme settings.functions)) =
      (parts ++ ·) <$> Attempt.result (outline.lexemes.mapM (readLexeme settings.functions)) := by
    unfold Outline.after
    simp only [List.mapM_append, Attempt.result_bind, Attempt.result_pure, h, ok_bind]
    rfl
  unfold readOutline
  rw [hlexemes]
  simp only [bind_map_left, map_bind, map_pure, List.flatten_append, List.append_assoc]
  rfl

theorem alike_readOutline
    (h : Glyph.isDangling body.toList = Glyph.isDangling body'.toList) :
    Alike Eq (readOutline settings body outline) (readOutline settings body' outline) := by
  refine (alike_refl (fun _ => rfl) _).bind ?_
  rintro parts _ rfl
  refine (alike_readDangling settings.options h).bind ?_
  rintro _ _ rfl
  refine (alike_readEnding settings.functions body body' outline.ending).bind ?_
  rintro last _ rfl
  exact .ok rfl

/-- A body that can be read ends in a segment, and its steps are those of its lexemes and of this
segment. -/
theorem exists_parts_of_readOutline (h : readOutline settings body outline = .ok steps) :
    ∃ (last : List Glyph) (parts : List (List Step)), outline.ending = .segment last ∧
      Attempt.result
        ((outline.lexemes ++ [Lexeme.segment last]).mapM (readLexeme settings.functions)) =
          .ok parts ∧
      steps = parts.flatten := by
  obtain ⟨parts, hparts, h⟩ := exists_of_bind_eq_ok h
  obtain ⟨_, -, h⟩ := exists_of_bind_eq_ok h
  obtain ⟨lastSteps, hlast, h⟩ := exists_of_bind_eq_ok h
  cases h
  cases hending : outline.ending with
  | bracket =>
    rw [hending] at hlast
    cases hlast
  | segment last =>
    rw [hending] at hlast
    have hsegment : (readLexeme settings.functions (.segment last)).result = .ok lastSteps := hlast
    refine ⟨last, parts ++ [lastSteps], rfl, ?_, by simp⟩
    simp only [List.mapM_append, List.mapM_cons, List.mapM_nil, Attempt.result_bind,
      Attempt.result_pure, hparts, ok_bind, hsegment]

/-! ## Bodies -/

/-- The text ends in a dot that is not escaped. -/
def EndsInDot (body : String) : Prop :=
  ∃ init, body.toList = init ++ ['.'] ∧ Glyph.trailing init % 2 = 0

theorem endsInDot_iff {init : List Char} {c : Char} (hbody : body.toList = init ++ [c]) :
    EndsInDot body ↔ c = '.' ∧ Glyph.trailing init % 2 = 0 := by
  constructor
  · rintro ⟨init', hinit, heven⟩
    obtain ⟨rfl, hc⟩ := List.append_inj' (hbody.symm.trans hinit) rfl
    exact ⟨(List.cons.inj hc).1, heven⟩
  · rintro ⟨rfl, heven⟩
    exact ⟨init, hbody, heven⟩

theorem endsInDot_of_getLast? {glyphs : List Glyph} (hglyphs : .plain '\\' ∉ glyphs)
    (hbody : body.toList = Glyph.writeAll glyphs)
    (hlast : glyphs.getLast? = some (.plain '.')) : EndsInDot body := by
  obtain ⟨init, rfl⟩ := List.getLast?_eq_some_iff.1 hlast
  refine ⟨Glyph.writeAll init, hbody.trans (Glyph.writeAll_append init _), ?_⟩
  exact Glyph.trailing_writeAll fun hmem => hglyphs (List.mem_append_left _ hmem)

/-- After a part that can be read, what follows from a dot or a bracket on is read as by itself. -/
theorem alike_readBody (hread : (readBody settings front).result = .ok steps)
    (heven : Glyph.trailing front.toList % 2 = 0)
    (hback : back.toList.head? = some '.' ∨ back.toList.head? = some '[')
    (hdot : ¬ (EndsInDot front ∧ back.toList.head? = some '[')) :
    Alike (fun more whole => whole = steps ++ more) (readBody settings back).result
      (readBody settings (front ++ back)).result := by
  obtain ⟨glyphs, hglyphs, hfront⟩ := Glyph.exists_writeAll_of_even heven
  obtain ⟨c, rest, hchars, hc⟩ : ∃ c rest, back.toList = c :: rest ∧ (c = '.' ∨ c = '[') := by
    cases hchars : back.toList with
    | nil => simp [hchars] at hback
    | cons c rest => exact ⟨c, rest, rfl, by simpa [hchars] using hback⟩
  have hplain : Glyph.ofChars back.toList = .plain c :: Glyph.ofChars rest := by
    rw [hchars]
    exact Glyph.ofChars_cons (by rcases hc with rfl | rfl <;> decide) rest
  have hopens : glyphs.getLast? = some (.plain '.') → Glyph.plain c ≠ .plain '[' := by
    intro hlast hglyph
    refine hdot ⟨endsInDot_of_getLast? hglyphs hfront hlast, ?_⟩
    rw [hchars, show c = '[' from congrArg Glyph.char hglyph]
    rfl
  rw [result_readBody_eq, hfront, Glyph.ofChars_writeAll hglyphs] at hread
  obtain ⟨last, parts, hending, hparts, rfl⟩ := exists_parts_of_readOutline hread
  obtain ⟨outline, hown, hwhole⟩ := Outline.exists_ofGlyphs_join
    (hc.imp (congrArg Glyph.plain) (congrArg Glyph.plain)) glyphs (Glyph.ofChars rest) hopens
  have houtline : Outline.ofGlyphs (Glyph.ofChars (front ++ back).toList) =
      outline.after ((Outline.ofGlyphs glyphs).lexemes ++ [.segment last]) := by
    rw [String.toList_append, hfront, Glyph.ofChars_writeAll_append hglyphs, hplain,
      hwhole last hending]
  have hdangling : Glyph.isDangling back.toList = Glyph.isDangling (front ++ back).toList := by
    rw [String.toList_append, hfront, Glyph.isDangling_writeAll_append hglyphs]
  have hempty : Attempt.result
      ([Lexeme.segment []].mapM (readLexeme settings.functions)) = .ok [[]] := rfl
  rw [result_readBody_eq, result_readBody_eq, hplain, hown, houtline, readOutline_after hparts,
    readOutline_after hempty]
  refine (alike_readOutline hdangling).map ?_
  rintro more _ rfl
  rfl

/-- A body that is cut before a dot or a bracket is read in two parts: if the second part can be
read, the steps of the whole are those of both parts, and otherwise the whole fails with an error of
the same kind. The first part may not end in an escape without a character, nor in a dot that
belongs to the bracket after the cut. -/
theorem readBody_append (hread : (readBody settings front).result = .ok steps)
    (heven : Glyph.trailing front.toList % 2 = 0)
    (hback : back.toList.head? = some '.' ∨ back.toList.head? = some '[')
    (hdot : ¬ (EndsInDot front ∧ back.toList.head? = some '[')) :
    (∀ more, (readBody settings back).result = .ok more →
      (readBody settings (front ++ back)).result = .ok (steps ++ more)) ∧
    ∀ error, (readBody settings back).result = .error error →
      ∃ own, (readBody settings (front ++ back)).result = .error own ∧ own.kind = error.kind := by
  have halike := alike_readBody hread heven hback hdot
  constructor
  · intro more hmore
    obtain ⟨whole, hwhole, rfl⟩ := halike.exists_of_eq_ok hmore
    exact hwhole
  · intro error herror
    exact halike.exists_of_eq_error herror

/-- A first part that ends in a dot with an escape, before a filter and before a bracket that is
refused. -/
theorem readBody_append_filter :
    let settings : Settings := ⟨.default, .builtins⟩
    let front := ".k[0].t\\."
    let back := "[?(@.b=$\x7bx\x7d)].max()"
    (readBody settings front).result = .ok [.key "k", .select (.index 0), .key "t."] ∧
    Glyph.trailing front.toList % 2 = 0 ∧ ¬ EndsInDot front ∧
    (readBody settings (front ++ back)).result =
      .ok ([.key "k", .select (.index 0), .key "t."] ++
        [.select (.filter [⟨"b", .bind "x"⟩]), .function "max"]) ∧
    ∃ own, (readBody settings (front ++ "[*]")).result = .error own ∧ own.kind = .config := by
  intro settings front back
  have hread : (readBody settings front).result =
      .ok [.key "k", .select (.index 0), .key "t."] := by decide +kernel
  have heven : Glyph.trailing front.toList % 2 = 0 := by decide
  have hdot : ¬ EndsInDot front := by
    rintro ⟨init, hinit, hpairs⟩
    have hchars : front.toList = ".k[0].t\\".toList ++ ['.'] := by decide
    obtain rfl : ".k[0].t\\".toList = init :=
      List.append_inj_left' (hchars.symm.trans hinit) rfl
    exact absurd hpairs (by decide)
  have hmore : (readBody settings back).result =
      .ok [.select (.filter [⟨"b", .bind "x"⟩]), .function "max"] := by decide +kernel
  have hrefused : (readBody settings "[*]").result = .error .wildcard := by decide +kernel
  exact ⟨hread, heven, hdot,
    (readBody_append hread heven (.inr (by decide)) fun h => hdot h.1).1 _ hmore,
    (readBody_append hread heven (.inr (by decide)) fun h => hdot h.1).2 _ hrefused⟩

end Path

end PathQuery
