import PathQuery.Proofs.Path.Joining

/-!
# Strict and lenient reading

The option on escapes is looked at in one place only: where the body of a path ends in an escape
without a character. Whether it does can be told from the path itself, which then ends in an odd
number of backslashes. Trimming the path does not change that, as a blank after an odd number of
backslashes is kept.

If escapes are lenient, the last backslash is kept as a plain one. It is read like an escaped
backslash: neither is trimmed, and neither has a part in a placeholder, a function or the empty key.

Results:
1. `isDangling_iff`, `trailing_of_body?`: the number of backslashes tells how a body ends.
2. `exists_ofGlyphs_backslash`, `readSegment_backslash`: a last backslash is read as an escaped one.
3. `read_strict_and_lenient`: how strict and lenient reading differ.
-/

namespace PathQuery

/-! ## The last backslashes -/

namespace Glyph

/-- An escape has no character exactly after an odd number of backslashes. -/
theorem isDangling_iff {cs : List Char} : isDangling cs = true ↔ trailing cs % 2 = 1 := by
  obtain ⟨glyphs, hglyphs, rfl | rfl⟩ := exists_writeAll cs
  · rw [isDangling_writeAll hglyphs, trailing_writeAll hglyphs]
    decide
  · have hpairs := trailing_writeAll hglyphs
    rw [isDangling_writeAll_append hglyphs, trailing_concat, if_pos rfl]
    exact ⟨fun _ => by omega, fun _ => rfl⟩

/-- The backslashes at the end are those of the second part, if no backslash is right before it. -/
theorem trailing_append {front : List Char} (h : front.getLast? ≠ some '\\') (back : List Char) :
    trailing (front ++ back) = trailing back := by
  induction back using List.reverseRecOn with
  | nil =>
    rw [List.append_nil]
    rcases List.eq_nil_or_concat front with rfl | ⟨init, c, rfl⟩
    · rfl
    · rw [List.concat_eq_append, List.getLast?_concat] at h
      rw [List.concat_eq_append, trailing_concat, if_neg fun hc => h (congrArg some hc)]
      rfl
  | append_singleton back c ih =>
    rw [← List.append_assoc, trailing_concat, trailing_concat, ih]

theorem trailing_dropWhile (cs : List Char) :
    trailing (cs.dropWhile Text.isBlank) = trailing cs := by
  have hlast : (cs.takeWhile Text.isBlank).getLast? ≠ some '\\' := by
    intro hlast
    have hblank := List.all_eq_true.1 List.all_takeWhile '\\' (List.mem_of_getLast? hlast)
    exact absurd hblank (by decide)
  rw [← trailing_append hlast, List.takeWhile_append_dropWhile]

end Glyph

/-! ## The body of a path -/

namespace Path

/-- The characters of a path after its dollar sign, if there is one. -/
def body? (cs : List Char) : Option (List Char) :=
  match trimPathEnd (cs.dropWhile Text.isBlank) with
  | '$' :: rest => some (rest.dropWhile Text.isBlank)
  | _ => none

theorem read_eq (settings : Settings) (path : String) :
    read settings path =
      match body? path.toList with
      | some body => readBody settings (String.ofList body)
      | none => throw (.noRoot path) := by
  unfold read body?
  cases trimPathEnd (path.toList.dropWhile Text.isBlank) with
  | nil => rfl
  | cons c rest =>
    by_cases hc : c = '$'
    · subst hc
      rfl
    · simp [hc]

/-- After backslashes there is nothing to trim. -/
theorem trimPathEnd_of_trailing {cs : List Char} (h : Glyph.trailing cs ≠ 0) :
    trimPathEnd cs = cs := by
  refine trimPathEnd_eq_self ?_
  intro c hc
  obtain ⟨init, rfl⟩ := List.getLast?_eq_some_iff.1 hc
  rw [Glyph.trailing_concat] at h
  obtain rfl : c = '\\' := of_not_not fun hne => h (if_neg hne)
  rfl

/-- What is trimmed are blanks after an even number of backslashes, as a blank after an odd number
is kept. -/
theorem exists_trimPathEnd_append (cs : List Char) :
    ∃ back, (∀ c ∈ back, Text.isBlank c = true) ∧ trimPathEnd cs ++ back = cs ∧
      (back ≠ [] → Glyph.trailing (trimPathEnd cs) % 2 = 0) := by
  obtain ⟨blanks, hblanks, hcs⟩ := Text.exists_dropEndWhile_append Text.isBlank cs
  unfold trimPathEnd
  simp only
  generalize Text.dropEndWhile Text.isBlank cs = trimmed at hcs ⊢
  split
  · next heven => exact ⟨blanks, hblanks, hcs, fun _ => heven⟩
  · cases blanks with
    | nil =>
      rw [List.append_nil] at hcs
      subst hcs
      rw [List.take_of_length_le (Nat.le_succ _)]
      exact ⟨[], nofun, List.append_nil _, fun h => absurd rfl h⟩
    | cons c blanks =>
      obtain ⟨hblank, hmore⟩ := List.forall_mem_cons.1 hblanks
      have hc : c ≠ '\\' := by
        rintro rfl
        exact absurd hblank (by decide)
      have hkept : cs.take (trimmed.length + 1) = trimmed ++ [c] := by
        rw [← hcs, List.take_length_add_append]
        rfl
      rw [hkept, Glyph.trailing_concat, if_neg hc]
      exact ⟨blanks, hmore, by rw [← hcs, List.append_assoc]; rfl, fun _ => rfl⟩

/-- A path that ends in no backslash is trimmed to one that ends in an even number of them. -/
theorem trailing_trimPathEnd {cs : List Char} (h : Glyph.trailing cs = 0) :
    Glyph.trailing (trimPathEnd cs) % 2 = 0 := by
  obtain ⟨back, -, hcs, heven⟩ := exists_trimPathEnd_append cs
  by_cases hback : back = []
  · rw [hback, List.append_nil] at hcs
    rw [hcs, h]
  · exact heven hback

/-- The body of a path ends in an odd number of backslashes exactly if the path does. -/
theorem trailing_of_body? {cs body : List Char} (h : body? cs = some body) :
    Glyph.trailing body % 2 = 1 ↔ Glyph.trailing cs % 2 = 1 := by
  unfold body? at h
  split at h
  · next rest hrest =>
    cases h
    have hdollar : Glyph.trailing ('$' :: rest) = Glyph.trailing rest :=
      @Glyph.trailing_append ['$'] (by decide) rest
    rw [Glyph.trailing_dropWhile, ← hdollar, ← hrest, ← Glyph.trailing_dropWhile cs]
    by_cases hzero : Glyph.trailing (cs.dropWhile Text.isBlank) = 0
    · have heven := trailing_trimPathEnd hzero
      omega
    · rw [trimPathEnd_of_trailing hzero]
  · cases h

/-- One more backslash after an odd number is one more in the body. -/
theorem body?_concat {cs : List Char} (h : Glyph.trailing cs % 2 = 1) :
    body? (cs ++ ['\\']) = (body? cs).map (· ++ ['\\']) := by
  have hblank : Text.isBlank '\\' = false := rfl
  have htrim : trimPathEnd (cs.dropWhile Text.isBlank) = cs.dropWhile Text.isBlank := by
    refine trimPathEnd_of_trailing ?_
    rw [Glyph.trailing_dropWhile]
    omega
  have hmore : trimPathEnd (cs.dropWhile Text.isBlank ++ ['\\']) =
      cs.dropWhile Text.isBlank ++ ['\\'] := by
    refine trimPathEnd_of_trailing ?_
    rw [Glyph.trailing_concat, if_pos rfl]
    exact Nat.succ_ne_zero _
  unfold body?
  rw [Text.dropWhile_append_cons hblank, htrim, hmore]
  cases hcs : cs.dropWhile Text.isBlank with
  | nil => rfl
  | cons c rest =>
    by_cases hc : c = '$'
    · subst hc
      exact congrArg some (Text.dropWhile_append_cons hblank rest [])
    · simp [hc]

end Path

/-! ## A last backslash -/

def Glyph.backslash (escaped : Bool) : Glyph := ⟨'\\', escaped⟩

theorem Glyph.backslash_ne {c : Char} (hc : c ≠ '\\') (escaped : Bool) :
    backslash escaped ≠ plain c := by
  intro heq
  exact hc (congrArg Glyph.char heq).symm

namespace Outline

/-- Outlines that depend on whether a last backslash is escaped, but only in this backslash: it ends
the last segment, or it stands in a bracket that is never closed. -/
inductive EndInBackslash : (Bool → Outline) → Prop
  | segment (lexemes : List Lexeme) (last : List Glyph) :
      EndInBackslash fun escaped => ⟨lexemes, .segment (last ++ [.backslash escaped])⟩
  | bracket (lexemes : List Lexeme) : EndInBackslash fun _ => ⟨lexemes, .bracket⟩

theorem EndInBackslash.after {outline : Bool → Outline} (h : EndInBackslash outline)
    (front : List Lexeme) : EndInBackslash fun escaped => (outline escaped).after front := by
  cases h with
  | segment lexemes last => exact .segment (front ++ lexemes) last
  | bracket lexemes => exact .bracket (front ++ lexemes)

/-- A last backslash does not end a segment and does not open or close a bracket. -/
theorem endInBackslash (front : List Glyph) :
    (∀ read, EndInBackslash fun escaped => inSegment read (front ++ [.backslash escaped])) ∧
    (∀ read, EndInBackslash fun escaped => inBracket read (front ++ [.backslash escaped])) := by
  have hplain (c : Char) (hc : c ≠ '\\') (escaped : Bool) := Glyph.backslash_ne hc escaped
  induction front with
  | nil =>
    constructor
    · intro read
      have hread (escaped : Bool) : inSegment read [.backslash escaped] =
          ⟨[], .segment (read.reverse ++ [.backslash escaped])⟩ := by
        rw [inSegment, if_neg (hplain '.' (by decide) escaped),
          if_neg (hplain '[' (by decide) escaped), inSegment, List.reverse_cons]
      simp only [List.nil_append, hread]
      exact .segment [] read.reverse
    · intro read
      have hread (escaped : Bool) : inBracket read [.backslash escaped] = ⟨[], .bracket⟩ := by
        rw [inBracket, if_neg fun h => hplain ']' (by decide) escaped h.1, inBracket]
      simp only [List.nil_append, hread]
      exact .bracket []
  | cons glyph rest ih =>
    obtain ⟨hsegment, hbracket⟩ := ih
    constructor
    · intro read
      have hopens (escaped : Bool) :
          opensBracket (rest ++ [.backslash escaped]) = opensBracket rest := by
        cases rest with
        | nil => exact decide_eq_false (hplain '[' (by decide) escaped)
        | cons next rest => rfl
      simp only [List.cons_append, inSegment, hopens]
      split
      · exact (hsegment []).after _
      · split
        · exact (hbracket []).after _
        · exact hsegment _
    · intro read
      obtain ⟨closes, hcloses⟩ : ∃ closes, ∀ escaped,
          mayClose (rest ++ [.backslash escaped]) = closes := by
        cases rest with
        | nil =>
          refine ⟨false, fun escaped => ?_⟩
          simp [mayClose, hplain '.' (by decide), hplain '[' (by decide)]
        | cons next rest => exact ⟨mayClose (next :: rest), fun _ => rfl⟩
      simp only [List.cons_append, inBracket, hcloses]
      split
      · exact (hsegment []).after _
      · exact hbracket _

end Outline

namespace Path

variable {functions : Registry}

theorem hasEscaped_backslash {cs : List Char} (hcs : '\\' ∉ cs) (front : List Glyph)
    (escaped : Bool) : hasEscaped (front ++ [.backslash escaped]) cs = hasEscaped front cs := by
  have hlast : (escaped && cs.contains '\\') = false := by
    rw [List.contains_eq_mem, decide_eq_false hcs, Bool.and_false]
  unfold hasEscaped
  rw [List.any_append, List.any_cons, List.any_nil, Bool.or_false]
  exact (congrArg _ hlast).trans (Bool.or_false _)

/-- A name that ends in a backslash is read alike, whether the backslash is escaped or not. -/
theorem readName_backslash (front : List Glyph) (escaped : Bool) :
    readName functions (front ++ [.backslash escaped]) =
      readName functions (front ++ [.backslash true]) := by
  cases front with
  | nil =>
    -- A backslash alone is no placeholder, so it does not matter that it comes first.
    cases escaped with
    | true => rfl
    | false => rfl
  | cons glyph front =>
    have htext : textOf (glyph :: front ++ [.backslash escaped]) =
        textOf (glyph :: front ++ [.backslash true]) := by
      simp only [textOf, List.map_append]
      rfl
    have hquote := hasEscaped_backslash (show '\\' ∉ ['\''] by decide) (glyph :: front)
    have hcall := hasEscaped_backslash (show '\\' ∉ ['(', ')'] by decide) (glyph :: front)
    unfold readName
    simp only [htext, hquote, hcall]
    rfl

/-- A segment that does not end in a plain blank is trimmed at its start only. -/
theorem trimGlyphs_concat {glyph : Glyph} (h : glyph.isPlainBlank = false) (front : List Glyph) :
    trimGlyphs (front ++ [glyph]) = front.dropWhile Glyph.isPlainBlank ++ [glyph] := by
  show Text.trimBy Glyph.isPlainBlank _ = _
  rw [Text.trimBy, Text.dropWhile_append_cons h]
  refine Text.dropEndWhile_eq_self ?_
  intro last hlast
  rw [List.getLast?_concat] at hlast
  exact Option.some.inj hlast ▸ h

theorem readSegment_concat {glyph : Glyph} (h : glyph.isPlainBlank = false) (front : List Glyph) :
    readSegment functions (front ++ [glyph]) =
      (readName functions (front.dropWhile Glyph.isPlainBlank ++ [glyph])).map ([·]) :=
  readSegment_of_trimGlyphs functions (trimGlyphs_concat h front)
    (List.append_ne_nil_of_right_ne_nil _ (List.cons_ne_nil _ _))

theorem readSegment_backslash (front : List Glyph) (escaped : Bool) :
    readSegment functions (front ++ [.backslash escaped]) =
      readSegment functions (front ++ [.backslash true]) := by
  have hkept (own : Bool) : (Glyph.backslash own).isPlainBlank = false := Bool.and_false _
  rw [readSegment_concat (hkept escaped), readSegment_concat (hkept true), readName_backslash]

/-- If escapes are lenient, a body that ends in a backslash is read alike, whether it is escaped or
not. -/
theorem alike_readOutline_backslash {outline : Bool → Outline}
    (h : Outline.EndInBackslash outline) (escaped : Bool) (body body' : String) :
    Alike Eq (readOutline ⟨⟨false⟩, functions⟩ body (outline escaped))
      (readOutline ⟨⟨false⟩, functions⟩ body' (outline true)) := by
  have hlenient (body : String) : (readDangling ⟨false⟩ body).result = .ok () := by
    unfold readDangling
    split
    · rfl
    · rfl
  cases h with
  | segment lexemes last =>
    simp only [readOutline, hlenient, readEnding, readSegment_backslash last escaped]
    exact alike_refl (fun _ => rfl) _
  | bracket lexemes =>
    simp only [readOutline, hlenient]
    refine (alike_refl (R := Eq) (fun _ => rfl) _).bind ?_
    rintro parts _ rfl
    exact .error rfl

/-! ## Both settings -/

/-- Without an escape that has no character, the option on escapes is not looked at. -/
theorem readBody_eq_of_not_dangling {body : String} (h : Glyph.isDangling body.toList = false)
    (options options' : Options) :
    readBody ⟨options, functions⟩ body = readBody ⟨options', functions⟩ body := by
  unfold readBody readDangling
  simp only [h]
  rfl

/-- A body that ends in an escape without a character is refused if escapes are strict. -/
theorem exists_error_of_dangling {body : String} (h : Glyph.isDangling body.toList = true) :
    ∃ error, (readBody ⟨⟨true⟩, functions⟩ body).result = .error error := by
  have hstrict : (readDangling ⟨true⟩ body).result = .error (.danglingEscape body) := by
    unfold readDangling
    rw [h]
    rfl
  rw [result_readBody_eq]
  simp only [readOutline, hstrict]
  cases Attempt.result ((Outline.ofGlyphs (Glyph.ofChars body.toList)).lexemes.mapM
      (readLexeme functions)) with
  | error error => exact ⟨error, rfl⟩
  | ok parts => exact ⟨_, rfl⟩

/-- If escapes are lenient, a body that ends in an escape without a character is read alike with one
more backslash. -/
theorem alike_readBody_backslash {cs : List Char} (h : Glyph.isDangling cs = true) :
    Alike Eq (readBody ⟨⟨false⟩, functions⟩ (String.ofList cs)).result
      (readBody ⟨⟨false⟩, functions⟩ (String.ofList (cs ++ ['\\']))).result := by
  obtain ⟨glyphs, hglyphs, rfl | rfl⟩ := Glyph.exists_writeAll cs
  · rw [Glyph.isDangling_writeAll hglyphs] at h
    cases h
  · rw [result_readBody_eq, result_readBody_eq, String.toList_ofList, String.toList_ofList,
      List.append_assoc, Glyph.ofChars_writeAll_append hglyphs,
      Glyph.ofChars_writeAll_append hglyphs]
    exact alike_readOutline_backslash ((Outline.endInBackslash glyphs).1 []) false _ _

/-- A path that does not end in an odd number of backslashes is read in one way, whether escapes are
strict or lenient, down to the pieces that reading asks for and the notices it writes. A path that
does is refused if escapes are strict. If they are lenient, it has the steps of the path with one
more backslash, or both fail with an error of the same kind. -/
theorem read_strict_and_lenient (functions : Registry) (path : String) :
    let strict : Settings := ⟨⟨true⟩, functions⟩
    let lenient : Settings := ⟨⟨false⟩, functions⟩
    (Glyph.trailing path.toList % 2 = 0 → read strict path = read lenient path) ∧
    (Glyph.trailing path.toList % 2 = 1 →
      (∃ error, (read strict path).result = .error error) ∧
      Alike Eq (read lenient path).result (read lenient (path ++ "\\")).result) := by
  intro strict lenient
  have hmore : (path ++ "\\").toList = path.toList ++ ['\\'] := String.toList_append
  constructor
  · intro heven
    rw [read_eq, read_eq]
    cases hbody : body? path.toList with
    | none => rfl
    | some body =>
      refine readBody_eq_of_not_dangling ?_ _ _
      rw [String.toList_ofList, Bool.eq_false_iff, ne_eq, Glyph.isDangling_iff,
        trailing_of_body? hbody]
      omega
  · intro hodd
    rw [read_eq, read_eq, read_eq, hmore, body?_concat hodd]
    cases hbody : body? path.toList with
    | none => exact ⟨⟨_, rfl⟩, .error rfl⟩
    | some body =>
      have hdangling := Glyph.isDangling_iff.2 ((trailing_of_body? hbody).2 hodd)
      exact ⟨exists_error_of_dangling (String.toList_ofList.symm ▸ hdangling),
        alike_readBody_backslash hdangling⟩

/-- A path that ends in an escaped blank, and one that ends in three backslashes, of which the last
one escapes nothing. -/
theorem read_strict_and_lenient_of_backslashes :
    let strict : Settings := ⟨⟨true⟩, .builtins⟩
    let lenient : Settings := ⟨⟨false⟩, .builtins⟩
    let blank := "$.a[0].b\\ "
    let path := "$.$\x7bk\x7d.b\\\\\\"
    Glyph.trailing blank.toList % 2 = 0 ∧ read strict blank = read lenient blank ∧
    Glyph.trailing path.toList % 2 = 1 ∧
    (∃ error, (read strict path).result = .error error) ∧
    (read lenient path).result = .ok [.placeholder "k", .key "b\\\\"] ∧
    (read lenient (path ++ "\\")).result = .ok [.placeholder "k", .key "b\\\\"] := by
  intro strict lenient blank path
  have heven : Glyph.trailing blank.toList % 2 = 0 := by decide
  have hodd : Glyph.trailing path.toList % 2 = 1 := by decide
  have hread : (read lenient path).result = .ok [.placeholder "k", .key "b\\\\"] := by
    decide +kernel
  obtain ⟨hstrict, halike⟩ := (read_strict_and_lenient .builtins path).2 hodd
  obtain ⟨_, hmore, rfl⟩ := halike.exists_of_eq_ok hread
  exact ⟨heven, (read_strict_and_lenient .builtins blank).1 heven, hodd, hstrict, hread, hmore⟩

end Path

end PathQuery
