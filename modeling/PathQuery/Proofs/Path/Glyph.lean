import PathQuery.Path.Parser

/-!
# Writing glyphs

A glyph is written as its character, with a backslash in front if it is escaped. Only a plain
backslash cannot be written so: it would escape what follows.

Results:
1. `ofChars_writeAll_append`: what is written is read as the same glyphs.
2. `isDangling_writeAll`: it never ends in an escape without a character.
3. `exists_writeAll_of_even`: a text that does not end in such an escape is written so.
4. `trimPathEnd_writeAll`: its end is not trimmed, unless it ends in a plain blank.
-/

namespace PathQuery

namespace Glyph

def write (glyph : Glyph) : List Char :=
  if glyph.escaped then ['\\', glyph.char] else [glyph.char]

def writeAll (glyphs : List Glyph) : List Char := glyphs.flatMap write

/-- A glyph that trimming drops from an end. -/
def isPlainBlank (glyph : Glyph) : Bool := !glyph.escaped && Text.isBlank glyph.char

theorem writeAll_append (first second : List Glyph) :
    writeAll (first ++ second) = writeAll first ++ writeAll second :=
  List.flatMap_append

theorem writeAll_plain (cs : List Char) : writeAll (cs.map plain) = cs := by
  induction cs with
  | nil => rfl
  | cons c cs ih => exact congrArg (c :: ·) ih

theorem plain_mem_map_iff {c : Char} {cs : List Char} : plain c ∈ cs.map plain ↔ c ∈ cs := by
  constructor
  · intro h
    obtain ⟨d, hd, heq⟩ := List.mem_map.1 h
    obtain rfl : d = c := congrArg Glyph.char heq
    exact hd
  · exact List.mem_map_of_mem

/-- Characters in brackets are written as they stand. -/
theorem writeAll_bracket (cs : List Char) :
    writeAll (plain '[' :: (cs.map plain ++ [plain ']'])) = '[' :: (cs ++ [']']) := by
  refine congrArg ('[' :: ·) ((writeAll_append _ _).trans ?_)
  rw [writeAll_plain]
  rfl

theorem ofChars_cons {c : Char} (h : c ≠ '\\') (rest : List Char) :
    ofChars (c :: rest) = plain c :: ofChars rest := by
  rw [ofChars]
  · exact fun hc => absurd hc h
  · exact fun _ _ hc => absurd hc h

theorem isDangling_cons {c : Char} (h : c ≠ '\\') (rest : List Char) :
    isDangling (c :: rest) = isDangling rest := by
  rw [isDangling]
  · exact fun hc => absurd hc h
  · exact fun _ _ hc => absurd hc h

/-- What is written is read as the same glyphs, whatever comes after it. -/
theorem ofChars_writeAll_append {glyphs : List Glyph} (h : plain '\\' ∉ glyphs)
    (rest : List Char) : ofChars (writeAll glyphs ++ rest) = glyphs ++ ofChars rest := by
  induction glyphs with
  | nil => rfl
  | cons glyph glyphs ih =>
    have hglyph := List.ne_of_not_mem_cons h
    have hglyphs := List.not_mem_of_not_mem_cons h
    obtain ⟨c, escaped⟩ := glyph
    cases escaped with
    | true => exact congrArg (⟨c, true⟩ :: ·) (ih hglyphs)
    | false =>
      have hc : c ≠ '\\' := fun hc => hglyph (hc ▸ rfl)
      exact (ofChars_cons hc _).trans (congrArg (plain c :: ·) (ih hglyphs))

theorem ofChars_writeAll {glyphs : List Glyph} (h : plain '\\' ∉ glyphs) :
    ofChars (writeAll glyphs) = glyphs := by
  have hchars := ofChars_writeAll_append h []
  rw [List.append_nil] at hchars
  exact hchars.trans (List.append_nil glyphs)

/-- Whether an escape has no character is decided by what comes after written glyphs. -/
theorem isDangling_writeAll_append {glyphs : List Glyph} (h : plain '\\' ∉ glyphs)
    (rest : List Char) : isDangling (writeAll glyphs ++ rest) = isDangling rest := by
  induction glyphs with
  | nil => rfl
  | cons glyph glyphs ih =>
    have hglyph := List.ne_of_not_mem_cons h
    have hglyphs := List.not_mem_of_not_mem_cons h
    obtain ⟨c, escaped⟩ := glyph
    cases escaped with
    | true => exact ih hglyphs
    | false =>
      have hc : c ≠ '\\' := fun hc => hglyph (hc ▸ rfl)
      exact (isDangling_cons hc _).trans (ih hglyphs)

theorem isDangling_writeAll {glyphs : List Glyph} (h : plain '\\' ∉ glyphs) :
    isDangling (writeAll glyphs) = false := by
  have hdangling := isDangling_writeAll_append h []
  rw [List.append_nil] at hdangling
  exact hdangling

/-- Every text is that of glyphs that can be written, up to an escape without a character. -/
theorem exists_writeAll (cs : List Char) :
    ∃ glyphs, plain '\\' ∉ glyphs ∧ (cs = writeAll glyphs ∨ cs = writeAll glyphs ++ ['\\']) := by
  induction cs using ofChars.induct with
  | case1 => exact ⟨[], List.not_mem_nil, .inl rfl⟩
  | case2 => exact ⟨[], List.not_mem_nil, .inr rfl⟩
  | case3 c rest ih =>
    obtain ⟨glyphs, hglyphs, hrest⟩ := ih
    refine ⟨⟨c, true⟩ :: glyphs, List.not_mem_cons_of_ne_of_not_mem nofun hglyphs, ?_⟩
    exact hrest.imp (congrArg ('\\' :: c :: ·)) (congrArg ('\\' :: c :: ·))
  | case4 c rest hnot hnot' ih =>
    obtain ⟨glyphs, hglyphs, hrest⟩ := ih
    have hc : plain '\\' ≠ plain c := by
      intro heq
      obtain rfl : '\\' = c := congrArg Glyph.char heq
      cases rest with
      | nil => exact hnot rfl rfl
      | cons d rest => exact hnot' d rest rfl rfl
    refine ⟨plain c :: glyphs, List.not_mem_cons_of_ne_of_not_mem hc hglyphs, ?_⟩
    exact hrest.imp (congrArg (c :: ·)) (congrArg (c :: ·))

/-! ## The end of a path -/

/-- The number of backslashes at the end of a text. -/
def trailing (cs : List Char) : Nat := (cs.reverse.takeWhile (· == '\\')).length

theorem trailing_concat (cs : List Char) (c : Char) :
    trailing (cs ++ [c]) = if c = '\\' then trailing cs + 1 else 0 := by
  unfold trailing
  rw [List.reverse_append, List.reverse_singleton, List.singleton_append, List.takeWhile_cons]
  by_cases hc : c = '\\'
  · simp [hc]
  · simp [hc]

/-- Written glyphs end in pairs of backslashes: each is an escaped backslash. -/
theorem trailing_writeAll {glyphs : List Glyph} (h : plain '\\' ∉ glyphs) :
    trailing (writeAll glyphs) % 2 = 0 := by
  generalize hreverse : glyphs.reverse = reversed
  induction reversed generalizing glyphs with
  | nil =>
    rw [List.reverse_eq_nil_iff.1 hreverse]
    rfl
  | cons glyph rest ih =>
    obtain rfl : glyphs = rest.reverse ++ [glyph] := by
      rw [← List.reverse_cons, ← hreverse, List.reverse_reverse]
    obtain ⟨hrest, hglyph⟩ := not_or.1 (mt List.mem_append.2 h)
    have heven := ih hrest (List.reverse_reverse rest)
    obtain ⟨c, escaped⟩ := glyph
    cases escaped with
    | true =>
      have hwritten : writeAll (rest.reverse ++ [⟨c, true⟩]) =
          (writeAll rest.reverse ++ ['\\']) ++ [c] := by
        rw [writeAll_append, List.append_assoc]
        rfl
      rw [hwritten, trailing_concat, trailing_concat, if_pos rfl]
      split
      · omega
      · rfl
    | false =>
      have hc : c ≠ '\\' := fun hc => hglyph (hc ▸ List.mem_singleton_self _)
      rw [writeAll_append]
      exact (congrArg (· % 2) (trailing_concat _ c)).trans (by rw [if_neg hc])

/-- A text with an even number of backslashes at its end is that of glyphs. -/
theorem exists_writeAll_of_even {cs : List Char} (h : trailing cs % 2 = 0) :
    ∃ glyphs, plain '\\' ∉ glyphs ∧ cs = writeAll glyphs := by
  obtain ⟨glyphs, hglyphs, rfl | rfl⟩ := exists_writeAll cs
  · exact ⟨glyphs, hglyphs, rfl⟩
  · have hpairs := trailing_writeAll hglyphs
    rw [trailing_concat, if_pos rfl] at h
    omega

end Glyph

namespace Path

/-- Without blanks at the end, a text is left as it is. -/
theorem trimPathEnd_eq_self {cs : List Char}
    (hend : ∀ c, cs.getLast? = some c → Text.isBlank c = false) : trimPathEnd cs = cs := by
  have htrim : Text.dropEndWhile Text.isBlank cs = cs := Text.dropEndWhile_eq_self hend
  unfold trimPathEnd
  simp only [htrim, List.take_of_length_le (Nat.le_succ cs.length), ite_self]

/-- A blank is kept after an odd number of backslashes. -/
theorem trimPathEnd_concat {cs : List Char} {c : Char} (hblank : Text.isBlank c = true)
    (hend : ∀ d, cs.getLast? = some d → Text.isBlank d = false) (hodd : Glyph.trailing cs % 2 = 1) :
    trimPathEnd (cs ++ [c]) = cs ++ [c] := by
  have htrim : Text.dropEndWhile Text.isBlank (cs ++ [c]) = cs := by
    unfold Text.dropEndWhile
    rw [List.reverse_append, List.reverse_singleton, List.singleton_append,
      List.dropWhile_cons_of_pos hblank]
    exact Text.dropEndWhile_eq_self hend
  have hodd' : ¬ Glyph.trailing cs % 2 = 0 := by omega
  unfold trimPathEnd
  rw [htrim]
  refine (if_neg hodd').trans (List.take_of_length_le (Nat.le_of_eq ?_))
  rw [List.length_append, List.length_singleton]

/-- Written glyphs are not trimmed at the end, unless the last one is a plain blank. -/
theorem trimPathEnd_writeAll {glyphs : List Glyph} (h : Glyph.plain '\\' ∉ glyphs)
    (hend : ∀ glyph, glyphs.getLast? = some glyph → glyph.isPlainBlank = false) :
    trimPathEnd (Glyph.writeAll glyphs) = Glyph.writeAll glyphs := by
  rcases List.eq_nil_or_concat glyphs with rfl | ⟨init, ⟨c, escaped⟩, hglyphs⟩
  · rfl
  rw [List.concat_eq_append] at hglyphs
  subst hglyphs
  have hlast := hend ⟨c, escaped⟩ List.getLast?_concat
  have hinit : Glyph.plain '\\' ∉ init := fun hmem => h (List.mem_append_left _ hmem)
  cases escaped with
  | false =>
    have hwritten : Glyph.writeAll (init ++ [⟨c, false⟩]) = Glyph.writeAll init ++ [c] :=
      Glyph.writeAll_append _ _
    refine trimPathEnd_eq_self ?_
    intro d hd
    rw [hwritten, List.getLast?_concat] at hd
    exact Option.some.inj hd ▸ hlast
  | true =>
    have hwritten : Glyph.writeAll (init ++ [⟨c, true⟩]) =
        (Glyph.writeAll init ++ ['\\']) ++ [c] := by
      rw [Glyph.writeAll_append, List.append_assoc]
      rfl
    cases hblank : Text.isBlank c with
    | false =>
      refine trimPathEnd_eq_self ?_
      intro d hd
      rw [hwritten, List.getLast?_concat] at hd
      exact Option.some.inj hd ▸ hblank
    | true =>
      rw [hwritten]
      refine trimPathEnd_concat hblank ?_ ?_
      · intro d hd
        rw [List.getLast?_concat] at hd
        exact Option.some.inj hd ▸ rfl
      · have hpairs := Glyph.trailing_writeAll hinit
        rw [Glyph.trailing_concat, if_pos rfl]
        omega

end Path

end PathQuery
