import PathQuery.Proofs.Path.Strictness

/-!
# The parts of a path

Where a path is cut depends on its escapes: a segment ends at a plain dot or opening bracket, and a
bracket closes at a plain closing bracket. The parts keep the escapes of their characters, which
the outline of a path shows for segments only. So it can be said of each part what its escapes do.

Results:
1. `Divides.outline`: the outline of a path shows its parts.
2. `exists_divides`: a path whose brackets are all closed is made of parts.
3. `exists_of_ending_concat`: which glyphs at its end belong to its last segment.
4. `exists_surrounded`: no blank that is dropped around a path is escaped.
-/

namespace PathQuery

/-- A part of a path, with the escapes of its characters. -/
inductive Part where
  /-- the glyphs of a segment -/
  | segment (glyphs : List Glyph)
  /-- a dot right before a bracket -/
  | passthrough
  /-- the glyphs between brackets -/
  | bracket (content : List Glyph)

def Part.lexeme : Part → Lexeme
  | .segment glyphs => .segment glyphs
  | .passthrough => .passthrough
  | .bracket content => .bracket (content.map Glyph.char)

namespace Outline

/-! ## Cutting a path -/

/-- No dot and no opening bracket in a segment may end it. -/
def Unbroken (glyphs : List Glyph) : Prop := .plain '.' ∉ glyphs ∧ .plain '[' ∉ glyphs

instance (glyphs : List Glyph) : Decidable (Unbroken glyphs) := inferInstanceAs (Decidable (_ ∧ _))

/-- The glyphs of a path are those of its parts, with what stands between them. -/
inductive Divides : List Glyph → List Part → Prop
  | last {glyphs : List Glyph} : Unbroken glyphs → Divides glyphs [.segment glyphs]
  | dot {glyphs rest : List Glyph} {parts : List Part} : Unbroken glyphs → Divides rest parts →
      Divides (glyphs ++ .plain '.' :: rest)
        (.segment glyphs :: ((if opensBracket rest then [.passthrough] else []) ++ parts))
  | bracket {glyphs content rest : List Glyph} {parts : List Part} : Unbroken glyphs →
      StaysOpen content → mayClose rest = true → Divides rest parts →
      Divides (glyphs ++ .plain '[' :: (content ++ .plain ']' :: rest))
        (.segment glyphs :: .bracket content :: parts)

/-- The outline of a path shows its parts, the last one as its end. -/
theorem Divides.outline {glyphs : List Glyph} {parts : List Part} (h : Divides glyphs parts) :
    ∃ last, (ofGlyphs glyphs).ending = .segment last ∧
      (ofGlyphs glyphs).lexemes ++ [.segment last] = parts.map Part.lexeme := by
  unfold ofGlyphs
  induction h with
  | @last glyphs hglyphs =>
    refine ⟨glyphs, ?_⟩
    have hsegment := inSegment_append hglyphs.1 hglyphs.2 [] []
    rw [List.append_nil] at hsegment
    rw [hsegment, inSegment, List.append_nil, List.reverse_reverse]
    exact ⟨rfl, rfl⟩
  | @dot glyphs rest parts hglyphs _ ih =>
    obtain ⟨last, hending, hlexemes⟩ := ih
    refine ⟨last, ?_⟩
    rw [inSegment_append hglyphs.1 hglyphs.2, inSegment, if_pos rfl, List.append_nil,
      List.reverse_reverse]
    refine ⟨hending, ?_⟩
    rw [List.map_cons, List.map_append, ← hlexemes]
    cases opensBracket rest <;> rfl
  | @bracket glyphs content rest parts hglyphs hcontent hclose _ ih =>
    obtain ⟨last, hending, hlexemes⟩ := ih
    refine ⟨last, ?_⟩
    rw [inSegment_append hglyphs.1 hglyphs.2, inSegment, if_neg (by decide), if_pos rfl,
      inBracket_of_staysOpen hcontent hclose, List.append_nil, List.reverse_reverse]
    refine ⟨hending, ?_⟩
    rw [List.map_cons, List.map_cons, ← hlexemes]
    rfl

/-- A path whose brackets are all closed is made of parts. The induction follows the glyphs, on
both sides of a bracket. -/
theorem exists_divides_of_ending (glyphs : List Glyph) :
    (∀ read last, Unbroken read.reverse → (inSegment read glyphs).ending = .segment last →
      ∃ parts, Divides (read.reverse ++ glyphs) parts) ∧
    (∀ read last, (inBracket read glyphs).ending = .segment last →
      ∃ content rest parts, glyphs = content ++ .plain ']' :: rest ∧ StaysOpen content ∧
        mayClose rest = true ∧ Divides rest parts) := by
  induction glyphs with
  | nil =>
    refine ⟨fun read last hread _ => ?_, fun read last h => ?_⟩
    · rw [List.append_nil]
      exact ⟨_, .last hread⟩
    · rw [inBracket] at h
      cases h
  | cons glyph rest ih =>
    obtain ⟨hsegment, hbracket⟩ := ih
    have hempty : Unbroken [] := ⟨List.not_mem_nil, List.not_mem_nil⟩
    refine ⟨fun read last hread h => ?_, fun read last h => ?_⟩
    · rw [inSegment] at h
      split at h
      · next hdot =>
        obtain ⟨parts, hparts⟩ := hsegment [] last hempty h
        subst hdot
        exact ⟨_, .dot hread hparts⟩
      · next hdot =>
        split at h
        · next hopen =>
          obtain ⟨content, more, parts, rfl, hcontent, hclose, hparts⟩ := hbracket [] last h
          subst hopen
          exact ⟨_, .bracket hread hcontent hclose hparts⟩
        · next hopen =>
          have hmore : Unbroken (glyph :: read).reverse := by
            simp only [Unbroken, List.reverse_cons, List.mem_append, List.mem_singleton, not_or]
            exact ⟨⟨hread.1, Ne.symm hdot⟩, hread.2, Ne.symm hopen⟩
          obtain ⟨parts, hparts⟩ := hsegment (glyph :: read) last hmore h
          rw [List.reverse_cons, List.append_assoc] at hparts
          exact ⟨parts, hparts⟩
    · rw [inBracket] at h
      split at h
      · next hclosed =>
        obtain ⟨rfl, hclose⟩ := hclosed
        obtain ⟨parts, hparts⟩ := hsegment [] last hempty h
        exact ⟨[], rest, parts, rfl, staysOpen_nil, hclose, hparts⟩
      · next hopen =>
        obtain ⟨content, more, parts, rfl, hcontent, hclose, hparts⟩ := hbracket _ last h
        refine ⟨glyph :: content, more, parts, rfl, ?_, hclose, hparts⟩
        refine staysOpen_cons_iff.2 ⟨fun hglyph => ?_, hcontent⟩
        rw [← mayClose_append content _ more]
        exact Bool.eq_false_iff.2 fun hmay => hopen ⟨hglyph, hmay⟩

theorem exists_divides {glyphs last : List Glyph}
    (h : (ofGlyphs glyphs).ending = .segment last) : ∃ parts, Divides glyphs parts :=
  (exists_divides_of_ending glyphs).1 [] last ⟨List.not_mem_nil, List.not_mem_nil⟩ h

/-- A glyph at the end of a path is the last one of its last segment, unless it ends a segment or
closes a bracket. -/
theorem exists_of_ending_concat {glyph : Glyph} (hdot : glyph ≠ .plain '.')
    (hopen : glyph ≠ .plain '[') (hclose : glyph ≠ .plain ']') (front : List Glyph) :
    (∀ read last, (inSegment read (front ++ [glyph])).ending = .segment last →
      ∃ init, last = init ++ [glyph]) ∧
    (∀ read last, (inBracket read (front ++ [glyph])).ending = .segment last →
      ∃ init, last = init ++ [glyph]) := by
  induction front with
  | nil =>
    refine ⟨fun read last h => ?_, fun read last h => ?_⟩
    · rw [List.nil_append, inSegment, if_neg hdot, if_neg hopen, inSegment] at h
      exact ⟨read.reverse, (Ending.segment.inj h).symm.trans List.reverse_cons⟩
    · rw [List.nil_append, inBracket, if_neg fun hglyph => hclose hglyph.1, inBracket] at h
      cases h
  | cons next front ih =>
    obtain ⟨hsegment, hbracket⟩ := ih
    refine ⟨fun read last h => ?_, fun read last h => ?_⟩
    · rw [List.cons_append, inSegment] at h
      split at h
      · exact hsegment [] last h
      · split at h
        · exact hbracket [] last h
        · exact hsegment _ last h
    · rw [List.cons_append, inBracket] at h
      split at h
      · exact hsegment [] last h
      · exact hbracket _ last h

end Outline

namespace Path

/-! ## The blanks around a path -/

/-- A path is its body after a dollar sign, with blanks around both of them. After a body that ends
in an escape without a character, nothing is dropped: no blank that is dropped is escaped. -/
theorem exists_surrounded {cs body : List Char} (h : body? cs = some body) :
    ∃ front gap back, cs = front ++ '$' :: (gap ++ (body ++ back)) ∧
      (∀ c ∈ front ++ gap ++ back, Text.isBlank c = true) ∧
      (Glyph.isDangling body = true → back = []) := by
  obtain ⟨back, hback, htrim, heven⟩ := exists_trimPathEnd_append (cs.dropWhile Text.isBlank)
  unfold body? at h
  split at h
  · next rest hrest =>
    cases h
    have hgap := List.takeWhile_append_dropWhile (p := Text.isBlank) (l := rest)
    refine ⟨cs.takeWhile Text.isBlank, rest.takeWhile Text.isBlank, back, ?_, ?_, ?_⟩
    · rw [← List.append_assoc _ _ back, hgap, ← List.cons_append, ← hrest, htrim,
        List.takeWhile_append_dropWhile]
    · intro c hc
      rcases List.mem_append.1 hc with hc | hc
      · rcases List.mem_append.1 hc with hc | hc
        · exact List.all_eq_true.1 List.all_takeWhile c hc
        · exact List.all_eq_true.1 List.all_takeWhile c hc
      · exact hback c hc
    · intro hdangling
      have hodd := Glyph.isDangling_iff.1 hdangling
      have hdollar : Glyph.trailing ('$' :: rest) = Glyph.trailing rest :=
        @Glyph.trailing_append ['$'] (by decide) rest
      rw [Glyph.trailing_dropWhile, ← hdollar, ← hrest] at hodd
      by_contra hne
      have := heven hne
      omega
  · cases h

end Path

end PathQuery
