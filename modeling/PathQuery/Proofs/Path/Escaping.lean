import PathQuery.Proofs.Path.Call
import PathQuery.Proofs.Path.Glyph

/-!
# Escaped keys

An escaped key is the text of some glyphs. None of them has a meaning of its own: each special
character among them is escaped, and so is a blank at either end. So a segment of them is only
ever read as the key.

Results:
1. `toList_escapeKey`: escaping a key writes its glyphs.
2. `inert_of_mem_ofKey`: these do not end a segment, open a bracket or escape anything.
3. `readSegment_ofKey`: they are read as that key, whatever functions there are.
-/

namespace PathQuery

/-! ## The glyphs of a key -/

namespace Glyph

def ofKeyChar (atEdge : Bool) (c : Char) : Glyph :=
  ⟨c, Segment.isSpecial c || (atEdge && Text.isBlank c)⟩

def ofKeyChars (atStart : Bool) : List Char → List Glyph
  | [] => []
  | [c] => [ofKeyChar true c]
  | c :: rest => ofKeyChar atStart c :: ofKeyChars false rest

/-- The glyphs of the segment that stands for a key. -/
def ofKey (key : String) : List Glyph :=
  if key = "" then [⟨'\'', false⟩, ⟨'\'', false⟩]
  else if key = Segment.emptyKey then [⟨'\'', true⟩, ⟨'\'', false⟩]
  else ofKeyChars true key.toList

/-- A glyph has no meaning of its own: a special character is escaped. -/
def Inert (glyph : Glyph) : Prop := glyph.escaped = false → Segment.isSpecial glyph.char = false

theorem Inert.ne_plain {glyph : Glyph} (h : glyph.Inert) {c : Char}
    (hc : Segment.isSpecial c = true) : glyph ≠ plain c := by
  rintro rfl
  exact absurd hc (Bool.eq_false_iff.1 (h rfl))

theorem not_mem_plain {glyphs : List Glyph} (h : ∀ glyph ∈ glyphs, glyph.Inert) {c : Char}
    (hc : Segment.isSpecial c = true) : plain c ∉ glyphs :=
  fun hmem => (h _ hmem).ne_plain hc rfl

theorem ofKeyChars_cons (atStart : Bool) (c d : Char) (rest : List Char) :
    ofKeyChars atStart (c :: d :: rest) = ofKeyChar atStart c :: ofKeyChars false (d :: rest) := rfl

theorem map_char_ofKeyChars (atStart : Bool) (cs : List Char) :
    (ofKeyChars atStart cs).map Glyph.char = cs := by
  induction cs generalizing atStart with
  | nil => rfl
  | cons c rest ih =>
    cases rest with
    | nil => rfl
    | cons d rest => exact congrArg (c :: ·) (ih false)

theorem writeAll_ofKeyChars (atStart : Bool) (cs : List Char) :
    writeAll (ofKeyChars atStart cs) = Segment.escapeChars atStart cs := by
  induction cs generalizing atStart with
  | nil => rfl
  | cons c rest ih =>
    cases rest with
    | nil => exact List.append_nil _
    | cons d rest => exact congrArg (Segment.escapeChar atStart c ++ ·) (ih false)

theorem inert_ofKeyChar (atEdge : Bool) (c : Char) : (ofKeyChar atEdge c).Inert :=
  fun h => (Bool.or_eq_false_iff.1 h).1

theorem inert_of_mem_ofKeyChars {atStart : Bool} {cs : List Char} {glyph : Glyph}
    (h : glyph ∈ ofKeyChars atStart cs) : glyph.Inert := by
  induction cs generalizing atStart with
  | nil => cases h
  | cons c rest ih =>
    cases rest with
    | nil =>
      rw [List.mem_singleton.1 h]
      exact inert_ofKeyChar true c
    | cons d rest =>
      rcases List.mem_cons.1 h with rfl | h
      · exact inert_ofKeyChar atStart c
      · exact ih h

/-- Blanks at an edge are escaped. -/
theorem isPlainBlank_ofKeyChar (c : Char) : (ofKeyChar true c).isPlainBlank = false := by
  unfold isPlainBlank ofKeyChar
  cases Text.isBlank c with
  | true => simp
  | false => simp

theorem head?_ofKeyChars (c : Char) (rest : List Char) :
    (ofKeyChars true (c :: rest)).head? = some (ofKeyChar true c) := by
  cases rest with
  | nil => rfl
  | cons d rest => rfl

theorem getLast?_ofKeyChars (atStart : Bool) (cs : List Char) :
    (ofKeyChars atStart cs).getLast? = cs.getLast?.map (ofKeyChar true) := by
  induction cs generalizing atStart with
  | nil => rfl
  | cons c rest ih =>
    cases rest with
    | nil => rfl
    | cons d rest =>
      have hne : ofKeyChars false (d :: rest) ≠ [] := by
        intro hnil
        have := map_char_ofKeyChars false (d :: rest)
        rw [hnil] at this
        cases this
      rw [ofKeyChars_cons, List.getLast?_cons_of_ne_nil hne, ih, List.getLast?_cons_cons]

theorem ofKey_cases (key : String) :
    (key = "" ∧ ofKey key = [⟨'\'', false⟩, ⟨'\'', false⟩]) ∨
    (key = Segment.emptyKey ∧ ofKey key = [⟨'\'', true⟩, ⟨'\'', false⟩]) ∨
    (key ≠ Segment.emptyKey ∧ ∃ c rest, key.toList = c :: rest ∧
      ofKey key = ofKeyChars true (c :: rest)) := by
  unfold ofKey
  split
  · next hempty => exact .inl ⟨hempty, rfl⟩
  · next hempty =>
    split
    · next hquotes => exact .inr (.inl ⟨hquotes, rfl⟩)
    · next hquotes =>
      cases hkey : key.toList with
      | nil => exact absurd (String.toList_eq_nil_iff.1 hkey) hempty
      | cons c rest => exact .inr (.inr ⟨hquotes, c, rest, rfl, rfl⟩)

theorem ofKey_ne_nil (key : String) : ofKey key ≠ [] := by
  intro hnil
  rcases ofKey_cases key with ⟨-, hkey⟩ | ⟨-, hkey⟩ | ⟨-, c, rest, -, hkey⟩
  · cases hkey.symm.trans hnil
  · cases hkey.symm.trans hnil
  · have hhead := head?_ofKeyChars c rest
    rw [← hkey, hnil] at hhead
    cases hhead

/-- The glyphs of a key do not end a segment, open a bracket or escape anything. -/
theorem inert_of_mem_ofKey {key : String} {glyph : Glyph} (h : glyph ∈ ofKey key) :
    glyph.Inert := by
  have hquote (escaped : Bool) : Inert ⟨'\'', escaped⟩ := fun _ => rfl
  rcases ofKey_cases key with ⟨-, hkey⟩ | ⟨-, hkey⟩ | ⟨-, c, rest, -, hkey⟩
  · rw [hkey, List.mem_cons, List.mem_singleton] at h
    rcases h with rfl | rfl
    · exact hquote false
    · exact hquote false
  · rw [hkey, List.mem_cons, List.mem_singleton] at h
    rcases h with rfl | rfl
    · exact hquote true
    · exact hquote false
  · exact inert_of_mem_ofKeyChars (hkey ▸ h)

/-- There is no blank to trim at either end. -/
theorem ends_ofKey (key : String) :
    (∀ glyph, (ofKey key).head? = some glyph → glyph.isPlainBlank = false) ∧
    (∀ glyph, (ofKey key).getLast? = some glyph → glyph.isPlainBlank = false) := by
  rcases ofKey_cases key with ⟨-, hkey⟩ | ⟨-, hkey⟩ | ⟨-, c, rest, -, hkey⟩
  · rw [hkey]
    exact ⟨fun glyph h => Option.some.inj h ▸ rfl, fun glyph h => Option.some.inj h ▸ rfl⟩
  · rw [hkey]
    exact ⟨fun glyph h => Option.some.inj h ▸ rfl, fun glyph h => Option.some.inj h ▸ rfl⟩
  · rw [hkey, head?_ofKeyChars, getLast?_ofKeyChars]
    constructor
    · intro glyph h
      exact Option.some.inj h ▸ isPlainBlank_ofKeyChar c
    · intro glyph h
      obtain ⟨d, -, rfl⟩ := Option.map_eq_some_iff.1 h
      exact isPlainBlank_ofKeyChar d

end Glyph

/-- Escaping a key writes its glyphs. -/
theorem Segment.toList_escapeKey (key : String) :
    (escapeKey key).toList = Glyph.writeAll (Glyph.ofKey key) := by
  unfold escapeKey Glyph.ofKey
  split
  · rfl
  · split
    · rfl
    · rw [String.toList_ofList, Glyph.writeAll_ofKeyChars]

/-! ## Reading them -/

/-- A placeholder is a name between braces after a dollar sign, perhaps with blanks around it. -/
theorem Segment.placeholderName?_eq_some_iff {segment name : String} :
    placeholderName? segment = some name ↔
      ∃ inner, segment = "$\x7b" ++ (inner ++ "\x7d") ∧ Text.trim inner = name := by
  constructor
  · intro h
    obtain ⟨opened, hopened, h⟩ := Option.bind_eq_some_iff.1 h
    obtain ⟨inner, hclosed, hname⟩ := Option.bind_eq_some_iff.1 h
    rw [Text.afterPrefix?_eq_some_iff, Text.beforeSuffix?_eq_some_iff.1 hclosed] at hopened
    exact ⟨inner, hopened, Option.some.inj hname⟩
  · rintro ⟨inner, rfl, rfl⟩
    unfold placeholderName?
    rw [Text.afterPrefix?_eq_some_iff.2 rfl]
    show (Text.beforeSuffix? "\x7d" (inner ++ "\x7d") >>= _) = _
    rw [Text.beforeSuffix?_eq_some_iff.2 rfl]
    rfl

theorem Segment.placeholderName?_eq_none {segment : String}
    (h : segment.toList.head? ≠ some '$') : placeholderName? segment = none := by
  refine Option.eq_none_iff_forall_ne_some.2 fun name hname => h ?_
  obtain ⟨inner, rfl, -⟩ := placeholderName?_eq_some_iff.1 hname
  rw [String.toList_append]
  rfl

theorem Segment.placeholderName?_eq_none_of_getLast? {segment : String}
    (h : segment.toList.getLast? ≠ some '\x7d') : placeholderName? segment = none := by
  refine Option.eq_none_iff_forall_ne_some.2 fun name hname => h ?_
  obtain ⟨inner, rfl, -⟩ := placeholderName?_eq_some_iff.1 hname
  rw [String.toList_append, String.toList_append, List.getLast?_append, List.getLast?_append]
  rfl

namespace Path

theorem trimGlyphs_ofKey (key : String) : trimGlyphs (Glyph.ofKey key) = Glyph.ofKey key :=
  Text.trimBy_eq_self (Glyph.ends_ofKey key).1 (Glyph.ends_ofKey key).2

/-- Without an escaped parenthesis, inert glyphs have none at all. -/
theorem not_mem_of_hasEscaped {glyphs : List Glyph} (h : ∀ glyph ∈ glyphs, glyph.Inert)
    (hnone : ¬ hasEscaped glyphs ['(', ')'] = true) : '(' ∉ glyphs.map Glyph.char := by
  intro hmem
  obtain ⟨glyph, hglyph, hchar⟩ := List.mem_map.1 hmem
  refine hnone (List.any_eq_true.2 ⟨glyph, hglyph, ?_⟩)
  have hescaped : glyph.escaped = true := by
    cases hplain : glyph.escaped with
    | true => rfl
    | false =>
      have hspecial := h glyph hglyph hplain
      rw [hchar] at hspecial
      cases hspecial
  rw [hescaped, hchar]
  rfl

theorem readName_ofKey (functions : Registry) (key : String) :
    readName functions (Glyph.ofKey key) = .ok (.key key) := by
  rcases Glyph.ofKey_cases key with ⟨rfl, hkey⟩ | ⟨rfl, hkey⟩ | ⟨hquotes, c, rest, hchars, hkey⟩
  · rfl
  · rfl
  · have hinert : ∀ glyph ∈ Glyph.ofKeyChars true (c :: rest), glyph.Inert :=
      fun glyph => Glyph.inert_of_mem_ofKeyChars
    have hmap := Glyph.map_char_ofKeyChars true (c :: rest)
    have htext : textOf (Glyph.ofKeyChars true (c :: rest)) = key := by
      rw [textOf, hmap, ← hchars, String.ofList_toList]
    rw [hkey]
    unfold readName
    simp only [htext]
    rw [if_neg fun h => hquotes h.1, Glyph.head?_ofKeyChars]
    -- A dollar sign at the start is escaped, and so is every parenthesis.
    have hplaceholder : (if ((some (Glyph.ofKeyChar true c)).map Glyph.escaped).getD false = true
        then none else Segment.placeholderName? key) = none := by
      split
      · rfl
      · next hplain =>
        refine Segment.placeholderName?_eq_none fun hdollar => hplain ?_
        rw [hchars] at hdollar
        rw [Option.some.inj hdollar]
        rfl
    have hcall : (if hasEscaped (Glyph.ofKeyChars true (c :: rest)) ['(', ')'] = true
        then none else Segment.callName? key) = none := by
      split
      · rfl
      · next hescaped =>
        refine Segment.callName?_eq_none ?_
        rw [hchars, ← hmap]
        exact not_mem_of_hasEscaped hinert hescaped
    rw [hplaceholder, hcall]

/-- A segment that is not blank is read as the name in it. -/
theorem readSegment_of_trimGlyphs (functions : Registry) {glyphs name : List Glyph}
    (h : trimGlyphs glyphs = name) (hname : name ≠ []) :
    readSegment functions glyphs = (readName functions name).map ([·]) := by
  unfold readSegment
  rw [h]
  split
  · exact absurd rfl hname
  · rfl

/-- The glyphs of a key are read as that key. -/
theorem readSegment_ofKey (functions : Registry) (key : String) :
    readSegment functions (Glyph.ofKey key) = .ok [.key key] := by
  rw [readSegment_of_trimGlyphs functions (trimGlyphs_ofKey key) (Glyph.ofKey_ne_nil key),
    readName_ofKey]
  rfl

end Path

end PathQuery
