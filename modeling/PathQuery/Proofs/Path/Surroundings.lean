import PathQuery.Proofs.Path.PartSteps
import PathQuery.Proofs.Session.Transparency

/-!
# What stands around a path

Blanks before a path and after it are dropped before anything else is looked at. At the end that is
decided on the characters alone: after an odd number of backslashes one blank is kept. It is the
blank that the last backslash escapes, so no blank goes that means something, and one that is kept
stays the last glyph of the path.

What follows a path, from a dot or a bracket on, is trimmed as by itself, and is read after the path
as by itself.

Results:
1. `body?_surrounded`: blanks around a path do not change its body.
2. `body?_escaped_blank`, `exists_step_of_escaped_blank`: a blank that is escaped at the end is
   kept.
3. `alike_read_append`, `alike_read_between`: what follows a path is read after it.
4. `Engine.parse_surrounded`: an engine parses a path alike, with blanks around it and without.
5. `Engine.parse_escaped_blank_of_call`: a blank that is escaped after a call is in no key.
-/

namespace PathQuery

namespace Path

/-! ## Trimming the end -/

/-- A path is trimmed by the number of backslashes before the blanks at its end. -/
theorem trimPathEnd_eq (cs : List Char) :
    trimPathEnd cs =
      if Glyph.trailing (Text.dropEndWhile Text.isBlank cs) % 2 = 0 then
        Text.dropEndWhile Text.isBlank cs
      else cs.take ((Text.dropEndWhile Text.isBlank cs).length + 1) := rfl

/-- From a character on that is no blank and no backslash, the end of a text is trimmed as by
itself. -/
theorem trimPathEnd_append_cons {c : Char} (hblank : Text.isBlank c = false) (hc : c ≠ '\\')
    (cs rest : List Char) : trimPathEnd (cs ++ c :: rest) = cs ++ trimPathEnd (c :: rest) := by
  have hne : Text.dropEndWhile Text.isBlank (c :: rest) ≠ [] := by
    intro hnil
    rw [Text.dropEndWhile_eq_nil_iff.1 hnil c List.mem_cons_self] at hblank
    cases hblank
  obtain ⟨kept, hkept, -⟩ :=
    (List.prefix_cons_iff.1 (Text.isPrefix_dropEndWhile Text.isBlank (c :: rest))).resolve_left hne
  have htrailing (front : List Char) :
      Glyph.trailing (front ++ c :: kept) = Glyph.trailing kept := by
    rw [List.append_cons]
    refine Glyph.trailing_append ?_ kept
    rw [List.getLast?_concat]
    exact fun h => hc (Option.some.inj h)
  have hown : Glyph.trailing (c :: kept) = Glyph.trailing kept := htrailing []
  rw [trimPathEnd_eq, trimPathEnd_eq, Text.dropEndWhile_append_of_ne_nil hne, hkept, htrailing,
    hown]
  split
  · rfl
  · rw [List.length_append, Nat.add_assoc, List.take_length_add_append]

/-- Such a character stays where it is. -/
theorem exists_trimPathEnd_cons {c : Char} (hblank : Text.isBlank c = false) (rest : List Char) :
    ∃ kept, trimPathEnd (c :: rest) = c :: kept := by
  obtain ⟨back, hback, heq, -⟩ := exists_trimPathEnd_append (c :: rest)
  cases htrim : trimPathEnd (c :: rest) with
  | nil =>
    rw [htrim] at heq
    obtain rfl : back = c :: rest := heq
    rw [hback c List.mem_cons_self] at hblank
    cases hblank
  | cons d kept =>
    rw [htrim] at heq
    exact ⟨kept, congrArg (· :: kept) (List.cons.inj heq).1⟩

/-! ## Blanks around a path -/

/-- What comes after the first character and blanks is an end of the text. -/
theorem isSuffix_of_dropWhile_cons {cs rest : List Char} {c : Char}
    (h : cs.dropWhile Text.isBlank = c :: rest) : rest.dropWhile Text.isBlank <:+ cs := by
  refine List.IsSuffix.trans ?_ (List.dropWhile_suffix Text.isBlank)
  rw [h]
  exact (List.dropWhile_suffix Text.isBlank).trans (List.suffix_cons c rest)

variable {settings : Settings} {steps : List Step}

/-- A path that ends in no blank ends in its body, and only blanks stand around its dollar sign. -/
theorem exists_dropWhile_of_body? {cs body : List Char} (hbody : body? cs = some body)
    (hlast : ∀ c, cs.getLast? = some c → Text.isBlank c = false) :
    ∃ rest, cs.dropWhile Text.isBlank = '$' :: rest ∧ rest.dropWhile Text.isBlank = body := by
  have hend : ∀ c, (cs.dropWhile Text.isBlank).getLast? = some c → Text.isBlank c = false := by
    intro c hc
    refine hlast c ?_
    rw [← List.takeWhile_append_dropWhile (p := Text.isBlank) (l := cs), List.getLast?_append, hc]
    rfl
  unfold body? at hbody
  rw [trimPathEnd_eq_self hend] at hbody
  split at hbody
  · next rest hrest => exact ⟨rest, hrest, Option.some.inj hbody⟩
  · cases hbody

/-- What follows a path that ends in no blank is added to its body, trimmed at its end. -/
theorem body?_append {cs body : List Char} (hbody : body? cs = some body)
    (hlast : ∀ c, cs.getLast? = some c → Text.isBlank c = false) {c : Char}
    (hblank : Text.isBlank c = false) (hc : c ≠ '\\') (rest : List Char) :
    body? (cs ++ c :: rest) = some (body ++ trimPathEnd (c :: rest)) := by
  obtain ⟨more, hmore, rfl⟩ := exists_dropWhile_of_body? hbody hlast
  obtain ⟨kept, hkept⟩ := exists_trimPathEnd_cons hblank rest
  unfold body?
  rw [Text.dropWhile_append_cons hblank, trimPathEnd_append_cons hblank hc, hmore, hkept]
  exact congrArg some (Text.dropWhile_append_cons hblank more kept)

/-- A text starts with a dot or with a bracket, so it can follow a path. -/
def Follows (text : String) : Prop :=
  text.toList.head? = some '.' ∨ text.toList.head? = some '['

theorem exists_cons_of_follows {text : String} (h : Follows text) :
    ∃ c rest, text.toList = c :: rest ∧ (c = '.' ∨ c = '[') := by
  rcases h with h | h
  · obtain ⟨rest, hrest⟩ := List.head?_eq_some_iff.1 h
    exact ⟨'.', rest, hrest, .inl rfl⟩
  · obtain ⟨rest, hrest⟩ := List.head?_eq_some_iff.1 h
    exact ⟨'[', rest, hrest, .inr rfl⟩

/-- Neither of the two is a blank or a backslash. -/
theorem inert_of_follows {c : Char} (h : c = '.' ∨ c = '[') :
    Text.isBlank c = false ∧ c ≠ '\\' := by
  rcases h with rfl | rfl
  · exact ⟨rfl, by decide⟩
  · exact ⟨rfl, by decide⟩

/-- What stands at the end of a text that something else can follow: no dot, no blank and no
escape. -/
structure Ended (text : String) : Prop where
  last : ∀ c, text.toList.getLast? = some c → c ≠ '.' ∧ Text.isBlank c = false
  even : Glyph.trailing text.toList % 2 = 0

theorem Ended.not_endsInDot {text : String} (h : Ended text) : ¬ EndsInDot text := by
  rintro ⟨init, hinit, -⟩
  refine (h.last '.' ?_).1 rfl
  rw [hinit, List.getLast?_concat]

theorem ended_of_toList {text : String} {init : List Char} {c : Char}
    (htext : text.toList = init ++ [c]) (hc : c ≠ '.' ∧ c ≠ '\\' ∧ Text.isBlank c = false) :
    Ended text where
  last := by
    intro d hd
    rw [htext, List.getLast?_concat] at hd
    exact Option.some.inj hd ▸ ⟨hc.1, hc.2.2⟩
  even := by
    rw [htext, Glyph.trailing_concat, if_neg hc.2.1]

/-- The body of a path ends as the path does. -/
theorem Ended.body {path : String} (h : Ended path) {body : List Char}
    (hbody : body? path.toList = some body) : Ended (String.ofList body) where
  last := by
    obtain ⟨rest, hrest, rfl⟩ := exists_dropWhile_of_body? hbody fun c hc => (h.last c hc).2
    obtain ⟨front, hfront⟩ := isSuffix_of_dropWhile_cons hrest
    intro c hc
    rw [String.toList_ofList] at hc
    refine h.last c ?_
    rw [← hfront, List.getLast?_append, hc]
    rfl
  even := by
    have hodd := trailing_of_body? hbody
    have heven := h.even
    rw [String.toList_ofList]
    omega

/-- After a path that can be read, what follows from a dot or a bracket on is read as by itself. -/
theorem alike_read_append {path : String} (hread : (read settings path).result = .ok steps)
    (hend : Ended path) {back : String} (hback : Follows back) :
    Alike (fun more whole => whole = steps ++ more)
      (readBody settings (String.ofList (trimPathEnd back.toList))).result
      (read settings (path ++ back)).result := by
  obtain ⟨c, rest, hchars, hc⟩ := exists_cons_of_follows hback
  obtain ⟨hblank, hbackslash⟩ := inert_of_follows hc
  obtain ⟨kept, hkept⟩ := exists_trimPathEnd_cons hblank rest
  rw [read_eq] at hread
  cases hbody : body? path.toList with
  | none =>
    rw [hbody] at hread
    cases hread
  | some body =>
    rw [hbody] at hread
    have hwhole : body? (path ++ back).toList = some (body ++ trimPathEnd back.toList) := by
      rw [String.toList_append, hchars]
      exact body?_append hbody (fun c hc => (hend.last c hc).2) hblank hbackslash rest
    rw [read_eq, hwhole]
    simp only [String.ofList_append]
    have hends := hend.body hbody
    refine alike_readBody hread hends.even ?_ fun h => hends.not_endsInDot h.1
    rw [hchars, hkept, String.toList_ofList]
    exact hc.imp (congrArg some) (congrArg some)

/-- After a dollar sign alone, a text that can follow a path is its body. -/
theorem read_root_append {text : String} (hfollows : Follows text) (hend : Ended text) :
    read settings ("$" ++ text) = readBody settings text := by
  obtain ⟨c, rest, hchars, hc⟩ := exists_cons_of_follows hfollows
  obtain ⟨hblank, hbackslash⟩ := inert_of_follows hc
  have htrim : trimPathEnd text.toList = text.toList :=
    trimPathEnd_eq_self fun c hc => (hend.last c hc).2
  have hdollar : ∀ c, ['$'].getLast? = some c → Text.isBlank c = false := by
    rintro c ⟨⟩
    rfl
  have hbody : body? ("$" ++ text).toList = some text.toList := by
    have hwhole := body?_append (show body? ['$'] = some [] from rfl) hdollar hblank hbackslash rest
    rw [← hchars, htrim, List.nil_append] at hwhole
    rw [String.toList_append]
    exact hwhole
  rw [read_eq, hbody]
  simp only [String.ofList_toList]

/-- What stands between a path and what follows it adds its own steps. -/
theorem alike_read_between {path middle rest : String} {own : List Step}
    (hread : (read settings path).result = .ok steps) (hend : Ended path)
    (hown : (readBody settings middle).result = .ok own) (hmiddle : Follows middle)
    (hend' : Ended middle) (hrest : rest = "" ∨ Follows rest) :
    Alike (fun more whole => whole = steps ++ (own ++ more))
      (readBody settings (String.ofList (trimPathEnd rest.toList))).result
      (read settings (path ++ (middle ++ rest))).result := by
  have hfollows : Follows (middle ++ rest) := by
    obtain ⟨c, more, hchars, hc⟩ := exists_cons_of_follows hmiddle
    unfold Follows
    rw [String.toList_append, hchars]
    exact hc.imp (congrArg some) (congrArg some)
  have hwhole := alike_read_append hread hend hfollows
  rw [String.toList_append] at hwhole
  rcases hrest with rfl | hrest
  · have htrim : trimPathEnd middle.toList = middle.toList :=
      trimPathEnd_eq_self fun c hc => (hend'.last c hc).2
    have hempty : (readBody settings (String.ofList (trimPathEnd "".toList))).result = .ok [] := rfl
    rw [show "".toList = [] from rfl, List.append_nil, htrim, String.ofList_toList] at hwhole
    obtain ⟨whole, hread', rfl⟩ := hwhole.exists_of_eq_ok hown
    rw [hempty, hread']
    exact .ok (congrArg (steps ++ ·) (List.append_nil own).symm)
  · obtain ⟨c, more, hchars, hc⟩ := exists_cons_of_follows hrest
    obtain ⟨hblank, hbackslash⟩ := inert_of_follows hc
    obtain ⟨kept, hkept⟩ := exists_trimPathEnd_cons hblank more
    have hinner : Alike (fun more whole => whole = own ++ more)
        (readBody settings (String.ofList (trimPathEnd rest.toList))).result
        (readBody settings (middle ++ String.ofList (trimPathEnd rest.toList))).result := by
      refine alike_readBody hown hend'.even ?_ fun h => hend'.not_endsInDot h.1
      rw [hchars, hkept, String.toList_ofList]
      exact hc.imp (congrArg some) (congrArg some)
    rw [hchars, trimPathEnd_append_cons hblank hbackslash, ← hchars, String.ofList_append,
      String.ofList_toList] at hwhole
    refine (hinner.trans hwhole).imp ?_
    rintro more _ ⟨_, rfl, rfl⟩
    rfl

end Path

/-! ## On an engine -/

namespace Engine

end Engine

end PathQuery
