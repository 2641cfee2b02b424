import Mathlib.Data.List.Forall2
import PathQuery.Proofs.Text.Numeral
import PathQuery.Proofs.Text.Pieces
import PathQuery.Reduction

/-!
# The grammar of return expressions

`Spells` says which texts spell a return expression, with its blanks, its bounds and its letter
cases, and without a word on how a text is read. Reading accepts these texts and no others: it gives
the expression that the text spells, and any other text is an error of configuration. So no text
spells two expressions.

The expression inside a substring ends before the last parenthesis of the text. So its names may
have parentheses in them, and nothing need be said on how parentheses match.

Results:
1. `bounds?_eq_some_iff`: the bounds that letters, digits and underscores spell.
2. `SpellsHead.readHead_eq`, `readHead_cases`: one level of an expression.
3. `Spells.ofChars_eq`, `ofChars_cases`: all levels of it.
4. `read_iff_spells`: what is read, what is refused and what can be spelled.
-/

namespace PathQuery.Reduction

open Text (isBlank IsNumeral)

/-! ## The grammar -/

/-- Characters that write the bounds of a substring: a number, or two with an underscore between
them, each below `2 ^ 64`. -/
inductive WritesBounds : List Char → Nat → Option Nat → Prop
  | one {start : Nat} {cs : List Char} (hlt : start < UInt64.size) (hcs : IsNumeral start cs) :
      WritesBounds cs start none
  | two {start stop : Nat} {cs cs' : List Char} (hlt : start < UInt64.size)
      (hcs : IsNumeral start cs) (hlt' : stop < UInt64.size) (hcs' : IsNumeral stop cs') :
      WritesBounds (cs ++ '_' :: cs') start (some stop)

/-- A word in any letter case: each of its letters is the small one or its capital. -/
def InAnyCase (word small : List Char) : Prop :=
  List.Forall₂ (fun c letter => c = letter ∨ c = letter.toUpper) word small

/-- Characters that spell a return expression. Blanks may stand around any expression, after a colon
and before the parenthesis that opens. -/
inductive Spells : List Char → Reduction → Prop
  | matched : Spells [] .matched
  | pathTag {gap : List Char} {name : String} (hgap : ∀ c ∈ gap, isBlank c = true)
      (hname : Text.trim name = name) :
      Spells ("pathTags:".toList ++ gap ++ name.toList) (.pathTag name)
  | valueOfKey {gap : List Char} {key : String} (hgap : ∀ c ∈ gap, isBlank c = true)
      (hkey : Text.trim key = key) :
      Spells ("valueOfKey:".toList ++ gap ++ key.toList) (.valueOfKey key)
  | countMatches {word : List Char} (hword : InAnyCase word "countmatches".toList) :
      Spells word .countMatches
  | substring {bounds gap cs : List Char} {start : Nat} {stop : Option Nat} {inner : Reduction}
      (hbounds : WritesBounds bounds start stop) (hgap : ∀ c ∈ gap, isBlank c = true)
      (hinner : Spells cs inner) :
      Spells ("substring_".toList ++ bounds ++ gap ++ '(' :: cs ++ [')'])
        (.substring start stop inner)
  | around {before cs after : List Char} {reduction : Reduction}
      (hbefore : ∀ c ∈ before, isBlank c = true) (hafter : ∀ c ∈ after, isBlank c = true)
      (hcs : Spells cs reduction) : Spells (before ++ cs ++ after) reduction

/-- A return expression that can be spelled: its names have no blanks at their ends, and its bounds
are below `2 ^ 64`. -/
def Writable : Reduction → Prop
  | .matched => True
  | .pathTag name => Text.trim name = name
  | .valueOfKey key => Text.trim key = key
  | .countMatches => True
  | .substring start stop inner =>
    start < UInt64.size ∧ (∀ n ∈ stop, n < UInt64.size) ∧ inner.Writable

def writeBounds (start : Nat) : Option Nat → String
  | none => toString start
  | some stop => toString start ++ "_" ++ toString stop

/-- The text of a return expression, without blanks of its own. -/
def write : Reduction → String
  | .matched => ""
  | .pathTag name => "pathTags:" ++ name
  | .valueOfKey key => "valueOfKey:" ++ key
  | .countMatches => "countMatches"
  | .substring start stop inner =>
    "substring_" ++ writeBounds start stop ++ "(" ++ inner.write ++ ")"

/-! ## Words -/

theorem toNat_lower (c : Char) :
    (lower c).toNat = if 65 ≤ c.toNat ∧ c.toNat ≤ 90 then c.toNat + 32 else c.toNat := by
  show (if 65 ≤ c.toNat ∧ c.toNat ≤ 90 then Char.ofNat (c.toNat + 32) else c).toNat = _
  split
  · have hvalid : (c.toNat + 32).isValidChar := .inl (by omega)
    rw [Char.ofNat, dif_pos hvalid]
    rfl
  · rfl

theorem toNat_toUpper {letter : Char} (h : letter.isLower = true) :
    97 ≤ letter.toNat ∧ letter.toNat ≤ 122 ∧ letter.toUpper.toNat = letter.toNat - 32 := by
  obtain ⟨hleast, hgreatest⟩ := Bool.and_eq_true_iff.1 h
  have hrange : 'a'.val ≤ letter.val ∧ letter.val ≤ 'z'.val :=
    ⟨of_decide_eq_true hleast, of_decide_eq_true hgreatest⟩
  have hnat : 97 ≤ letter.val.toNat ∧ letter.val.toNat ≤ 122 := hrange
  have hupper : letter.toUpper.val = letter.val + ('A'.val - 'a'.val) := by
    unfold Char.toUpper
    rw [dif_pos hrange]
  refine ⟨hnat.1, hnat.2, ?_⟩
  show letter.toUpper.val.toNat = letter.val.toNat - 32
  -- The code of the capital is reached by an addition that wraps around.
  rw [hupper, UInt32.toNat_add, show ('A'.val - 'a'.val).toNat = 2 ^ 32 - 32 from rfl]
  omega

/-- A character in lower case is a small letter if it is this letter or its capital. -/
theorem lower_eq_iff {c letter : Char} (h : letter.isLower = true) :
    lower c = letter ↔ c = letter ∨ c = letter.toUpper := by
  obtain ⟨hleast, hgreatest, hupper⟩ := toNat_toUpper h
  rw [← Char.toNat_inj, ← Char.toNat_inj, ← Char.toNat_inj, toNat_lower, hupper]
  split
  · omega
  · omega

theorem map_lower_eq_iff {word small : List Char} (h : ∀ c ∈ small, c.isLower = true) :
    word.map lower = small ↔ InAnyCase word small := by
  unfold InAnyCase
  induction small generalizing word with
  | nil => rw [List.map_eq_nil_iff, List.forall₂_nil_right_iff]
  | cons letter small ih =>
    obtain ⟨hletter, hsmall⟩ := List.forall_mem_cons.1 h
    cases word with
    | nil => simp
    | cons c word =>
      rw [List.map_cons, List.cons.injEq, lower_eq_iff hletter, ih hsmall, List.forall₂_cons]

theorem isLower_of_mem_countMatches : ∀ c ∈ "countmatches".toList, c.isLower = true :=
  List.all_eq_true.1 (by decide)

theorem map_lower_eq_countMatches_iff {word : List Char} :
    word.map lower = "countmatches".toList ↔ InAnyCase word "countmatches".toList :=
  map_lower_eq_iff isLower_of_mem_countMatches

/-! ## Bounds -/

theorem isWordChar_of_isDigit {c : Char} (h : c.isDigit = true) : isWordChar c = true := by
  unfold isWordChar
  rw [Text.isAlphanum_of_isDigit h, Bool.true_or]

theorem WritesBounds.isWordChar {cs : List Char} {start : Nat} {stop : Option Nat}
    (h : WritesBounds cs start stop) : ∀ c ∈ cs, isWordChar c = true := by
  have hdigits {n : Nat} {cs : List Char} (hcs : IsNumeral n cs) :
      ∀ c ∈ cs, Reduction.isWordChar c = true :=
    fun c hc => isWordChar_of_isDigit ((Text.isNumeral_iff.1 hcs).2.1 c hc)
  cases h with
  | one hlt hcs => exact hdigits hcs
  | two hlt hcs hlt' hcs' =>
    intro c hc
    rcases List.mem_append.1 hc with hc | hc
    · exact hdigits hcs c hc
    · rcases List.mem_cons.1 hc with rfl | hc
      · rfl
      · exact hdigits hcs' c hc

/-- A number has no underscore, so the first underscore is the one between two numbers. -/
theorem underscore_not_mem {n : Nat} {cs : List Char} (h : IsNumeral n cs) : '_' ∉ cs :=
  fun hmem => Bool.false_ne_true ((Text.isNumeral_iff.1 h).2.1 '_' hmem)

/-- Letters, digits and underscores spell bounds if they write them. -/
theorem bounds?_eq_some_iff {cs : List Char} (hword : ∀ c ∈ cs, isWordChar c = true)
    {start : Nat} {stop : Option Nat} :
    bounds? (String.ofList cs) = some (start, stop) ↔ WritesBounds cs start stop := by
  have hposition {part : List Char} (hpart : part ⊆ cs) {n : Nat} :
      Text.position? (String.ofList part) = some n ↔ n < UInt64.size ∧ IsNumeral n part :=
    Text.position?_ofList_eq_some_iff fun hplus =>
      Bool.false_ne_true (hword '+' (hpart hplus))
  unfold bounds?
  constructor
  · intro hbounds
    cases hcut : Text.cutAt? '_' (String.ofList cs) with
    | none =>
      simp only [hcut, Option.bind_eq_bind, Option.bind_eq_some_iff, Option.pure_def,
        hposition (List.Subset.refl cs), Option.some.injEq, Prod.mk.injEq] at hbounds
      obtain ⟨_, ⟨hlt, hcs⟩, rfl, rfl⟩ := hbounds
      exact .one hlt hcs
    | some parts =>
      obtain ⟨before, after⟩ := parts
      obtain ⟨hparts, -⟩ := Text.cutAt?_eq_some_iff.1 hcut
      rw [String.toList_ofList] at hparts
      have hbefore : before.toList ⊆ cs := hparts ▸ List.subset_append_left _ _
      have hafter : after.toList ⊆ cs :=
        hparts ▸ List.subset_append_of_subset_right _ (List.subset_cons_self _ _)
      simp only [hcut, Option.bind_eq_bind, Option.bind_eq_some_iff, Option.pure_def,
        Option.some.injEq, Prod.mk.injEq] at hbounds
      obtain ⟨_, hstart, _, hstop, rfl, rfl⟩ := hbounds
      rw [← String.ofList_toList (s := before), hposition hbefore] at hstart
      rw [← String.ofList_toList (s := after), hposition hafter] at hstop
      exact hparts ▸ .two hstart.1 hstart.2 hstop.1 hstop.2
  · intro hwrites
    cases hwrites with
    | one hlt hcs =>
      rw [Text.cutAt?_eq_none_iff.2 (String.toList_ofList.symm ▸ underscore_not_mem hcs)]
      simp only [(hposition (List.Subset.refl cs)).2 ⟨hlt, hcs⟩]
      rfl
    | @two _ _ before after hlt hcs hlt' hcs' =>
      have hcut : Text.cutAt? '_' (String.ofList (before ++ '_' :: after)) =
          some (String.ofList before, String.ofList after) := by
        rw [Text.cutAt?_eq_some_iff]
        simp only [String.toList_ofList, true_and]
        exact underscore_not_mem hcs
      simp only [hcut, (hposition (List.subset_append_left _ _)).2 ⟨hlt, hcs⟩,
        (hposition (List.subset_append_of_subset_right _ (List.subset_cons_self _ _))).2
          ⟨hlt', hcs'⟩]
      rfl

/-! ## One level of an expression -/

theorem isWordChar_of_isBlank {c : Char} (h : isBlank c = true) : isWordChar c = false := by
  unfold isWordChar
  rw [Bool.or_eq_false_iff]
  constructor
  · refine Bool.eq_false_iff.2 fun halpha => ?_
    rw [Text.isBlank_of_isAlphanum halpha] at h
    cases h
  · refine beq_eq_false_iff_ne.2 ?_
    rintro rfl
    cases h

/-- Bounds end before a character that is none of theirs. -/
theorem bounds_append {bounds rest : List Char} (hbounds : ∀ c ∈ bounds, isWordChar c = true)
    (hrest : ∀ c, rest.head? = some c → isWordChar c = false) :
    (bounds ++ rest).takeWhile isWordChar = bounds ∧
      (bounds ++ rest).dropWhile isWordChar = rest := by
  rw [List.takeWhile_append_of_pos hbounds, List.dropWhile_append_of_pos hbounds]
  cases rest with
  | nil => exact ⟨List.append_nil bounds, rfl⟩
  | cons c rest =>
    have hc : ¬ isWordChar c = true := Bool.eq_false_iff.1 (hrest c rfl)
    rw [List.takeWhile_cons_of_neg hc, List.dropWhile_cons_of_neg hc, List.append_nil]
    exact ⟨rfl, rfl⟩

/-- The bounds end where a blank or the parenthesis comes, and the expression inside ends before the
last parenthesis. -/
theorem substringParts?_eq_some_iff {rest bounds inner : List Char} :
    substringParts? rest = some (bounds, inner) ↔ ∃ gap after,
      rest = bounds ++ (gap ++ '(' :: (inner ++ ')' :: after)) ∧
      (∀ c ∈ bounds, isWordChar c = true) ∧ (∀ c ∈ gap, isBlank c = true) ∧
      ∀ c ∈ after, isBlank c = true := by
  unfold substringParts?
  constructor
  · intro hparts
    split at hparts
    · next text htext =>
      simp only [Option.bind_eq_bind, Option.bind_eq_some_iff, Option.pure_def,
        Option.some.injEq, Prod.mk.injEq, Text.dropFinish?_eq_some_iff] at hparts
      obtain ⟨_, hinner, rfl, rfl⟩ := hparts
      obtain ⟨after, hafter, hclosed⟩ := Text.exists_dropEndWhile_append isBlank text
      refine ⟨(rest.dropWhile isWordChar).takeWhile isBlank, after, ?_,
        List.all_eq_true.1 List.all_takeWhile, List.all_eq_true.1 List.all_takeWhile, hafter⟩
      rw [hinner, List.append_assoc, List.singleton_append] at hclosed
      rw [hclosed, ← htext, List.takeWhile_append_dropWhile, List.takeWhile_append_dropWhile]
    · cases hparts
  · rintro ⟨gap, after, rfl, hbounds, hgap, hafter⟩
    have hfirst : ∀ c, (gap ++ '(' :: (inner ++ ')' :: after)).head? = some c →
        isWordChar c = false := by
      intro c hc
      cases gap with
      | nil => exact Option.some.inj hc ▸ rfl
      | cons blank gap =>
        exact isWordChar_of_isBlank (hgap c (Option.some.inj hc ▸ List.mem_cons_self))
    have hclosed : Text.dropEndWhile isBlank (inner ++ ')' :: after) = inner ++ [')'] := by
      rw [← List.singleton_append, ← List.append_assoc, Text.dropEndWhile_append _ hafter]
      refine Text.dropEndWhile_eq_self fun c hc => ?_
      rw [List.getLast?_concat] at hc
      exact Option.some.inj hc ▸ rfl
    obtain ⟨htake, hdrop⟩ := bounds_append hbounds hfirst
    rw [htake, hdrop, List.dropWhile_append_of_pos hgap, List.dropWhile_cons_of_neg (by decide)]
    simp only [hclosed, Text.dropFinish?_eq_some_iff.2 rfl]
    rfl

theorem readSubstring?_eq_some_iff {rest : List Char} {head : Head} :
    readSubstring? rest = some head ↔ ∃ bounds gap inner after start stop,
      rest = bounds ++ (gap ++ '(' :: (inner ++ ')' :: after)) ∧
      WritesBounds bounds start stop ∧
      (∀ c ∈ gap, isBlank c = true) ∧ (∀ c ∈ after, isBlank c = true) ∧
      head = .substring start stop inner := by
  unfold readSubstring?
  simp only [Option.bind_eq_bind, Option.bind_eq_some_iff, Prod.exists, Option.pure_def,
    Option.some.injEq, substringParts?_eq_some_iff]
  constructor
  · rintro ⟨bounds, inner, ⟨gap, after, hrest, hword, hgap, hafter⟩, start, stop, hbounds, rfl⟩
    exact ⟨bounds, gap, inner, after, start, stop, hrest,
      (bounds?_eq_some_iff hword).1 hbounds, hgap, hafter, rfl⟩
  · rintro ⟨bounds, gap, inner, after, start, stop, hrest, hbounds, hgap, hafter, rfl⟩
    exact ⟨bounds, inner, ⟨gap, after, hrest, hbounds.isWordChar, hgap, hafter⟩, start, stop,
      (bounds?_eq_some_iff hbounds.isWordChar).2 hbounds, rfl⟩

/-- Characters that spell the head of an expression. Blanks before it have been trimmed. -/
inductive SpellsHead : List Char → Head → Prop
  | matched : SpellsHead [] (.whole .matched)
  | pathTag (cs : List Char) :
      SpellsHead ("pathTags:".toList ++ cs) (.whole (.pathTag (Text.trim (String.ofList cs))))
  | valueOfKey (cs : List Char) :
      SpellsHead ("valueOfKey:".toList ++ cs) (.whole (.valueOfKey (Text.trim (String.ofList cs))))
  | countMatches {word : List Char} (hword : InAnyCase word "countmatches".toList) :
      SpellsHead word (.whole .countMatches)
  | substring {bounds gap after : List Char} {start : Nat} {stop : Option Nat}
      (hbounds : WritesBounds bounds start stop) (hgap : ∀ c ∈ gap, isBlank c = true)
      (hafter : ∀ c ∈ after, isBlank c = true) (inner : List Char) :
      SpellsHead ("substring_".toList ++ (bounds ++ (gap ++ '(' :: (inner ++ ')' :: after))))
        (.substring start stop inner)

/-- A head is read from each of its spellings. The first characters of the forms differ, so the
order in which they are tried does not matter. -/
theorem SpellsHead.readHead_eq {cs : List Char} {head : Head} (h : SpellsHead cs head) :
    readHead cs = .ok head := by
  unfold readHead
  cases h with
  | matched => rfl
  | pathTag cs =>
    have hne : "pathTags:".toList ++ cs ≠ [] := List.cons_ne_nil _ _
    rw [if_neg hne, Text.dropStart?_eq_some_iff.2 rfl]
  | valueOfKey cs =>
    have hne : "valueOfKey:".toList ++ cs ≠ [] := List.cons_ne_nil _ _
    have htag : Text.dropStart? "pathTags:".toList ("valueOfKey:".toList ++ cs) = none := rfl
    rw [if_neg hne, htag, Text.dropStart?_eq_some_iff.2 rfl]
  | countMatches hword =>
    obtain ⟨c, word, hc, -, rfl⟩ := List.forall₂_cons_right_iff.1 hword
    have htag : Text.dropStart? "pathTags:".toList (c :: word) = none := by
      rcases hc with rfl | rfl <;> rfl
    have hkey : Text.dropStart? "valueOfKey:".toList (c :: word) = none := by
      rcases hc with rfl | rfl <;> rfl
    rw [if_neg (List.cons_ne_nil c word), htag, hkey,
      if_pos (map_lower_eq_countMatches_iff.2 hword)]
  | substring hbounds hgap hafter inner =>
    generalize hrest : _ ++ (_ ++ '(' :: (inner ++ ')' :: _)) = rest
    have hne : "substring_".toList ++ rest ≠ [] := List.cons_ne_nil _ _
    have htag : Text.dropStart? "pathTags:".toList ("substring_".toList ++ rest) = none := rfl
    have hkey : Text.dropStart? "valueOfKey:".toList ("substring_".toList ++ rest) = none := rfl
    have hcount : ("substring_".toList ++ rest).map lower ≠ "countmatches".toList := by
      intro hword
      have hfirst : some 's' = some 'c' := congrArg List.head? hword
      cases hfirst
    have hhead := readSubstring?_eq_some_iff.2
      ⟨_, _, inner, _, _, _, hrest.symm, hbounds, hgap, hafter, rfl⟩
    rw [if_neg hne, htag, hkey, if_neg hcount, Text.dropStart?_eq_some_iff.2 rfl]
    simp only [hhead]

/-- Characters are read as a head that they spell, or are refused as an error of configuration. -/
theorem readHead_cases (cs : List Char) :
    (∃ head, readHead cs = .ok head ∧ SpellsHead cs head) ∨
      ∃ error, readHead cs = .error error ∧ error.kind = .config := by
  unfold readHead
  split
  · next hnil => exact .inl ⟨_, rfl, hnil ▸ .matched⟩
  · split
    · next name hname =>
      exact .inl ⟨_, rfl, Text.dropStart?_eq_some_iff.1 hname ▸ .pathTag name⟩
    · split
      · next key hkey =>
        exact .inl ⟨_, rfl, Text.dropStart?_eq_some_iff.1 hkey ▸ .valueOfKey key⟩
      · split
        · next hword =>
          exact .inl ⟨_, rfl, .countMatches (map_lower_eq_countMatches_iff.1 hword)⟩
        · split
          · exact .inr ⟨_, rfl, rfl⟩
          · next rest hrest =>
            split
            · exact .inr ⟨_, rfl, rfl⟩
            · next hhead =>
              obtain ⟨_, _, inner, _, _, _, rfl, hbounds, hgap, hafter, rfl⟩ :=
                readSubstring?_eq_some_iff.1 hhead
              exact .inl ⟨_, rfl, Text.dropStart?_eq_some_iff.1 hrest ▸
                .substring hbounds hgap hafter inner⟩

theorem spellsHead_of_readHead {cs : List Char} {head : Head} (h : readHead cs = .ok head) :
    SpellsHead cs head := by
  obtain ⟨own, hown, hspells⟩ | ⟨_, herror, -⟩ := readHead_cases cs
  · cases h.symm.trans hown
    exact hspells
  · cases h.symm.trans herror

theorem kind_of_readHead {cs : List Char} {error : QueryError} (h : readHead cs = .error error) :
    error.kind = .config := by
  obtain ⟨_, hok, -⟩ | ⟨own, hown, hkind⟩ := readHead_cases cs
  · cases h.symm.trans hok
  · cases h.symm.trans hown
    exact hkind

/-! ## All levels -/

theorem ofChars_eq (cs : List Char) :
    ofChars cs = match readHead (Text.trimBy isBlank cs) with
      | .error error => .error error
      | .ok (.whole reduction) => .ok reduction
      | .ok (.substring start stop inner) => (ofChars inner).map (.substring start stop) := by
  rw [ofChars]
  split
  · next h => rw [h]
  · next h => rw [h]
  · next h =>
    rw [h]
    rfl

/-- A name after blanks is read without blanks at its ends. -/
theorem trimBy_named (front : List Char) {gap : List Char} {name : String} (hne : front ≠ [])
    (hstart : ∀ c, front.head? = some c → isBlank c = false)
    (hend : ∀ c, front.getLast? = some c → isBlank c = false)
    (hgap : ∀ c ∈ gap, isBlank c = true) (hname : Text.trim name = name) :
    ∃ rest, Text.trimBy isBlank (front ++ gap ++ name.toList) = front ++ rest ∧
      Text.trim (String.ofList rest) = name := by
  refine ⟨Text.dropEndWhile isBlank (gap ++ name.toList), ?_, ?_⟩
  · rw [List.append_assoc, Text.trimBy_append_of_ends hne hstart hend]
  · rw [Text.trim, String.toList_ofList, Text.trimBy_dropEndWhile, Text.trimBy_append hgap,
      ← Text.toList_trim, hname, String.ofList_toList]

theorem InAnyCase.trimBy {word : List Char} (h : InAnyCase word "countmatches".toList) :
    Text.trimBy isBlank word = word := by
  have hletter : ∀ c ∈ word, isBlank c = false := by
    intro c hc
    have hmem : lower c ∈ "countmatches".toList :=
      map_lower_eq_countMatches_iff.2 h ▸ List.mem_map_of_mem hc
    obtain ⟨hleast, hgreatest, -⟩ := toNat_toUpper (isLower_of_mem_countMatches _ hmem)
    have hrange := And.intro hleast hgreatest
    rw [toNat_lower] at hrange
    refine Text.isBlank_eq_false ?_
    split at hrange
    · omega
    · omega
  exact Text.trimBy_eq_self (fun c hc => hletter c (List.mem_of_head? hc))
    (fun c hc => hletter c (List.mem_of_getLast? hc))

/-- An expression is read from each of its spellings. -/
theorem Spells.ofChars_eq {cs : List Char} {reduction : Reduction} (h : Spells cs reduction) :
    ofChars cs = .ok reduction := by
  induction h with
  | matched =>
    rw [Reduction.ofChars_eq, Text.trimBy_nil, SpellsHead.matched.readHead_eq]
  | pathTag hgap hname =>
    obtain ⟨rest, htrim, hrest⟩ := trimBy_named "pathTags:".toList (List.cons_ne_nil _ _)
      (fun c hc => Option.some.inj hc ▸ rfl) (fun c hc => Option.some.inj hc ▸ rfl) hgap hname
    rw [Reduction.ofChars_eq, htrim, (SpellsHead.pathTag rest).readHead_eq, hrest]
  | valueOfKey hgap hkey =>
    obtain ⟨rest, htrim, hrest⟩ := trimBy_named "valueOfKey:".toList (List.cons_ne_nil _ _)
      (fun c hc => Option.some.inj hc ▸ rfl) (fun c hc => Option.some.inj hc ▸ rfl) hgap hkey
    rw [Reduction.ofChars_eq, htrim, (SpellsHead.valueOfKey rest).readHead_eq, hrest]
  | countMatches hword =>
    rw [Reduction.ofChars_eq, hword.trimBy, (SpellsHead.countMatches hword).readHead_eq]
  | @substring bounds gap cs _ _ _ hbounds hgap hinner ih =>
    have hkept : Text.trimBy isBlank ("substring_".toList ++ bounds ++ gap ++ '(' :: cs ++ [')']) =
        "substring_".toList ++ (bounds ++ (gap ++ '(' :: (cs ++ [')']))) := by
      rw [Text.trimBy_eq_self]
      · simp only [List.append_assoc, List.cons_append]
      · intro c hc
        exact Option.some.inj hc ▸ rfl
      · intro c hc
        rw [List.getLast?_concat] at hc
        exact Option.some.inj hc ▸ rfl
    have hnone : ∀ c ∈ ([] : List Char), isBlank c = true := List.forall_mem_nil _
    rw [Reduction.ofChars_eq, hkept, (SpellsHead.substring hbounds hgap hnone cs).readHead_eq]
    simp only [ih]
    rfl
  | around hbefore hafter hcs ih =>
    rw [Reduction.ofChars_eq, Text.trimBy_append_right _ hafter, Text.trimBy_append hbefore,
      ← Reduction.ofChars_eq, ih]

theorem Spells.append_blanks {cs after : List Char} {reduction : Reduction}
    (h : Spells cs reduction) (hafter : ∀ c ∈ after, isBlank c = true) :
    Spells (cs ++ after) reduction :=
  .around (List.forall_mem_nil _) hafter h

theorem Spells.of_trimBy {cs : List Char} {reduction : Reduction}
    (h : Spells (Text.trimBy isBlank cs) reduction) : Spells cs reduction := by
  obtain ⟨before, after, hbefore, hafter, hcs⟩ := Text.exists_append_trimBy isBlank cs
  exact hcs ▸ .around hbefore hafter h

/-- A head that is a whole expression spells it: the blanks after the colon are the gap, and those
at the end stand around the expression. -/
theorem SpellsHead.spells {cs : List Char} {reduction : Reduction}
    (h : SpellsHead cs (.whole reduction)) : Spells cs reduction := by
  have hnamed {front cs : List Char} {make : String → Reduction}
      (hmake : ∀ {gap : List Char} {name : String}, (∀ c ∈ gap, isBlank c = true) →
        Text.trim name = name → Spells (front ++ gap ++ name.toList) (make name)) :
      Spells (front ++ cs) (make (Text.trim (String.ofList cs))) := by
    obtain ⟨before, after, hbefore, hafter, hcs⟩ := Text.exists_append_trimBy isBlank cs
    have hspells := hmake hbefore (Text.trim_trim (String.ofList cs))
    rw [Text.toList_trim, String.toList_ofList] at hspells
    have happend := hspells.append_blanks hafter
    rwa [List.append_assoc, List.append_assoc, ← List.append_assoc before, hcs] at happend
  cases h with
  | matched => exact .matched
  | pathTag cs => exact hnamed .pathTag
  | valueOfKey cs => exact hnamed .valueOfKey
  | countMatches hword => exact .countMatches hword

/-- Characters are read as an expression that they spell, or are refused as an error of
configuration. -/
theorem ofChars_cases (cs : List Char) :
    (∃ reduction, ofChars cs = .ok reduction ∧ Spells cs reduction) ∨
      ∃ error, ofChars cs = .error error ∧ error.kind = .config := by
  induction cs using ofChars.induct with
  | case1 cs error hhead =>
    rw [ofChars_eq, hhead]
    exact .inr ⟨error, rfl, kind_of_readHead hhead⟩
  | case2 cs whole hhead =>
    rw [ofChars_eq, hhead]
    exact .inl ⟨whole, rfl, .of_trimBy (spellsHead_of_readHead hhead).spells⟩
  | case3 cs start stop inner hhead ih =>
    rw [ofChars_eq, hhead]
    obtain ⟨own, hown, hinner⟩ | ⟨error, herror, hkind⟩ := ih
    · refine .inl ⟨.substring start stop own, ?_, .of_trimBy ?_⟩
      · simp only [hown]
        rfl
      · generalize Text.trimBy isBlank cs = trimmed at hhead
        cases spellsHead_of_readHead hhead with
        | substring hbounds hgap hafter inner =>
          have hspells := (Spells.substring hbounds hgap hinner).append_blanks hafter
          simpa only [List.append_assoc, List.cons_append, List.nil_append] using hspells
    · refine .inr ⟨error, ?_, hkind⟩
      simp only [herror]
      rfl

/-- Characters are read as the expression that they spell. -/
theorem ofChars_eq_ok_iff {cs : List Char} {reduction : Reduction} :
    ofChars cs = .ok reduction ↔ Spells cs reduction := by
  refine ⟨fun h => ?_, Spells.ofChars_eq⟩
  obtain ⟨own, hown, hspells⟩ | ⟨_, herror, -⟩ := ofChars_cases cs
  · cases h.symm.trans hown
    exact hspells
  · cases h.symm.trans herror

/-! ## What can be spelled -/

theorem Spells.writable {cs : List Char} {reduction : Reduction} (h : Spells cs reduction) :
    reduction.Writable := by
  induction h with
  | matched => trivial
  | pathTag hgap hname => exact hname
  | valueOfKey hgap hkey => exact hkey
  | countMatches hword => trivial
  | substring hbounds hgap hinner ih =>
    cases hbounds with
    | one hlt hcs =>
      refine ⟨hlt, ?_, ih⟩
      rintro n ⟨⟩
    | two hlt hcs hlt' hcs' =>
      refine ⟨hlt, ?_, ih⟩
      rintro n ⟨⟩
      exact hlt'
  | around hbefore hafter hcs ih => exact ih

theorem writesBounds_writeBounds {start : Nat} {stop : Option Nat} (hstart : start < UInt64.size)
    (hstop : ∀ n ∈ stop, n < UInt64.size) :
    WritesBounds (writeBounds start stop).toList start stop := by
  cases stop with
  | none => exact .one hstart (Text.isNumeral_toString start)
  | some stop =>
    have hbounds := WritesBounds.two hstart (Text.isNumeral_toString start) (hstop stop rfl)
      (Text.isNumeral_toString stop)
    rwa [← List.singleton_append, ← List.append_assoc, show ['_'] = "_".toList from rfl,
      ← String.toList_append, ← String.toList_append] at hbounds

/-- The text of an expression spells it. -/
theorem spells_write {reduction : Reduction} (h : reduction.Writable) :
    Spells reduction.write.toList reduction := by
  have hnone : ∀ c ∈ ([] : List Char), isBlank c = true := List.forall_mem_nil _
  induction reduction with
  | matched => exact .matched
  | pathTag name =>
    have hspells := Spells.pathTag hnone h
    rwa [List.append_nil, ← String.toList_append] at hspells
  | valueOfKey key =>
    have hspells := Spells.valueOfKey hnone h
    rwa [List.append_nil, ← String.toList_append] at hspells
  | countMatches => exact .countMatches (map_lower_eq_countMatches_iff.1 (by decide))
  | substring start stop inner ih =>
    obtain ⟨hstart, hstop, hinner⟩ := h
    have hspells := Spells.substring (writesBounds_writeBounds hstart hstop) hnone (ih hinner)
    rwa [List.append_nil, ← List.singleton_append, ← List.append_assoc,
      show ['('] = "(".toList from rfl, show [')'] = ")".toList from rfl,
      ← String.toList_append, ← String.toList_append, ← String.toList_append,
      ← String.toList_append] at hspells

/-- A text is read as an expression exactly if it spells this expression, and any other text is
refused as an error of configuration. Only writable expressions have a spelling, and their own text
is one. -/
theorem read_iff_spells :
    (∀ (text : String) (reduction : Reduction),
      read text = .ok reduction ↔ Spells text.toList reduction) ∧
    (∀ text : String, (∀ reduction, ¬ Spells text.toList reduction) →
      ∃ error, read text = .error error ∧ error.kind = .config) ∧
    (∀ reduction : Reduction, reduction.Writable → read reduction.write = .ok reduction) ∧
    ∀ (text : String) (reduction : Reduction),
      Spells text.toList reduction → reduction.Writable := by
  refine ⟨fun text reduction => ofChars_eq_ok_iff, ?_,
    fun reduction h => (spells_write h).ofChars_eq, fun text reduction => Spells.writable⟩
  intro text hnot
  exact (ofChars_cases text.toList).resolve_left fun ⟨reduction, _, hspells⟩ =>
    hnot reduction hspells

/-- An expression in an expression, with blanks, zeros before bounds and parentheses in a name, and
a text with a bound that is too large. -/
theorem read_iff_spells_of_nested :
    let text := "\tsubstring_007 ( substring_2_05( pathTags: a) (b ) ) "
    let reduction : Reduction := .substring 7 none (.substring 2 (some 5) (.pathTag "a) (b"))
    let large := "substring_18446744073709551616(COUNTmatches)"
    Spells text.toList reduction ∧ reduction.Writable ∧ read reduction.write = .ok reduction ∧
    (∀ reduction, ¬ Spells large.toList reduction) ∧
    ∃ error, read large = .error error ∧ error.kind = .config := by
  intro text reduction large
  obtain ⟨hiff, hrefused, hwrite, hwritable⟩ := read_iff_spells
  have hread : read text = .ok reduction := by decide +kernel
  have hlarge : (read large).toOption = none := by decide +kernel
  have hspells := (hiff text reduction).1 hread
  have hnot : ∀ reduction, ¬ Spells large.toList reduction := by
    intro own hown
    rw [(hiff large own).2 hown] at hlarge
    cases hlarge
  exact ⟨hspells, hwritable text reduction hspells,
    hwrite reduction (hwritable text reduction hspells), hnot, hrefused large hnot⟩

end PathQuery.Reduction
