import PathQuery.Path.Segment
import PathQuery.Proofs.Text.Pieces

/-!
# How a call is spelled

`SpellsCall` says which texts spell the call of a function, without a word on how a text is read.
Reading finds a call in these texts and in no others.

A call has one name, as a name has no opening parenthesis: whatever stands before the first one is
the name, and only a closing one and blanks may follow it.

Results:
1. `callName?_eq_some_iff`: the segments that are read as a call.
2. `callName?_trim`: blanks around a segment do not matter for the function it calls.
-/

namespace PathQuery.Segment

open Text (isBlank)

/-! ## The spelling -/

/-- Characters that spell the call of a function: its name and a pair of parentheses. Blanks may
stand at both ends, before the parentheses and between them. The name has none at its ends, and no
opening parenthesis. It may be empty. -/
inductive SpellsCall : List Char → String → Prop
  | call {before gap inside after : List Char} {name : String}
      (hbefore : ∀ c ∈ before, isBlank c = true) (hname : Text.trim name = name)
      (hopen : '(' ∉ name.toList) (hgap : ∀ c ∈ gap, isBlank c = true)
      (hinside : ∀ c ∈ inside, isBlank c = true) (hafter : ∀ c ∈ after, isBlank c = true) :
      SpellsCall (before ++ name.toList ++ gap ++ '(' :: inside ++ ')' :: after) name

theorem SpellsCall.open_mem {cs : List Char} {name : String} (h : SpellsCall cs name) :
    '(' ∈ cs := by
  cases h with
  | call => exact List.mem_append_left _ (List.mem_append_right _ List.mem_cons_self)

/-! ## Reading -/

/-- From the first opening parenthesis on, nothing but a pair of parentheses is left without blanks
exactly if the parentheses stand there, with blanks between and after them. -/
theorem filter_dropWhile_eq_iff {cs : List Char} :
    (cs.dropWhile (· ≠ '(')).filter (fun c => !isBlank c) = ['(', ')'] ↔
      ∃ inside after, (∀ c ∈ inside, isBlank c = true) ∧ (∀ c ∈ after, isBlank c = true) ∧
        cs.dropWhile (· ≠ '(') = '(' :: inside ++ ')' :: after := by
  have hblank {blanks : List Char} (h : ∀ c ∈ blanks, ¬ (!isBlank c) = true) :
      ∀ c ∈ blanks, isBlank c = true := fun c hc => by simpa using h c hc
  constructor
  · intro h
    obtain ⟨before, rest, hcs, hbefore, -, hrest⟩ := List.filter_eq_cons_iff.1 h
    obtain ⟨inside, after, rfl, hinside, -, hafter⟩ := List.filter_eq_cons_iff.1 hrest
    cases before with
    | nil =>
      exact ⟨inside, after, hblank hinside, hblank (List.filter_eq_nil_iff.1 hafter), hcs⟩
    | cons c before =>
      -- A blank is no parenthesis, so it would have been dropped.
      have hhead := List.head?_dropWhile_not (fun c => decide (c ≠ '(')) cs
      rw [hcs] at hhead
      obtain rfl : c = '(' := by simpa using hhead
      exact absurd (hblank hbefore '(' List.mem_cons_self) (by decide)
  · rintro ⟨inside, after, hinside, hafter, hcs⟩
    have hnone {blanks : List Char} (h : ∀ c ∈ blanks, isBlank c = true) :
        blanks.filter (fun c => !isBlank c) = [] :=
      List.filter_eq_nil_iff.2 fun c hc => by simp [h c hc]
    rw [hcs, List.filter_append, List.filter_cons_of_pos (by decide),
      List.filter_cons_of_pos (by decide), hnone hinside, hnone hafter]
    rfl

/-- What stands before the first opening parenthesis is the name, without the blanks around it. -/
theorem callChars?_append_parentheses {front inside after : List Char} (hfront : '(' ∉ front)
    (hinside : ∀ c ∈ inside, isBlank c = true) (hafter : ∀ c ∈ after, isBlank c = true) :
    callChars? (front ++ '(' :: inside ++ ')' :: after) = some (Text.trimBy isBlank front) := by
  have hclosed : Text.dropEndWhile isBlank (front ++ '(' :: inside ++ ')' :: after) =
      front ++ '(' :: (inside ++ [')']) := by
    have hlast : front ++ '(' :: inside ++ ')' :: after =
        front ++ '(' :: (inside ++ [')']) ++ after := by simp
    rw [hlast, Text.dropEndWhile_append _ hafter]
    apply Text.dropEndWhile_eq_self
    rw [← List.cons_append, ← List.append_assoc, List.getLast?_concat]
    rintro _ ⟨⟩
    rfl
  have hother : ∀ c ∈ front, decide (c ≠ '(') = true := by
    intro c hc
    refine decide_eq_true ?_
    rintro rfl
    exact hfront hc
  have hdrop : (front ++ '(' :: (inside ++ [')'])).dropWhile (· ≠ '(') =
      '(' :: inside ++ [')'] := by
    rw [List.dropWhile_append_of_pos hother]
    rfl
  have htake : (front ++ '(' :: (inside ++ [')'])).takeWhile (· ≠ '(') = front := by
    rw [List.takeWhile_append_of_pos hother]
    exact List.append_nil front
  simp only [callChars?, hclosed]
  rw [if_pos (filter_dropWhile_eq_iff.2 ⟨inside, [], hinside, List.forall_mem_nil _, hdrop⟩), htake]

theorem SpellsCall.callChars?_eq {cs : List Char} {name : String} (h : SpellsCall cs name) :
    callChars? cs = some name.toList := by
  cases h with
  | call hbefore hname hopen hgap hinside hafter =>
    have hother {blanks : List Char} (h : ∀ c ∈ blanks, isBlank c = true) : '(' ∉ blanks :=
      fun hmem => absurd (h '(' hmem) (by decide)
    rw [callChars?_append_parentheses _ hinside hafter, Text.trimBy_append_right _ hgap,
      Text.trimBy_append hbefore, ← Text.toList_trim, hname]
    simp only [List.mem_append, not_or]
    exact ⟨⟨hother hbefore, hopen⟩, hother hgap⟩

theorem spellsCall_of_callChars? {cs : List Char} {name : String}
    (h : callChars? cs = some name.toList) : SpellsCall cs name := by
  obtain ⟨last, hlast, hcs⟩ := Text.exists_dropEndWhile_append isBlank cs
  simp only [callChars?] at h
  generalize Text.dropEndWhile isBlank cs = closed at h hcs
  split at h
  · next hcall =>
    obtain ⟨inside, after, hinside, hafter, hdrop⟩ := filter_dropWhile_eq_iff.1 hcall
    obtain ⟨before, gap, hbefore, hgap, hfront⟩ :=
      Text.exists_append_trimBy isBlank (closed.takeWhile (· ≠ '('))
    have hopen : '(' ∉ closed.takeWhile (· ≠ '(') := fun hmem =>
      absurd (List.mem_takeWhile_imp hmem) (by decide)
    have hclosed : closed.takeWhile (· ≠ '(') ++ ('(' :: inside ++ ')' :: after) = closed :=
      hdrop ▸ List.takeWhile_append_dropWhile
    generalize closed.takeWhile (· ≠ '(') = front at h hfront hopen hclosed
    have hname : Text.trimBy isBlank front = name.toList := Option.some.inj h
    have htrim : Text.trim name = name := by
      rw [Text.trim, ← hname, Text.trimBy_trimBy, hname, String.ofList_toList]
    have hspelled : cs =
        before ++ name.toList ++ gap ++ '(' :: inside ++ ')' :: (after ++ last) := by
      rw [← hcs, ← hclosed, ← hfront, hname]
      simp
    rw [hspelled]
    exact .call hbefore htrim (fun hmem => hopen ((Text.isInfix_trimBy isBlank front).mem
      (hname ▸ hmem))) hgap hinside (List.forall_mem_append.2 ⟨hafter, hlast⟩)
  · cases h

/-- A segment is read as the call of a function exactly if it spells this call. -/
theorem callName?_eq_some_iff {segment name : String} :
    callName? segment = some name ↔ SpellsCall segment.toList name := by
  rw [callName?, Option.map_eq_some_iff]
  constructor
  · rintro ⟨chars, hchars, rfl⟩
    exact spellsCall_of_callChars? (by rwa [String.toList_ofList])
  · intro h
    exact ⟨name.toList, h.callChars?_eq, String.ofList_toList⟩

theorem callName?_eq_none {segment : String} (h : '(' ∉ segment.toList) :
    callName? segment = none :=
  Option.eq_none_iff_forall_ne_some.2 fun _ hname => h (callName?_eq_some_iff.1 hname).open_mem

/-! ## Blanks around a segment -/

theorem callChars?_dropEndWhile (cs : List Char) :
    callChars? (Text.dropEndWhile isBlank cs) = callChars? cs := by
  unfold callChars?
  rw [Text.dropEndWhile_eq_self fun _ => Text.getLast?_dropEndWhile]

theorem callChars?_append {blanks : List Char} (h : ∀ c ∈ blanks, isBlank c = true)
    (cs : List Char) : callChars? (blanks ++ cs) = callChars? cs := by
  have hopen : ∀ c ∈ blanks, decide (c ≠ '(') = true := by
    intro c hc
    refine decide_eq_true ?_
    rintro rfl
    cases h '(' hc
  by_cases hnil : Text.dropEndWhile isBlank cs = []
  · have hall : Text.dropEndWhile isBlank (blanks ++ cs) = [] :=
      Text.dropEndWhile_eq_nil_iff.2
        (List.forall_mem_append.2 ⟨h, Text.dropEndWhile_eq_nil_iff.1 hnil⟩)
    unfold callChars?
    rw [hall, hnil]
  · unfold callChars?
    simp only [Text.dropEndWhile_append_of_ne_nil hnil, List.dropWhile_append_of_pos hopen,
      List.takeWhile_append_of_pos hopen, Text.trimBy_append h]

/-- Blanks around a segment do not matter for the function that it calls. -/
theorem callName?_trim (segment : String) : callName? (Text.trim segment) = callName? segment := by
  have hblank : ∀ c ∈ segment.toList.takeWhile isBlank, isBlank c = true :=
    List.all_eq_true.1 List.all_takeWhile
  unfold callName?
  rw [Text.toList_trim, Text.trimBy, callChars?_dropEndWhile, ← callChars?_append hblank,
    List.takeWhile_append_dropWhile]

end PathQuery.Segment
