import Mathlib.Data.List.Forall2
import PathQuery.Proofs.Path.Spelling
import PathQuery.Proofs.Walk.Branch

/-!
# Reading the path of a trail

The path of a match grows by one hop after the other. It is the text of glyphs, those of the
dollar sign and of each hop in turn, and it is read back as one step for each hop.

`Outline.Reads` says what an outline is read as, lexeme by lexeme, and `Step.Spelled` which glyphs
stand for one step. They carry the induction: a spelled step ends the segment before it, whatever
comes later.

Results:
1. `inSegment_append`, `inBracket_of_staysOpen`, `inBracket_append`: how far a segment and a bracket
   reach.
2. `reads_spelled`, `result_readBody_spelled`, `result_read_spelled`: what spells steps is read as
   these steps.
3. `Hop.Readable.spelled`: a hop spells the step that takes it again.
4. `result_read_trail`: so the path of a trail is read as the steps of its hops.
5. `result_read_escapeKeys`: in particular, reading undoes the escaping of keys.
-/

namespace PathQuery

/-! ## Outlines -/

namespace Outline

/-- What the lexemes of an outline are read as, up to its end. -/
inductive Reads (functions : Registry) : Outline → List Step → Prop
  | ending {glyphs : List Glyph} {steps : List Step} :
      Path.readSegment functions glyphs = .ok steps → Reads functions ⟨[], .segment glyphs⟩ steps
  | after {lexeme : Lexeme} {steps rest : List Step} {outline : Outline} :
      (Path.readLexeme functions lexeme).result = .ok steps → Reads functions outline rest →
      Reads functions (outline.after [lexeme]) (steps ++ rest)

/-- A segment reaches to the next plain dot or opening bracket. -/
theorem inSegment_append {glyphs : List Glyph} (hdot : .plain '.' ∉ glyphs)
    (hopen : .plain '[' ∉ glyphs) (read rest : List Glyph) :
    inSegment read (glyphs ++ rest) = inSegment (glyphs.reverse ++ read) rest := by
  induction glyphs generalizing read with
  | nil => rfl
  | cons glyph glyphs ih =>
    have hglyph : glyph ≠ .plain '.' := (List.ne_of_not_mem_cons hdot).symm
    have hglyph' : glyph ≠ .plain '[' := (List.ne_of_not_mem_cons hopen).symm
    have hrest := ih (List.not_mem_of_not_mem_cons hdot) (List.not_mem_of_not_mem_cons hopen)
    rw [List.cons_append, inSegment, if_neg hglyph, if_neg hglyph', hrest, List.reverse_cons,
      List.append_assoc]
    rfl

/-- No closing bracket in the content of a bracket may close it. -/
def StaysOpen (content : List Glyph) : Prop :=
  ∀ front rest, content = front ++ .plain ']' :: rest → mayClose (rest ++ [.plain ']']) = false

theorem staysOpen_nil : StaysOpen [] := by
  intro front rest h
  cases front <;> cases h

theorem staysOpen_cons_iff {glyph : Glyph} {content : List Glyph} :
    StaysOpen (glyph :: content) ↔
      (glyph = .plain ']' → mayClose (content ++ [.plain ']']) = false) ∧ StaysOpen content := by
  constructor
  · intro h
    refine ⟨?_, ?_⟩
    · rintro rfl
      exact h [] content rfl
    · rintro front rest rfl
      exact h (glyph :: front) rest rfl
  · rintro ⟨hglyph, hcontent⟩ front rest h
    cases front with
    | nil =>
      obtain ⟨rfl, rfl⟩ := List.cons.inj h
      exact hglyph rfl
    | cons _ front => exact hcontent front rest (List.cons.inj h).2

/-- Only the next glyph decides whether a bracket may close. -/
theorem mayClose_append (content : List Glyph) (glyph : Glyph) (rest : List Glyph) :
    mayClose (content ++ glyph :: rest) = mayClose (content ++ [glyph]) := by
  cases content <;> rfl

/-- A bracket reaches to the first plain closing bracket that may close it. -/
theorem inBracket_of_staysOpen {content rest : List Glyph} (hcontent : StaysOpen content)
    (hrest : mayClose rest = true) (read : List Char) :
    inBracket read (content ++ .plain ']' :: rest) =
      (inSegment [] rest).after [.bracket (read.reverse ++ content.map Glyph.char)] := by
  induction content generalizing read with
  | nil => rw [List.nil_append, inBracket, if_pos ⟨rfl, hrest⟩, List.map_nil, List.append_nil]
  | cons glyph content ih =>
    obtain ⟨hglyph, hinner⟩ := staysOpen_cons_iff.1 hcontent
    have hopen : ¬ (glyph = .plain ']' ∧
        mayClose (content ++ .plain ']' :: rest) = true) := by
      rintro ⟨hplain, hclose⟩
      rw [mayClose_append, hglyph hplain] at hclose
      cases hclose
    rw [List.cons_append, inBracket, if_neg hopen, ih hinner, List.reverse_cons, List.map_cons,
      List.append_assoc]
    rfl

/-- No closing bracket in plain characters may close the bracket around them. -/
def Encloses (content : List Char) : Prop :=
  ∀ front rest, content = front ++ ']' :: rest → mayClose (rest.map .plain) = false

theorem Encloses.staysOpen {content : List Char} (h : Encloses content) :
    StaysOpen (content.map .plain) := by
  intro front rest hcontent
  obtain ⟨before, more, rfl, -, hmore⟩ := List.map_eq_append_iff.1 hcontent
  obtain ⟨c, after, rfl, hc, rfl⟩ := List.map_eq_cons_iff.1 hmore
  obtain rfl : c = ']' := congrArg Glyph.char hc
  have hclosed := h before after rfl
  cases after with
  | nil => cases hclosed
  | cons d after => exact hclosed

theorem inBracket_append {content : List Char} (hcontent : Encloses content) {rest : List Glyph}
    (hrest : mayClose rest = true) (read : List Char) :
    inBracket read (content.map .plain ++ .plain ']' :: rest) =
      (inSegment [] rest).after [.bracket (read.reverse ++ content)] := by
  rw [inBracket_of_staysOpen hcontent.staysOpen hrest, List.map_map]
  exact congrArg (fun cs => Outline.after [.bracket (read.reverse ++ cs)] _) (List.map_id content)

end Outline

theorem Attempt.result_mapM_cons (f : α → Attempt β) (a : α) (as : List α) :
    result ((a :: as).mapM f) = do return (← result (f a)) :: (← result (as.mapM f)) := by
  simp only [List.mapM_cons, result_bind, result_pure]
  rfl

/-- The parts that reading goes through: those of the lexemes, and the one at the end. -/
theorem Outline.Reads.exists_parts {functions : Registry} {outline : Outline} {steps : List Step}
    (h : outline.Reads functions steps) (body : String) :
    ∃ parts last, Attempt.result (outline.lexemes.mapM (Path.readLexeme functions)) = .ok parts ∧
      (Path.readEnding functions body outline.ending).result = .ok last ∧
      parts.flatten ++ last = steps := by
  induction h with
  | @ending glyphs steps hsegment => exact ⟨[], steps, rfl, hsegment, rfl⟩
  | @after lexeme steps rest outline hlexeme hrest ih =>
    obtain ⟨parts, last, hlexemes, hending, rfl⟩ := ih
    refine ⟨steps :: parts, last, ?_, hending, List.append_assoc ..⟩
    show Attempt.result ((lexeme :: outline.lexemes).mapM _) = _
    rw [Attempt.result_mapM_cons, hlexeme, hlexemes]
    rfl

namespace Path

variable {settings : Settings}

theorem result_readDangling (options : Options) {body : String}
    (h : Glyph.isDangling body.toList = false) : (readDangling options body).result = .ok () := by
  unfold readDangling
  rw [if_neg (Bool.eq_false_iff.1 h)]
  rfl

/-- A body is read as its outline is, unless an escape in it has no character. -/
theorem result_readBody {body : String} {steps : List Step}
    (h : (Outline.ofGlyphs (Glyph.ofChars body.toList)).Reads settings.functions steps)
    (hdangling : Glyph.isDangling body.toList = false) :
    (readBody settings body).result = .ok steps := by
  obtain ⟨parts, last, hlexemes, hending, rfl⟩ := h.exists_parts body
  have hkept := result_readDangling settings.options hdangling
  unfold readBody
  simp only [Attempt.result_bind, Attempt.result_pure, hlexemes, hkept, hending]
  rfl

end Path

/-! ## Spelled steps -/

/-- Glyphs spell a step: a dot and a segment that is read as the step, or a bracket whose content
is. -/
inductive Step.Spelled (functions : Registry) (step : Step) : List Glyph → Prop
  | segment {glyphs : List Glyph} :
      glyphs ≠ [] → .plain '.' ∉ glyphs → .plain '[' ∉ glyphs → .plain '\\' ∉ glyphs →
      (∀ glyph, glyphs.getLast? = some glyph → glyph.isPlainBlank = false) →
      Path.readSegment functions glyphs = .ok [step] →
      Spelled functions step (.plain '.' :: glyphs)
  | bracket {content : List Char} :
      '\\' ∉ content → Outline.Encloses content →
      (Path.readBracket functions (String.ofList content)).result = .ok step →
      Spelled functions step (.plain '[' :: (content.map .plain ++ [.plain ']']))

namespace Step.Spelled

variable {functions : Registry} {step : Step} {glyphs : List Glyph}

theorem backslash_not_mem (h : step.Spelled functions glyphs) : .plain '\\' ∉ glyphs := by
  cases h with
  | segment _ _ _ hbackslash _ _ => exact List.not_mem_cons_of_ne_of_not_mem (by decide) hbackslash
  | @bracket content hbackslash _ _ =>
    refine List.not_mem_cons_of_ne_of_not_mem (by decide) ?_
    intro hmem
    rcases List.mem_append.1 hmem with hmem | hmem
    · exact hbackslash (Glyph.plain_mem_map_iff.1 hmem)
    · exact absurd hmem (by decide)

/-- A step that is spelled never ends in a blank that would be trimmed. -/
theorem isPlainBlank_of_getLast? (h : step.Spelled functions glyphs) {glyph : Glyph}
    (hlast : glyphs.getLast? = some glyph) : glyph.isPlainBlank = false := by
  cases h with
  | @segment glyphs hne _ _ _ hend _ =>
    rw [List.getLast?_cons_of_ne_nil hne] at hlast
    exact hend glyph hlast
  | bracket _ _ _ =>
    rw [← List.cons_append, List.getLast?_concat] at hlast
    exact Option.some.inj hlast ▸ rfl

end Step.Spelled

section Spelled

variable {functions : Registry} {parts : List (List Glyph)} {steps : List Step}

theorem backslash_not_mem_flatten (h : List.Forall₂ (Step.Spelled functions) steps parts) :
    .plain '\\' ∉ parts.flatten := by
  induction h with
  | nil => exact List.not_mem_nil
  | cons hstep _ ih =>
    intro hmem
    rcases List.mem_append.1 hmem with hmem | hmem
    · exact hstep.backslash_not_mem hmem
    · exact ih hmem

/-- What ends in steps that are spelled does not end in a blank. -/
theorem isPlainBlank_of_getLast?_flatten (h : List.Forall₂ (Step.Spelled functions) steps parts)
    {front : List Glyph}
    (hfront : ∀ glyph, front.getLast? = some glyph → glyph.isPlainBlank = false) :
    ∀ glyph, (front ++ parts.flatten).getLast? = some glyph → glyph.isPlainBlank = false := by
  induction h generalizing front with
  | nil =>
    rw [List.flatten_nil, List.append_nil]
    exact hfront
  | cons hstep _ ih =>
    rw [List.flatten_cons, ← List.append_assoc]
    apply ih
    intro glyph hlast
    rw [List.getLast?_append, Option.or_eq_some_iff] at hlast
    rcases hlast with hlast | ⟨-, hlast⟩
    · exact hstep.isPlainBlank_of_getLast? hlast
    · exact hfront glyph hlast

/-- It does not start with one either. -/
theorem dropWhile_writeAll_flatten (h : List.Forall₂ (Step.Spelled functions) steps parts) :
    (Glyph.writeAll parts.flatten).dropWhile Text.isBlank = Glyph.writeAll parts.flatten := by
  cases h with
  | nil => rfl
  | cons hstep _ =>
    cases hstep with
    | segment _ _ _ _ _ _ => rfl
    | bracket _ _ _ => rfl

end Spelled

namespace Outline

variable {functions : Registry}

theorem mayClose_flatten {steps : List Step} {parts : List (List Glyph)}
    (h : List.Forall₂ (Step.Spelled functions) steps parts) : mayClose parts.flatten = true := by
  cases h with
  | nil => rfl
  | cons hstep _ =>
    cases hstep with
    | segment _ _ _ _ _ _ => rfl
    | bracket _ _ _ => rfl

/-- Spelled steps are read one by one, after what has been read before: a dot ends a segment, and
so does a bracket. -/
theorem reads_spelled {steps : List Step} {parts : List (List Glyph)}
    (h : List.Forall₂ (Step.Spelled functions) steps parts) {read : List Glyph}
    {before : List Step} (hread : Path.readSegment functions read.reverse = .ok before) :
    (inSegment read parts.flatten).Reads functions (before ++ steps) := by
  induction h generalizing read before with
  | nil =>
    rw [List.append_nil]
    exact .ending hread
  | @cons step part steps parts hstep hsteps ih =>
    rw [List.flatten_cons]
    cases hstep with
    | @segment glyphs hne hdot hopen _ _ hsegment =>
      have hbracket : opensBracket (glyphs ++ parts.flatten) = false := by
        obtain ⟨glyph, others, rfl⟩ := List.exists_cons_of_ne_nil hne
        exact decide_eq_false fun h => hopen (h ▸ List.mem_cons_self)
      rw [List.cons_append, inSegment, if_pos rfl, hbracket, if_neg Bool.false_ne_true,
        inSegment_append hdot hopen, List.append_nil]
      rw [← List.reverse_reverse glyphs] at hsegment
      exact .after hread (ih hsegment)
    | @bracket content _ hcontent hbracket =>
      have hempty : Path.readSegment functions (List.reverse []) = .ok [] := rfl
      have hlexeme : (Path.readLexeme functions (.bracket content)).result = .ok [step] := by
        unfold Path.readLexeme
        rw [Attempt.result_bind, hbracket]
        rfl
      rw [List.cons_append, List.append_assoc, inSegment, if_neg (by decide), if_pos rfl,
        List.singleton_append, inBracket_append hcontent (mayClose_flatten hsteps)]
      exact .after hread (.after hlexeme (ih hempty))

end Outline

namespace Path

variable {settings : Settings} {steps : List Step} {parts : List (List Glyph)}

/-- Spelled steps are read as these steps. -/
theorem result_readBody_spelled (h : List.Forall₂ (Step.Spelled settings.functions) steps parts)
    {body : String} (hbody : body.toList = Glyph.writeAll parts.flatten) :
    (readBody settings body).result = .ok steps := by
  have hbackslash := backslash_not_mem_flatten h
  have hreads : (Outline.inSegment [] parts.flatten).Reads settings.functions ([] ++ steps) :=
    Outline.reads_spelled h rfl
  refine result_readBody ?_ ?_
  · rw [hbody, Glyph.ofChars_writeAll hbackslash]
    exact hreads
  · rw [hbody]
    exact Glyph.isDangling_writeAll hbackslash

/-- So are a dollar sign and spelled steps. -/
theorem result_read_spelled (h : List.Forall₂ (Step.Spelled settings.functions) steps parts)
    {path : String} (hpath : path.toList = '$' :: Glyph.writeAll parts.flatten) :
    (Path.read settings path).result = .ok steps := by
  have hbackslash := backslash_not_mem_flatten h
  have hwritten : '$' :: Glyph.writeAll parts.flatten =
      Glyph.writeAll (.plain '$' :: parts.flatten) := rfl
  have htrim : trimPathEnd (Glyph.writeAll (.plain '$' :: parts.flatten)) =
      '$' :: Glyph.writeAll parts.flatten := by
    refine trimPathEnd_writeAll (List.not_mem_cons_of_ne_of_not_mem (by decide) hbackslash) ?_
    have hdollar : ∀ glyph, [Glyph.plain '$'].getLast? = some glyph → glyph.isPlainBlank = false :=
      fun glyph h => Option.some.inj h ▸ rfl
    exact isPlainBlank_of_getLast?_flatten h hdollar
  have hstart : (Glyph.writeAll (.plain '$' :: parts.flatten)).dropWhile Text.isBlank =
      Glyph.writeAll (.plain '$' :: parts.flatten) := rfl
  unfold Path.read
  rw [hpath, hwritten, hstart, htrim]
  show (readBody settings
    (String.ofList ((Glyph.writeAll parts.flatten).dropWhile Text.isBlank))).result = _
  rw [dropWhile_writeAll_flatten h]
  exact result_readBody_spelled h String.toList_ofList

end Path

/-! ## Hops -/

namespace Hop

/-- The step that takes a hop again. -/
def step : Hop → Step
  | .inward (.member key) => .key key
  | .inward (.element position) => .select (.index position)
  | .call name => .function name

def glyphs : Hop → List Glyph
  | .inward (.member key) => .plain '.' :: Glyph.ofKey key
  | .inward (.element position) =>
    .plain '[' :: ((toString position).toList.map .plain ++ [.plain ']'])
  | .call name => .plain '.' :: Glyph.ofCall name

/-- A hop can be read again: a position is small enough to be written in a path, and a function is
registered under a name that can be. -/
def Readable (functions : Registry) : Hop → Prop
  | .inward (.member _) => True
  | .inward (.element position) => position < UInt64.size
  | .call name => Segment.Callable name ∧ functions.contains name = true

theorem toList_extend (place : String) (hop : Hop) :
    (hop.extend place).toList = place.toList ++ Glyph.writeAll hop.glyphs := by
  match hop with
  | .inward (.member key) =>
    show (place ++ "." ++ Segment.escapeKey key).toList = _
    rw [String.toList_append, String.toList_append, Segment.toList_escapeKey, List.append_assoc]
    rfl
  | .inward (.element position) =>
    show (place ++ "[" ++ toString position ++ "]").toList = _
    rw [glyphs, Glyph.writeAll_bracket]
    simp only [String.toList_append, List.append_assoc]
    rfl
  | .call name =>
    show (place ++ "." ++ name ++ "()").toList = _
    have hwritten : Glyph.writeAll (glyphs (.call name)) = '.' :: (name.toList ++ ['(', ')']) :=
      congrArg ('.' :: ·) (Glyph.writeAll_plain _)
    rw [hwritten]
    simp only [String.toList_append, List.append_assoc]
    rfl

/-- The path of a trail is written from the glyphs of its hops. -/
theorem toList_foldl_extend (place : String) (trail : List Hop) :
    (trail.foldl extend place).toList = place.toList ++ Glyph.writeAll (trail.flatMap glyphs) := by
  induction trail generalizing place with
  | nil => exact (List.append_nil _).symm
  | cons hop trail ih =>
    rw [List.foldl_cons, ih, toList_extend, List.flatMap_cons, Glyph.writeAll_append,
      List.append_assoc]

/-- A call has no plain character that would end its segment. -/
theorem plain_not_mem_ofCall {name : String} (hname : Segment.Callable name) {c : Char}
    (hc : c ∈ ['\\', '.', '[']) : Glyph.plain c ∉ Glyph.ofCall name := by
  intro hmem
  rcases List.mem_append.1 (Glyph.plain_mem_map_iff.1 hmem) with hmem | hmem
  · exact hname.plain c (List.mem_append_left ['('] hc) hmem
  · have hother : ∀ d ∈ ['(', ')'], d ∉ ['\\', '.', '['] := by simp
    exact hother c hmem hc

theorem not_mem_digits {position : Nat} {c : Char} (hc : c.isAlphanum = false) :
    c ∉ (toString position).toList := fun hmem =>
  Text.ne_of_isAlphanum (Text.isAlphanum_of_isDigit (Text.isDigit_of_mem_toString hmem)) hc rfl

/-- A hop that can be read spells the step that takes it again. -/
theorem Readable.spelled {functions : Registry} {hop : Hop} (h : hop.Readable functions) :
    hop.step.Spelled functions hop.glyphs := by
  match hop with
  | .inward (.member key) =>
    have hinert : ∀ glyph ∈ Glyph.ofKey key, glyph.Inert := fun glyph => Glyph.inert_of_mem_ofKey
    exact .segment (Glyph.ofKey_ne_nil key) (Glyph.not_mem_plain hinert rfl)
      (Glyph.not_mem_plain hinert rfl) (Glyph.not_mem_plain hinert rfl) (Glyph.ends_ofKey key).2
      (Path.readSegment_ofKey functions key)
  | .inward (.element position) =>
    refine .bracket (not_mem_digits rfl) ?_ ?_
    · rintro front rest hdigits
      exact absurd (hdigits ▸ List.mem_append_right _ List.mem_cons_self) (not_mem_digits rfl)
    · rw [String.ofList_toList]
      exact Path.readBracket_position functions h
  | .call name =>
    refine .segment (Glyph.ofCall_ne_nil name) (plain_not_mem_ofCall h.1 (by decide))
      (plain_not_mem_ofCall h.1 (by decide)) (plain_not_mem_ofCall h.1 (by decide)) ?_
      (Path.readSegment_call h.1 h.2)
    intro glyph hlast
    rw [Glyph.ofCall, List.map_append, List.getLast?_append] at hlast
    exact Option.some.inj hlast ▸ rfl

end Hop

namespace Path

/-- The path of a trail is read as the steps of its hops. -/
theorem result_read_trail {settings : Settings} {trail : List Hop}
    (htrail : ∀ hop ∈ trail, hop.Readable settings.functions) :
    (Path.read settings (trail.foldl Hop.extend Walk.root)).result = .ok (trail.map Hop.step) := by
  refine result_read_spelled ?_ (Hop.toList_foldl_extend Walk.root trail)
  exact List.forall₂_map_left_iff.2
    (List.forall₂_map_right_iff.2 (List.forall₂_same.2 fun hop hhop => (htrail hop hhop).spelled))

/-! ## Keys -/

/-- A trail of members is written as the escaped keys, with a dot before each. -/
theorem foldl_extend_members (place key : String) (keys : List String) :
    ((key :: keys).map fun own => Hop.inward (.member own)).foldl Hop.extend place =
      place ++ "." ++ ".".intercalate ((key :: keys).map Segment.escapeKey) := by
  induction keys generalizing place key with
  | nil => exact congrArg (place ++ "." ++ ·) String.intercalate_singleton.symm
  | cons next keys ih =>
    have hjoin : ".".intercalate ((key :: next :: keys).map Segment.escapeKey) =
        Segment.escapeKey key ++ "." ++ ".".intercalate ((next :: keys).map Segment.escapeKey) :=
      String.intercalate_cons_cons
    rw [List.map_cons, List.foldl_cons, ih, hjoin]
    simp only [Hop.extend, Walk.memberPlace, String.append_assoc]

/-- Escaped keys with dots between them are read as these keys, whatever the keys are. -/
theorem result_read_escapeKeys (settings : Settings) (key : String) (keys : List String) :
    (read settings ("$." ++ ".".intercalate ((key :: keys).map Segment.escapeKey))).result =
      .ok ((key :: keys).map .key) := by
  let trail := (key :: keys).map fun own => Hop.inward (.member own)
  have hpath : "$." ++ ".".intercalate ((key :: keys).map Segment.escapeKey) =
      trail.foldl Hop.extend Walk.root := (foldl_extend_members Walk.root key keys).symm
  have hsteps : trail.map Hop.step = (key :: keys).map .key := List.map_map
  have htrail : ∀ hop ∈ trail, hop.Readable settings.functions := by
    intro hop hhop
    obtain ⟨own, -, rfl⟩ := List.mem_map.1 hhop
    trivial
  rw [hpath, result_read_trail htrail, hsteps]

end Path

end PathQuery
