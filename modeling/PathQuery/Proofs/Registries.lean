import PathQuery.Proofs.Path.Strictness
import PathQuery.Proofs.Session.Transparency

/-!
# Registering further functions

A path is read under a registry, but all that reading asks of it is whether a name is registered,
and a name that is not makes it fail. So a registry never decides what a text means, only whether it
is accepted: two registries that accept a path read it as the same steps, and a registry accepts
what another one does if it has the functions that these steps name.

`Agree` compares the outcomes of one reader under two registries that far. Each reader has one lemma
about it, made from those of the readers it calls.

Results:
1. `agree_readClause`, `agree_readSegment`: the two places where names are looked up.
2. `agree_read`: what a path is read as under two registries.
3. `parse_registries`: a larger registry reads what a smaller one accepts alike, and the other way
   round if the steps name functions of the smaller one only.
-/

namespace PathQuery

/-! ## The functions that steps name -/

/-- Every function that a segment of the clause calls is registered. -/
def Clause.Known (functions : Registry) (clause : Clause) : Prop :=
  ∀ segment ∈ Text.split Filter.dot clause.path, ∀ name,
    Segment.callName? segment = some name → functions.contains name = true

/-- Every function that the step names is registered. -/
def Step.Known (functions : Registry) : Step → Prop
  | .function name => functions.contains name = true
  | .select (.filter clauses) => ∀ clause ∈ clauses, clause.Known functions
  | _ => True

variable {functions functions' : Registry}

/-- Registering an aggregate forgets no name. -/
theorem Registry.contains_register {name : String} (h : functions.contains name = true)
    (aggregate : Aggregate) : (functions.register aggregate).contains name = true := by
  unfold register
  unfold contains at *
  rw [Dictionary.get?_insert]
  split
  · rfl
  · exact h

theorem Clause.Valid.known {clause : Clause} (h : clause.Valid functions) :
    clause.Known functions := by
  intro segment hsegment name hname
  obtain ⟨front, rest, hsplit⟩ := List.append_of_mem hsegment
  exact (h.calls front segment rest name hsplit hname).2

theorem Step.Valid.known {step : Step} (h : step.Valid functions) : step.Known functions := by
  cases step with
  | function name => exact h
  | select selector =>
    cases selector with
    | filter clauses => exact fun clause hclause => (h.2 clause hclause).known
    | _ => trivial
  | _ => trivial

theorem Step.Known.mono {step : Step} (h : step.Known functions)
    (hmore : ∀ name, functions.contains name = true → functions'.contains name = true) :
    step.Known functions' := by
  cases step with
  | function name => exact hmore name h
  | select selector =>
    cases selector with
    | filter clauses =>
      exact fun clause hclause segment hsegment name hname =>
        hmore name (h clause hclause segment hsegment name hname)
    | _ => trivial
  | _ => trivial

namespace Path

/-! ## Outcomes under two registries -/

/-- Outcomes of one reader under two registries. If both are values, they are the same one, and a
value of the first one is missing from the second one only if something in it is not known there. -/
inductive Agree (Known : α → Prop) : Except QueryError α → Except QueryError α → Prop
  | same (a : α) : Agree Known (.ok a) (.ok a)
  | unknown {a : α} {error : QueryError} : ¬ Known a → Agree Known (.ok a) (.error error)
  | refused {error : QueryError} {outcome : Except QueryError α} :
      Agree Known (.error error) outcome

section Rules

variable {Known : α → Prop} {Known' : β → Prop} {first second : Except QueryError α}

theorem agree_refl (Known : α → Prop) (outcome : Except QueryError α) :
    Agree Known outcome outcome := by
  cases outcome with
  | error error => exact .refused
  | ok a => exact .same a

/-- What goes on with a value must name what the value names. -/
theorem Agree.bind (h : Agree Known first second) {next next' : α → Except QueryError β}
    (hnext : ∀ a, Agree Known' (next a) (next' a))
    (hknown : ∀ a b, first = .ok a → next a = .ok b → Known' b → Known a) :
    Agree Known' (first >>= next) (second >>= next') := by
  cases h with
  | same a => exact hnext a
  | refused => exact .refused
  | @unknown a error hnot =>
    show Agree Known' (next a) (.error error)
    cases hb : next a with
    | error own => exact .refused
    | ok b => exact .unknown fun hown => hnot (hknown a b rfl hb hown)

theorem Agree.imp (h : Agree Known first second) {Stronger : α → Prop}
    (hstronger : ∀ a, Stronger a → Known a) : Agree Stronger first second := by
  cases h with
  | same a => exact .same a
  | unknown hnot => exact .unknown fun h => hnot (hstronger _ h)
  | refused => exact .refused

theorem Agree.map (h : Agree Known first second) {f : α → β}
    (hf : ∀ a, Known' (f a) → Known a) : Agree Known' (f <$> first) (f <$> second) := by
  cases h with
  | same a => exact .same (f a)
  | unknown hnot => exact .unknown fun hown => hnot (hf _ hown)
  | refused => exact .refused

theorem agree_mapM {as : List α} {read read' : α → Attempt β}
    (h : ∀ a ∈ as, Agree Known' (read a).result (read' a).result) :
    Agree (∀ b ∈ ·, Known' b) (Attempt.result (as.mapM read))
      (Attempt.result (as.mapM read')) := by
  induction as with
  | nil => exact .same []
  | cons a as ih =>
    obtain ⟨ha, has⟩ := List.forall_mem_cons.1 h
    rw [Attempt.result_mapM_cons, Attempt.result_mapM_cons]
    refine ha.bind (fun b => (ih has).bind (fun bs => .same (b :: bs)) ?_) ?_
    · rintro bs _ - ⟨⟩ hall
      exact (List.forall_mem_cons.1 hall).2
    · intro b bs _ hbs hall
      obtain ⟨rest, -, hbs⟩ := exists_of_bind_eq_ok hbs
      cases hbs
      exact (List.forall_mem_cons.1 hall).1

/-- Two outcomes that agree are the same value if both are one. -/
theorem Agree.eq_of_ok (h : Agree Known first second) {a b : α} (ha : first = .ok a)
    (hb : second = .ok b) : a = b := by
  cases h with
  | same => exact Except.ok.inj (ha.symm.trans hb)
  | unknown _ => cases hb
  | refused => cases ha

/-- A value in which everything is known is the other outcome too. -/
theorem Agree.eq_ok (h : Agree Known first second) {a : α} (ha : first = .ok a)
    (hknown : Known a) : second = .ok a := by
  cases h with
  | same => exact ha
  | unknown hnot => exact absurd (Except.ok.inj ha ▸ hknown) hnot
  | refused => cases ha

end Rules

variable (functions functions' : Registry)

/-! ## Clauses -/

theorem agree_knownFunction (name : String) :
    Agree (fun known => functions'.contains known = true)
      (Filter.knownFunction functions name) (Filter.knownFunction functions' name) := by
  unfold Filter.knownFunction
  split
  · split
    · exact .same name
    · next hnot => exact .unknown hnot
  · exact .refused

theorem agree_checkSegments (path : String) (segments : List String) :
    Agree (fun _ => ∀ segment ∈ segments, ∀ name,
        Segment.callName? segment = some name → functions'.contains name = true)
      (Filter.checkSegments functions path segments)
      (Filter.checkSegments functions' path segments) := by
  induction segments with
  | nil => exact .same ()
  | cons segment rest ih =>
    simp only [Filter.checkSegments, List.forall_mem_cons]
    cases Segment.callName? segment with
    | none => exact ih.imp fun _ h => h.2
    | some name =>
      simp only
      split
      · exact .refused
      · refine (agree_knownFunction functions functions' name).bind (fun _ => .same ()) ?_
        intro known _ hread _ h
        obtain ⟨rfl, -⟩ := (gives_knownFunction functions name).of_eq_ok hread
        exact h.1 known rfl

theorem agree_readClause (text : String) :
    Agree (Clause.Known functions') (Filter.readClause functions text).result
      (Filter.readClause functions' text).result := by
  unfold Filter.readClause
  cases Text.cutAt? '=' text with
  | none => exact .refused
  | some parts =>
    obtain ⟨path, value⟩ := parts
    simp only
    split
    · exact .refused
    · simp only [Attempt.result_bind, Attempt.result_ofExcept, Attempt.result_pieces,
        Attempt.result_pure, ok_bind]
      refine (agree_checkSegments functions functions' _ _).bind (fun _ => agree_refl _ _) ?_
      intro _ clause _ hclause hknown
      obtain ⟨condition, -, hclause⟩ := exists_of_bind_eq_ok hclause
      cases hclause
      exact hknown

theorem agree_readClauses (body : String) :
    Agree (∀ clause ∈ ·, Clause.Known functions' clause)
      (Filter.readClauses functions body).result (Filter.readClauses functions' body).result := by
  unfold Filter.readClauses
  split
  · exact .refused
  · simp only [Attempt.result_bind, Attempt.result_pieces, ok_bind]
    refine (agree_mapM fun text _ => agree_readClause functions functions' text).bind ?_ ?_
    · intro clauses
      split
      · exact .refused
      · exact .same clauses
    · intro clauses read _ hread hknown
      split at hread
      · cases hread
      · cases hread
        exact hknown

/-! ## Brackets and segments -/

theorem agree_readSelector (content : String) :
    Agree (fun selector => Step.Known functions' (.select selector))
      (readSelector functions content).result (readSelector functions' content).result := by
  unfold readSelector
  split
  · exact .refused
  · split
    · split
      · exact .refused
      · rw [Attempt.result_map, Attempt.result_map]
        exact (agree_readClauses functions functions' _).map fun _ h => h
    · split
      · exact agree_refl _ _
      · exact agree_refl _ _

theorem agree_readBracket (content : String) :
    Agree (Step.Known functions') (readBracket functions content).result
      (readBracket functions' content).result := by
  unfold readBracket
  split
  · exact agree_refl _ _
  · rw [Attempt.result_map, Attempt.result_map]
    exact (agree_readSelector functions functions' _).map fun _ h => h

theorem agree_readName (glyphs : List Glyph) :
    Agree (Step.Known functions') (readName functions glyphs) (readName functions' glyphs) := by
  unfold readName
  simp only
  split
  · exact .same _
  · split
    · exact agree_refl _ _
    · split
      · exact (agree_knownFunction functions functions' _).map fun _ h => h
      · exact .same _

theorem agree_readSegment (glyphs : List Glyph) :
    Agree (∀ step ∈ ·, Step.Known functions' step) (readSegment functions glyphs)
      (readSegment functions' glyphs) := by
  unfold readSegment
  split
  · exact .same []
  · exact (agree_readName functions functions' _).map fun step h =>
      h step (List.mem_singleton_self step)

/-! ## Paths -/

theorem agree_readLexeme (lexeme : Lexeme) :
    Agree (∀ step ∈ ·, Step.Known functions' step) (readLexeme functions lexeme).result
      (readLexeme functions' lexeme).result := by
  cases lexeme with
  | segment glyphs => exact agree_readSegment functions functions' glyphs
  | passthrough => exact .same _
  | bracket content =>
    simp only [readLexeme, Attempt.result_bind]
    refine (agree_readBracket functions functions' _).bind (fun step => .same [step]) ?_
    rintro step _ - ⟨⟩ h
    exact h step (List.mem_singleton_self step)

theorem agree_readEnding (body : String) (ending : Ending) :
    Agree (∀ step ∈ ·, Step.Known functions' step) (readEnding functions body ending).result
      (readEnding functions' body ending).result := by
  cases ending with
  | segment glyphs => exact agree_readSegment functions functions' glyphs
  | bracket => exact .refused

theorem agree_readBody (options : Options) (body : String) :
    Agree (∀ step ∈ ·, Step.Known functions' step)
      (readBody ⟨options, functions⟩ body).result (readBody ⟨options, functions'⟩ body).result := by
  simp only [readBody, Attempt.result_bind, Attempt.result_pure]
  refine (agree_mapM fun lexeme _ => agree_readLexeme functions functions' lexeme).bind
    (fun parts => (agree_refl (fun _ => True) _).bind (fun _ =>
      (agree_readEnding functions functions' body _).bind (fun last => .same _) ?_) ?_) ?_
  · rintro last _ - ⟨⟩ h
    exact fun step hstep => h step (List.mem_append_right _ hstep)
  · exact fun _ _ _ _ _ => trivial
  · intro parts steps _ hsteps h
    obtain ⟨_, -, hsteps⟩ := exists_of_bind_eq_ok hsteps
    obtain ⟨last, -, hsteps⟩ := exists_of_bind_eq_ok hsteps
    cases hsteps
    exact fun part hpart step hstep =>
      h step (List.mem_append_left _ (List.mem_flatten_of_mem hpart hstep))

/-- Two registries read a path as the same steps, unless one of them has not all the functions that
the path names. -/
theorem agree_read (options : Options) (path : String) :
    Agree (∀ step ∈ ·, Step.Known functions' step)
      (read ⟨options, functions⟩ path).result (read ⟨options, functions'⟩ path).result := by
  rw [read_eq, read_eq]
  cases body? path.toList with
  | none => exact .refused
  | some body => exact agree_readBody functions functions' options _

end Path

namespace Engine

/-- Let a registry have all functions of another one. What the smaller one accepts, the larger one
parses to the same steps, whatever either engine has been asked before. The other way round, the
smaller one accepts what the larger one parses to steps that name functions of the smaller one only.
Whether a segment is a key or a function does not depend on the registry at all. -/
theorem parse_registries (options : Options) {functions functions' : Registry}
    (hmore : ∀ name, functions.contains name = true → functions'.contains name = true)
    (before before' : List Operation) (path : String) :
    let parsed (functions : Registry) (before : List Operation) :=
      let settings : Settings := ⟨options, functions⟩
      ((parse settings path).run.run (Operation.memoryAfter settings before)).1
    (∀ steps, parsed functions before = .ok steps → parsed functions' before' = .ok steps) ∧
    (∀ steps, parsed functions' before' = .ok steps → (∀ step ∈ steps, step.Known functions) →
      parsed functions before = .ok steps) ∧
    ∀ (one other : Registry) (glyphs : List Glyph) (key function : String),
      Path.readSegment one glyphs = .ok [.key key] →
        Path.readSegment other glyphs ≠ .ok [.function function] := by
  simp only [Operation.run_parse_memoryAfter]
  refine ⟨fun steps hsteps => ?_, fun steps hsteps hknown => ?_, ?_⟩
  · have hvalid := (Path.gives_read _ path).of_eq_ok hsteps
    exact (Path.agree_read functions functions' options path).eq_ok hsteps
      fun step hstep => (hvalid step hstep).known.mono hmore
  · exact (Path.agree_read functions' functions options path).eq_ok hsteps hknown
  · intro one other glyphs key function hkey hfunction
    have hsame := (Path.agree_readSegment one other glyphs).eq_of_ok hkey hfunction
    cases hsame

/-- A filter and a function under the built-in registry and under one with a further function, and a
segment that calls this function. -/
theorem parse_registries_of_fail :
    let more : Registry := Registry.builtins.register .fail
    let path := "$.a[?(@.b. max ( ) =1)].length()"
    let steps : List Step :=
      [.key "a", .select (.filter [⟨"b. max ( )", .oneOf "1" ["1"]⟩]), .function "length"]
    let parsed (functions : Registry) (path : String) :=
      let settings : Settings := ⟨.default, functions⟩
      ((parse settings path).run.run (Operation.memoryAfter settings [])).1
    (∀ name, Registry.builtins.contains name = true → more.contains name = true) ∧
    parsed .builtins path = .ok steps ∧ parsed more path = .ok steps ∧
    (∀ step ∈ steps, step.Known .builtins) ∧
    parsed more "$.a.fail()" = .ok [.key "a", .function "fail"] ∧
    parsed .builtins "$.a.fail()" = .error (.unknownFunction "fail") := by
  intro more path steps parsed
  have hmore : ∀ name, Registry.builtins.contains name = true → more.contains name = true :=
    fun name hname => Registry.contains_register hname .fail
  have hread (functions : Registry) (path : String) :
      parsed functions path = (Path.read ⟨.default, functions⟩ path).result :=
    Operation.run_parse_memoryAfter _ [] path
  have hparse : parsed .builtins path = .ok steps := by
    rw [hread]
    decide +kernel
  have hknown : ∀ step ∈ steps, step.Known .builtins := by
    rw [hread] at hparse
    exact fun step hstep => ((Path.gives_read _ path).of_eq_ok hparse step hstep).known
  have hnamed : parsed more "$.a.fail()" = .ok [.key "a", .function "fail"] := by
    rw [hread]
    decide +kernel
  have hunnamed : parsed .builtins "$.a.fail()" = .error (.unknownFunction "fail") := by
    rw [hread]
    decide +kernel
  obtain ⟨hup, hdown, -⟩ := parse_registries .default hmore [] [] path
  exact ⟨hmore, hdown steps (hup steps hparse) hknown, hup steps hparse, hknown, hnamed, hunnamed⟩

end Engine

end PathQuery
