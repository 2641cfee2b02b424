import PathQuery.Proofs.Session.Coherence
import PathQuery.Proofs.Text.Pieces

/-!
# The calls made on a cache

A cache is asked for the steps of keys and for the pieces of texts. A reading comes with each call
for steps, and may have any result: the calls for one key need not agree. What the cache answers is
told from the calls before, which are a list, without a table:

* the first reading of a key that succeeds decides its steps, and readings after it are not run;
* a reading that fails leaves no steps behind, only the pieces it has asked for;
* pieces are those of their own text and separator.

Results:
1. `run_inSession_cuts`, `run_stepsOf_cuts`: what one call answers and leaves.
2. `records_memoryAfter`: what the tables hold after any calls.
3. `keeps_first_success`: the answers and the counts after any calls.
-/

namespace PathQuery

namespace Cache

/-! ## Pieces -/

/-- The cache holds pieces for these pairs and no others, and they are those of the text. -/
def Cuts (asked : List (String × String)) (cache : Cache) : Prop :=
  ∀ pair, cache.splits[pair]? =
    if pair ∈ asked then some (Text.split pair.1 pair.2) else none

theorem Cuts.pieces {asked : List (String × String)} {cache : Cache} (h : cache.Cuts asked)
    (separator text : String) :
    (cache.pieces separator text).1 = Text.split separator text ∧
    (cache.pieces separator text).2.Cuts (asked ++ [(separator, text)]) := by
  have hvalue : (cache.pieces separator text).1 = Text.split separator text := by
    refine cache.value_pieces_eq separator text fun kept hkept => ?_
    rw [h (separator, text)] at hkept
    split at hkept
    · exact (Option.some.inj hkept).symm
    · cases hkept
  refine ⟨hvalue, fun pair => ?_⟩
  rw [getElem?_pieces, hvalue, h pair]
  by_cases hpair : (separator, text) = pair
  · simp [← hpair]
  · simp [hpair, Ne.symm hpair]

theorem Cuts.mem_splits_iff {asked : List (String × String)} {cache : Cache}
    (h : cache.Cuts asked) (pair : String × String) : pair ∈ cache.splits ↔ pair ∈ asked := by
  rw [Std.HashMap.mem_iff_isSome_getElem?, h pair]
  split
  · next hmem => exact iff_of_true rfl hmem
  · next hmem => exact iff_of_false nofun hmem

end Cache

namespace Session

variable {α : Type} {asked : List (String × String)} {memory : Memory}

/-- A routine has the value it has without a cache, and leaves the pieces it asks for. -/
theorem run_inSession_cuts (routine : Routine α) (h : memory.cache.Cuts asked) :
    (routine.inSession.run memory).1 = routine.value ∧
    (routine.inSession.run memory).2.cache.paths = memory.cache.paths ∧
    (routine.inSession.run memory).2.cache.Cuts (asked ++ routine.requests) := by
  induction routine generalizing asked memory with
  | done a => exact ⟨rfl, rfl, (List.append_nil asked).symm ▸ h⟩
  | split separator text next ih =>
    let between : Memory := { memory with cache := (memory.cache.pieces separator text).2 }
    obtain ⟨hparts, hbetween⟩ : (memory.cache.pieces separator text).1 = Text.split separator text ∧
      between.cache.Cuts (asked ++ [(separator, text)]) := h.pieces separator text
    have hpaths := memory.cache.paths_pieces separator text
    have hrun : (Routine.split separator text next).inSession.run memory =
        (next (memory.cache.pieces separator text).1).inSession.run between := rfl
    obtain ⟨hvalue, hlater, hlast⟩ := ih (Text.split separator text) hbetween
    rw [hrun, hparts]
    rw [List.append_assoc] at hlast
    exact ⟨hvalue, hlater.trans hpaths, hlast⟩
  | note notice next ih =>
    let told : Memory := { memory with log := memory.log.push notice }
    have htold : told.cache.Cuts asked := h
    exact ih htold

/-- For a new key the reading is run. Its outcome is the answer, and its steps are kept if there are
any. -/
theorem run_stepsOf_cuts {key : String} (hkey : memory.cache.paths[key]? = none)
    (h : memory.cache.Cuts asked) (read : Attempt (List Step)) :
    let called := (stepsOf key read).run.run memory
    called.1 = read.result ∧
    called.2.cache.paths =
      read.result.toOption.elim memory.cache.paths (memory.cache.paths.insert key) ∧
    called.2.cache.Cuts (asked ++ read.run.requests) := by
  let told : Memory := { memory with log := memory.log.push (.parsing key) }
  have htold : told.cache.Cuts asked := h
  obtain ⟨hvalue, hpaths, hcuts⟩ := run_inSession_cuts read.run htold
  have hread : read.run.inSession.run told = (read.result, (read.run.inSession.run told).2) :=
    Prod.ext hvalue rfl
  generalize (read.run.inSession.run told).2 = later at hread hpaths hcuts
  rw [run_stepsOf_new hkey, hread]
  cases read.result with
  | error error => exact ⟨rfl, hpaths, hcuts⟩
  | ok steps =>
    have hkeep : later.cache.keep key steps =
        (steps, ⟨memory.cache.paths.insert key steps, later.cache.splits⟩) := by
      unfold Cache.keep
      rw [hpaths, hkey]
    refine ⟨congrArg (fun kept : List Step × Cache => Except.ok kept.1) hkeep,
      congrArg (fun kept : List Step × Cache => kept.2.paths) hkeep, ?_⟩
    show Cache.Cuts _ (later.cache.keep key steps).2
    rw [hkeep]
    exact hcuts

end Session

/-! ## Calls -/

namespace Cache

inductive Call where
  /-- for the steps of a key, with the reading to run if there are none yet -/
  | steps (key : String) (read : Attempt (List Step))
  /-- for the pieces of a text -/
  | pieces (separator text : String)

namespace Call

/-- The steps that the reading of a call would give a key. -/
def stepsFor? (key : String) : Call → Option (List Step)
  | .steps own read => if own = key then read.result.toOption else none
  | .pieces _ _ => none

/-- The key of a call whose reading succeeds. -/
def readKey? : Call → Option String
  | .steps key read => read.result.toOption.map fun _ => key
  | .pieces _ _ => none

end Call

/-- The steps of the first reading of a key that succeeds. -/
def firstSteps? (calls : List Call) (key : String) : Option (List Step) :=
  calls.findSome? (Call.stepsFor? key)

def readKeys (calls : List Call) : List String := calls.filterMap Call.readKey?

/-- The pairs of a separator and a text that a call after others asks for: its own, or those of its
reading, which is run only if no reading of the key has succeeded before. -/
def Call.asks (before : List Call) : Call → List (String × String)
  | .steps key read => if (firstSteps? before key).isSome then [] else read.run.requests
  | .pieces separator text => [(separator, text)]

/-- The pairs that calls after others ask for. -/
def askedAfter (before : List Call) : List Call → List (String × String)
  | [] => []
  | call :: calls => call.asks before ++ askedAfter (before ++ [call]) calls

def asked (calls : List Call) : List (String × String) := askedAfter [] calls

def Call.after (memory : Memory) : Call → Memory
  | .steps key read => ((Session.stepsOf key read).run.run memory).2
  | .pieces separator text =>
    ((Session.onCache fun cache => cache.pieces separator text).run memory).2

def memoryAfter (calls : List Call) : Memory := calls.foldl Call.after .empty

/-- The tables hold what the calls have put there. -/
structure Records (calls : List Call) (cache : Cache) : Prop where
  paths : ∀ key, cache.paths[key]? = firstSteps? calls key
  splits : cache.Cuts (asked calls)

theorem askedAfter_append (before calls more : List Call) :
    askedAfter before (calls ++ more) =
      askedAfter before calls ++ askedAfter (before ++ calls) more := by
  induction calls generalizing before with
  | nil => rw [List.append_nil]; rfl
  | cons call calls ih =>
    show call.asks before ++ askedAfter (before ++ [call]) (calls ++ more) = _
    rw [ih, ← List.append_assoc, List.append_assoc before]
    rfl

theorem asked_concat (calls : List Call) (call : Call) :
    asked (calls ++ [call]) = asked calls ++ call.asks calls := by
  unfold asked
  rw [askedAfter_append, List.nil_append]
  exact congrArg _ (List.append_nil _)

theorem firstSteps?_concat (calls : List Call) (call : Call) (key : String) :
    firstSteps? (calls ++ [call]) key = (firstSteps? calls key).or (call.stepsFor? key) := by
  unfold firstSteps?
  rw [List.findSome?_append]
  refine congrArg _ ?_
  simp

theorem isSome_firstSteps?_iff {calls : List Call} {key : String} :
    (firstSteps? calls key).isSome ↔ key ∈ readKeys calls := by
  have hcall (call : Call) :
      (call.stepsFor? key).isSome ↔ call.readKey? = some key := by
    cases call with
    | steps own read =>
      simp only [Call.stepsFor?, Call.readKey?]
      cases read.result.toOption with
      | none => simp
      | some steps => simp
    | pieces separator text => simp [Call.stepsFor?, Call.readKey?]
  unfold firstSteps? readKeys
  rw [List.findSome?_isSome_iff, List.mem_filterMap]
  simp only [hcall]

namespace Records

variable {before : List Call} {memory : Memory} {key : String}

/-- A call for a key that has been read leaves all as it is. -/
theorem kept (h : Records before memory.cache) {steps : List Step}
    (hfirst : firstSteps? before key = some steps) (read : Attempt (List Step)) :
    Call.after memory (.steps key read) = memory ∧
    Records (before ++ [.steps key read]) memory.cache := by
  refine ⟨congrArg Prod.snd (Session.run_stepsOf_kept ((h.paths key).trans hfirst) read),
    fun own => ?_, ?_⟩
  · rw [h.paths, firstSteps?_concat]
    by_cases hown : key = own
    · rw [← hown, hfirst, Option.some_or]
    · simp [Call.stepsFor?, hown]
  · have hasks : Call.asks before (.steps key read) = [] := by simp [Call.asks, hfirst]
    rw [asked_concat, hasks, List.append_nil]
    exact h.splits

/-- A call for another key leaves the steps of its reading, if there are any, and the pieces that
the reading has asked for. -/
theorem read (h : Records before memory.cache) (hfirst : firstSteps? before key = none)
    (read : Attempt (List Step)) :
    Records (before ++ [.steps key read]) (Call.after memory (.steps key read)).cache := by
  obtain ⟨-, hpaths, hcuts⟩ := Session.run_stepsOf_cuts ((h.paths key).trans hfirst) h.splits read
  refine ⟨fun own => ?_, ?_⟩
  · show ((Session.stepsOf key read).run.run memory).2.cache.paths[own]? = _
    rw [hpaths, firstSteps?_concat]
    cases hresult : read.result.toOption with
    | none => simp [Call.stepsFor?, hresult, h.paths]
    | some steps =>
      by_cases hown : key = own
      · simp [Call.stepsFor?, hresult, ← hown, hfirst]
      · simp [Call.stepsFor?, hown, h.paths, Std.HashMap.getElem?_insert]
  · have hasks : Call.asks before (.steps key read) = read.run.requests := by
      simp [Call.asks, hfirst]
    rw [asked_concat, hasks]
    exact hcuts

/-- A call for pieces leaves them and no steps. -/
theorem cut (h : Records before memory.cache) (separator text : String) :
    Records (before ++ [.pieces separator text])
      (Call.after memory (.pieces separator text)).cache := by
  obtain ⟨-, hcuts⟩ := h.splits.pieces separator text
  refine ⟨fun own => ?_, ?_⟩
  · show (memory.cache.pieces separator text).2.paths[own]? = _
    rw [paths_pieces, h.paths, firstSteps?_concat]
    exact Option.or_none.symm
  · rw [asked_concat]
    exact hcuts

/-- What one call leaves. -/
theorem after (h : Records before memory.cache) (call : Call) :
    Records (before ++ [call]) (call.after memory).cache := by
  cases call with
  | steps key read =>
    cases hfirst : firstSteps? before key with
    | some steps =>
      obtain ⟨hafter, hrecords⟩ := h.kept hfirst read
      rw [hafter]
      exact hrecords
    | none => exact h.read hfirst read
  | pieces separator text => exact h.cut separator text

theorem parsedPaths_eq {calls : List Call} {cache : Cache} (h : Records calls cache) :
    cache.parsedPaths = (readKeys calls).toFinset.card := by
  apply size_eq_card
  intro key
  rw [Std.HashMap.mem_iff_isSome_getElem?, h.paths, isSome_firstSteps?_iff]

theorem cachedSplits_eq {calls : List Call} {cache : Cache} (h : Records calls cache) :
    cache.cachedSplits = (asked calls).toFinset.card :=
  size_eq_card h.splits.mem_splits_iff

end Records

theorem memoryAfter_concat (calls : List Call) (call : Call) :
    memoryAfter (calls ++ [call]) = call.after (memoryAfter calls) := List.foldl_concat _ _ _ _

/-- What the tables hold after calls on a new cache. -/
theorem records_memoryAfter (calls : List Call) : Records calls (memoryAfter calls).cache := by
  induction calls using List.reverseRecOn with
  | nil => exact ⟨fun _ => Std.HashMap.getElem?_empty, fun _ => Std.HashMap.getElem?_empty⟩
  | append_singleton calls call ih =>
    rw [memoryAfter_concat]
    exact ih.after call

/-- After any calls on a cache, whatever their readings give, the answers and the counts are those
that the calls say. A key that some reading has succeeded for has the steps of the first such
reading: they are the answer, and the reading of the caller is not run. Otherwise the answer is
that of the reading. If it fails, the table of paths stays as it is, and the key can be read by the
next call. The pieces of a text are those between the occurrences of the separator. A path is
counted once for each key that has been read, and a cut once for each pair that has been asked
for. -/
theorem keeps_first_success (before : List Call) :
    (∀ key read,
      let called := (Session.stepsOf key read).run.run (memoryAfter before)
      (∀ steps, firstSteps? before key = some steps → called = (.ok steps, memoryAfter before)) ∧
      (firstSteps? before key = none → called.1 = read.result) ∧
      ∀ error, called.1 = .error error →
        called.2.cache.paths = (memoryAfter before).cache.paths ∧
        ∀ again steps, Attempt.result again = .ok steps →
          ((Session.stepsOf key again).run.run called.2).1 = .ok steps) ∧
    (∀ separator text,
      let parts := ((Session.onCache fun cache => cache.pieces separator text).run
        (memoryAfter before)).1
      parts = Text.split separator text ∧
      (separator ≠ "" → separator.intercalate parts = text ∧
        ∀ part ∈ parts, ¬ separator.toList <:+: part.toList)) ∧
    (memoryAfter before).cache.parsedPaths = (readKeys before).toFinset.card ∧
    (memoryAfter before).cache.cachedSplits = (asked before).toFinset.card := by
  have hrecords := records_memoryAfter before
  refine ⟨fun key read => ?_, fun separator text => ?_, hrecords.parsedPaths_eq,
    hrecords.cachedSplits_eq⟩
  · have hkept (steps : List Step) (hfirst : firstSteps? before key = some steps) :
        (Session.stepsOf key read).run.run (memoryAfter before) = (.ok steps, memoryAfter before) :=
      Session.run_stepsOf_kept ((hrecords.paths key).trans hfirst) read
    have hnew (hfirst : firstSteps? before key = none) :=
      Session.run_stepsOf_cuts ((hrecords.paths key).trans hfirst) hrecords.splits read
    refine ⟨hkept, fun hfirst => (hnew hfirst).1, fun error herror => ?_⟩
    cases hfirst : firstSteps? before key with
    | some steps =>
      rw [hkept steps hfirst] at herror
      cases herror
    | none =>
      obtain ⟨hanswer, hpaths, hcuts⟩ := hnew hfirst
      have hresult : read.result = .error error := hanswer.symm.trans herror
      rw [hresult] at hpaths
      refine ⟨hpaths, fun again steps hagain => ?_⟩
      have hkey := (congrArg (·[key]?) hpaths).trans ((hrecords.paths key).trans hfirst)
      exact (Session.run_stepsOf_cuts hkey hcuts again).1.trans hagain
  · obtain ⟨hparts, -⟩ := hrecords.splits.pieces separator text
    have hanswer : ((Session.onCache fun cache => cache.pieces separator text).run
        (memoryAfter before)).1 = Text.split separator text := hparts
    refine ⟨hanswer, fun hseparator => ?_⟩
    rw [hanswer]
    exact ⟨Text.intercalate_split hseparator text, fun part hpart =>
      Text.not_infix_of_mem_split hseparator hpart⟩

end Cache

end PathQuery
