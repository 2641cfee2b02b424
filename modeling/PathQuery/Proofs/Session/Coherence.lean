import Mathlib.Data.Finset.Card
import Mathlib.Data.Finset.Dedup
import PathQuery.Engine.Operation

/-!
# Sessions on a coherent cache

A cache is coherent when each entry is what would be computed in its place, and when it holds the
pieces that reading its paths has asked for. On such a cache a look-up cannot be told from a
computation, and that is all a session does with its cache.

`Session.Answers settings session a` states it once for a whole session: on every coherent cache
the answer is `a`, the cache stays coherent, and it grows by the same keys.

Results:
1. `answers_bind`, `answers_bindExcept`: answers compose, also past a failure.
2. `answers_inSession`: a routine on a cache has the value it has without one.
3. `answers_stepsOf`: so has the reading of a path, whether it succeeds or fails.
-/

namespace PathQuery

/-! ## Coherent caches -/

/-- Each entry is what would be computed in its place. The pieces that the reading of a kept path
asks for are kept as well, so reading it again would add nothing. -/
structure Cache.Coherent (settings : Settings) (cache : Cache) : Prop where
  steps {key : String} {kept : List Step} :
    cache.paths[key]? = some kept → (Path.read settings key).result = .ok kept
  parts {separator text : String} {kept : List String} :
    cache.splits[(separator, text)]? = some kept → kept = Text.split separator text
  asked {key : String} : key ∈ cache.paths →
    ∀ pair ∈ (Path.read settings key).run.requests, pair ∈ cache.splits

/-- The keys of a cache are those of an earlier one, and these. -/
structure Cache.Grown (earlier : Cache) (paths : List String) (splits : List (String × String))
    (later : Cache) : Prop where
  paths : ∀ key, key ∈ later.paths ↔ key ∈ earlier.paths ∨ key ∈ paths
  splits : ∀ pair, pair ∈ later.splits ↔ pair ∈ earlier.splits ∨ pair ∈ splits

namespace Cache

/-- A table has as many entries as it has keys. -/
theorem size_eq_card {α β : Type} [BEq α] [LawfulBEq α] [Hashable α] [DecidableEq α]
    {table : Std.HashMap α β} {keys : List α} (h : ∀ key, key ∈ table ↔ key ∈ keys) :
    table.size = keys.toFinset.card := by
  have hkeys : table.keys.toFinset = keys.toFinset := by
    ext key
    rw [List.mem_toFinset, List.mem_toFinset, Std.HashMap.mem_keys, h]
  rw [← hkeys, List.toFinset_card_of_nodup Std.HashMap.nodup_keys, Std.HashMap.length_keys]

theorem coherent_empty (settings : Settings) : empty.Coherent settings where
  steps h := by simp [empty] at h
  parts h := by simp [empty] at h
  asked h := by simp [empty] at h

/-- Nothing has to be added for keys that are there. -/
theorem Grown.of_mem {cache : Cache} {paths : List String} {splits : List (String × String)}
    (hpaths : ∀ key ∈ paths, key ∈ cache.paths) (hsplits : ∀ pair ∈ splits, pair ∈ cache.splits) :
    cache.Grown paths splits cache :=
  ⟨fun key => ⟨.inl, fun h => h.elim id (hpaths key)⟩,
    fun pair => ⟨.inl, fun h => h.elim id (hsplits pair)⟩⟩

theorem Grown.refl (cache : Cache) : cache.Grown [] [] cache :=
  .of_mem nofun nofun

theorem Grown.trans {first second third : Cache} {paths paths' : List String}
    {splits splits' : List (String × String)} (h : first.Grown paths splits second)
    (h' : second.Grown paths' splits' third) :
    first.Grown (paths ++ paths') (splits ++ splits') third := by
  constructor
  · intro key
    rw [h'.paths, h.paths, List.mem_append, or_assoc]
  · intro pair
    rw [h'.splits, h.splits, List.mem_append, or_assoc]

section Pieces

variable (cache : Cache) (separator text : String)

theorem paths_pieces : (cache.pieces separator text).2.paths = cache.paths := by
  unfold pieces
  split
  · rfl
  · rfl

theorem getElem?_pieces (pair : String × String) :
    (cache.pieces separator text).2.splits[pair]? =
      if (separator, text) = pair then some (cache.pieces separator text).1
      else cache.splits[pair]? := by
  unfold pieces
  split
  · next parts hparts =>
    split
    · next heq => rw [← heq, hparts]
    · rfl
  · rw [Std.HashMap.getElem?_insert]
    simp only [beq_iff_eq]

theorem mem_pieces_iff (pair : String × String) :
    pair ∈ (cache.pieces separator text).2.splits ↔
      pair ∈ cache.splits ∨ pair = (separator, text) := by
  rw [Std.HashMap.mem_iff_isSome_getElem?, Std.HashMap.mem_iff_isSome_getElem?, getElem?_pieces]
  split
  · next heq => simp [heq]
  · next hne => simp [Ne.symm hne]

/-- If the pieces that are kept are right, those that are given are. -/
theorem value_pieces_eq
    (h : ∀ kept, cache.splits[(separator, text)]? = some kept → kept = Text.split separator text) :
    (cache.pieces separator text).1 = Text.split separator text := by
  unfold pieces
  split
  · next parts hparts => exact h parts hparts
  · rfl

end Pieces

/-- A piece that is asked for is what a cut would give, and is kept from then on. -/
theorem Coherent.pieces {settings : Settings} {cache : Cache} (h : cache.Coherent settings)
    (separator text : String) :
    (cache.pieces separator text).1 = Text.split separator text ∧
    (cache.pieces separator text).2.Coherent settings ∧
    cache.Grown [] [(separator, text)] (cache.pieces separator text).2 := by
  have hvalue := cache.value_pieces_eq separator text fun _ => h.parts
  refine ⟨hvalue, ⟨fun hkept => ?_, fun hkept => ?_, fun hkey pair hpair => ?_⟩,
    ⟨fun key => ?_, fun pair => ?_⟩⟩
  · rw [paths_pieces] at hkept
    exact h.steps hkept
  · rw [getElem?_pieces] at hkept
    split at hkept
    · next heq =>
      obtain ⟨rfl, rfl⟩ := Prod.mk.inj heq
      exact (Option.some.inj hkept).symm.trans hvalue
    · exact h.parts hkept
  · rw [paths_pieces] at hkey
    exact (mem_pieces_iff _ _ _ pair).2 (.inl (h.asked hkey pair hpair))
  · rw [paths_pieces]
    simp
  · rw [mem_pieces_iff, List.mem_singleton]

/-- Keeping what the reading of a path gives, once the pieces it asks for are there. -/
theorem Coherent.keep {settings : Settings} {cache : Cache} (h : cache.Coherent settings)
    {key : String} {steps : List Step} (hsteps : (Path.read settings key).result = .ok steps)
    (hasked : ∀ pair ∈ (Path.read settings key).run.requests, pair ∈ cache.splits) :
    (cache.keep key steps).1 = steps ∧ (cache.keep key steps).2.Coherent settings ∧
    cache.Grown [key] [] (cache.keep key steps).2 := by
  unfold Cache.keep
  split
  · next kept hkept =>
    have hmem : key ∈ cache.paths := Std.HashMap.mem_iff_isSome_getElem?.2 (by rw [hkept]; rfl)
    have heq : kept = steps := Except.ok.inj ((h.steps hkept).symm.trans hsteps)
    refine ⟨heq, h, .of_mem ?_ nofun⟩
    intro key' hkey'
    rw [List.mem_singleton.1 hkey']
    exact hmem
  · refine ⟨rfl, ⟨?_, h.parts, ?_⟩, ?_, fun _ => by simp⟩
    · intro key' kept hkept
      rw [Std.HashMap.getElem?_insert] at hkept
      split at hkept
      · next heq =>
        rw [← eq_of_beq heq, ← Option.some.inj hkept]
        exact hsteps
      · exact h.steps hkept
    · intro key' hkey'
      rcases Std.HashMap.mem_insert.1 hkey' with heq | hkey'
      · rw [← eq_of_beq heq]
        exact hasked
      · exact h.asked hkey'
    · intro key'
      rw [Std.HashMap.mem_insert, List.mem_singleton, beq_iff_eq, or_comm, eq_comm]

end Cache

/-! ## Answers -/

namespace Session

variable {α β : Type} {settings : Settings}

/-- On every coherent cache the session answers `a` and leaves a coherent cache, which has grown by
these keys. -/
def Leaves (settings : Settings) (session : Session α) (a : α) (paths : List String)
    (splits : List (String × String)) : Prop :=
  ∀ memory : Memory, memory.cache.Coherent settings →
    (session.run memory).1 = a ∧ (session.run memory).2.cache.Coherent settings ∧
    memory.cache.Grown paths splits (session.run memory).2.cache

/-- The answer of the session is `a`, and the keys it leaves are the same on every coherent
cache. -/
def Answers (settings : Settings) (session : Session α) (a : α) : Prop :=
  ∃ paths splits, Leaves settings session a paths splits

theorem leaves_pure (a : α) : Leaves settings (pure a : Session α) a [] [] :=
  fun memory h => ⟨rfl, h, .refl memory.cache⟩

theorem leaves_bind {session : Session α} {next : α → Session β} {a : α} {b : β}
    {paths paths' : List String} {splits splits' : List (String × String)}
    (h : Leaves settings session a paths splits)
    (hnext : Leaves settings (next a) b paths' splits') :
    Leaves settings (session >>= next) b (paths ++ paths') (splits ++ splits') := by
  intro memory hmemory
  obtain ⟨hvalue, hcoherent, hgrown⟩ := h memory hmemory
  obtain ⟨hvalue', hcoherent', hgrown'⟩ := hnext _ hcoherent
  have hrun : (session >>= next).run memory =
      (next (session.run memory).1).run (session.run memory).2 := rfl
  rw [hrun, hvalue]
  exact ⟨hvalue', hcoherent', hgrown.trans hgrown'⟩

theorem leaves_map {query : ExceptT QueryError Session α} {a : Except QueryError α}
    {paths : List String} {splits : List (String × String)} (f : α → β)
    (h : Leaves settings query.run a paths splits) :
    Leaves settings (f <$> query).run (f <$> a) paths splits := by
  rw [← bind_pure_comp, ← List.append_nil paths, ← List.append_nil splits]
  show Leaves settings (query.run >>= ExceptT.bindCont (pure ∘ f)) _ _ _
  refine leaves_bind h ?_
  cases a with
  | error error => exact leaves_pure _
  | ok a => exact leaves_pure _

/-- The log is no part of the cache. -/
theorem leaves_tell (notice : Notice) : Leaves settings (tell notice) () [] [] :=
  fun memory h => ⟨rfl, h, .refl memory.cache⟩

/-- A routine has the value it has without a cache, and leaves the pieces it asks for. -/
theorem leaves_inSession (routine : Routine α) :
    Leaves settings routine.inSession routine.value [] routine.requests := by
  induction routine with
  | done a => exact leaves_pure a
  | split separator text next ih =>
    have hpieces : Leaves settings (onCache fun cache => cache.pieces separator text)
        (Text.split separator text) [] [(separator, text)] :=
      fun memory h => h.pieces separator text
    exact leaves_bind hpieces (ih _)
  | note notice next ih => exact leaves_bind (leaves_tell notice) ih

theorem run_bindExcept (query : ExceptT QueryError Session α)
    (next : α → ExceptT QueryError Session β) (memory : Memory) :
    (query >>= next).run.run memory =
      match query.run.run memory with
      | (.ok a, later) => (next a).run.run later
      | (.error error, later) => (.error error, later) := by
  show StateT.run (ExceptT.bindCont next (query.run.run memory).1) (query.run.run memory).2 = _
  rcases query.run.run memory with ⟨error | a, later⟩
  · rfl
  · rfl

theorem run_get (memory : Memory) :
    (get : ExceptT QueryError Session Memory).run.run memory = (.ok memory, memory) := rfl

/-- Steps that are kept are the answer, whatever `read` would give. It is not run: nothing is asked
for, noted or changed. -/
theorem run_stepsOf_kept {key : String} {steps : List Step} {memory : Memory}
    (h : memory.cache.paths[key]? = some steps) (read : Attempt (List Step)) :
    (stepsOf key read).run.run memory = (.ok steps, memory) := by
  unfold stepsOf
  rw [run_bindExcept, run_get]
  simp only [h]
  rfl

/-- Keeps the steps that a reading has given, if there are any. -/
def keepOutcome (key : String) :
    Except QueryError (List Step) × Memory → Except QueryError (List Step) × Memory
  | (.error error, later) => (.error error, later)
  | (.ok steps, later) =>
    (.ok (later.cache.keep key steps).1, { later with cache := (later.cache.keep key steps).2 })

/-- Steps that are not kept are read. -/
theorem run_stepsOf_new {key : String} {memory : Memory}
    (h : memory.cache.paths[key]? = none) (read : Attempt (List Step)) :
    (stepsOf key read).run.run memory =
      keepOutcome key
        (read.run.inSession.run { memory with log := memory.log.push (.parsing key) }) := by
  have hrun : (stepsOf key read).run.run memory =
      (read.inSession >>= fun steps =>
        (onCache fun cache => cache.keep key steps : Session _) :
        ExceptT QueryError Session (List Step)).run.run
          { memory with log := memory.log.push (.parsing key) } := by
    unfold stepsOf
    rw [run_bindExcept, run_get]
    simp only [h]
    rfl
  rw [hrun, run_bindExcept]
  show _ = keepOutcome key (read.inSession.run.run _)
  rcases read.inSession.run.run { memory with log := memory.log.push (.parsing key) } with
    ⟨error | steps, later⟩
  · rfl
  · rfl

/-- The steps of a path are those that reading it gives, whether they are kept or not. -/
theorem leaves_stepsOf (path : String) :
    Leaves settings (stepsOf path (Path.read settings path)).run (Path.read settings path).result
      ((Path.read settings path).result.toOption.elim [] fun _ => [path])
      (Path.read settings path).run.requests := by
  generalize hpath : Path.read settings path = read
  intro memory hmemory
  cases hkept : memory.cache.paths[path]? with
  | some kept =>
    have hresult : read.result = .ok kept := hpath ▸ hmemory.steps hkept
    have hmem : path ∈ memory.cache.paths :=
      Std.HashMap.mem_iff_isSome_getElem?.2 (by rw [hkept]; rfl)
    rw [run_stepsOf_kept hkept, hresult]
    refine ⟨rfl, hmemory, .of_mem ?_ (hpath ▸ hmemory.asked hmem)⟩
    intro key hkey
    rw [List.mem_singleton.1 hkey]
    exact hmem
  | none =>
    let told : Memory := { memory with log := memory.log.push (.parsing path) }
    obtain ⟨hvalue, hcoherent, hgrown⟩ := leaves_inSession read.run told hmemory
    have hread : read.run.inSession.run told = (read.result, (read.run.inSession.run told).2) :=
      Prod.ext hvalue rfl
    generalize (read.run.inSession.run told).2 = later at hread hcoherent hgrown
    rw [run_stepsOf_new hkept, hread]
    -- A success is kept, a failure is not.
    cases hresult : read.result with
    | error error => exact ⟨rfl, hcoherent, hgrown⟩
    | ok steps =>
      have hasked : ∀ pair ∈ read.run.requests, pair ∈ later.cache.splits := fun pair hpair =>
        (hgrown.splits pair).2 (.inr hpair)
      obtain ⟨hown, hcoherent', hgrown'⟩ := hcoherent.keep (hpath ▸ hresult) (hpath ▸ hasked)
      refine ⟨congrArg Except.ok hown, hcoherent', ?_⟩
      have := hgrown.trans hgrown'
      rw [List.append_nil] at this
      exact this

/-! ## Answers without their keys -/

theorem Leaves.answers {session : Session α} {a : α} {paths : List String}
    {splits : List (String × String)} (h : Leaves settings session a paths splits) :
    Answers settings session a :=
  ⟨paths, splits, h⟩

theorem answers_pure (a : α) : Answers settings (pure a : Session α) a := (leaves_pure a).answers

theorem answers_tell (notice : Notice) : Answers settings (tell notice) () :=
  (leaves_tell notice).answers

theorem answers_inSession (routine : Routine α) :
    Answers settings routine.inSession routine.value :=
  (leaves_inSession routine).answers

theorem answers_stepsOf (path : String) :
    Answers settings (stepsOf path (Path.read settings path)).run
      (Path.read settings path).result :=
  (leaves_stepsOf path).answers

theorem answers_bind {session : Session α} {next : α → Session β} {a : α} {b : β}
    (h : Answers settings session a) (hnext : Answers settings (next a) b) :
    Answers settings (session >>= next) b := by
  obtain ⟨paths, splits, h⟩ := h
  obtain ⟨paths', splits', hnext⟩ := hnext
  exact (leaves_bind h hnext).answers

theorem answers_lift {session : Session α} {a : α} (h : Answers settings session a) :
    Answers settings (ExceptT.lift session : ExceptT QueryError Session α).run (.ok a) := by
  show Answers settings (Except.ok <$> session) (.ok a)
  rw [← bind_pure_comp]
  exact answers_bind h (answers_pure _)

theorem answers_bindExcept {query : ExceptT QueryError Session α}
    {next : α → ExceptT QueryError Session β} {a : Except QueryError α}
    {b : α → Except QueryError β} (h : Answers settings query.run a)
    (hnext : ∀ x, a = .ok x → Answers settings (next x).run (b x)) :
    Answers settings (query >>= next).run (a >>= b) := by
  show Answers settings (query.run >>= ExceptT.bindCont next) (a >>= b)
  cases a with
  | error error => exact answers_bind h (answers_pure (Except.error error))
  | ok x => exact answers_bind h (hnext x rfl)

end Session

end PathQuery
