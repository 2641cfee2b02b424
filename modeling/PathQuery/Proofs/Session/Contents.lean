import Mathlib.Data.List.Perm.Subperm
import PathQuery.Proofs.Session.Transparency

/-!
# What operations leave in the cache

An operation adds to a coherent cache exactly the keys that it leaves in an empty one. What is
there already is looked up instead of being added, but it is there with everything that computing
it would add. So a cache is filled by which operations have been run, whatever their order was and
however often each of them was run.

Results:
1. `gathers_perform`: one operation adds what it adds to an empty cache.
2. `gathers_performAll`: so does a sequence of operations.
3. `Within.parsedPaths_le`, `Within.cachedSplits_le`: more keys are counted as more.
4. `contents_memoryAfter`: the contents and the counts after a sequence of operations on a new
   engine.
-/

namespace PathQuery

/-! ## Keys of caches -/

namespace Cache

/-- The keys of a cache are those of all these caches. -/
structure Gathers (parts : List Cache) (whole : Cache) : Prop where
  paths : ∀ key, key ∈ whole.paths ↔ ∃ part ∈ parts, key ∈ part.paths
  splits : ∀ pair, pair ∈ whole.splits ↔ ∃ part ∈ parts, pair ∈ part.splits

structure Within (first second : Cache) : Prop where
  paths : ∀ key ∈ first.paths, key ∈ second.paths
  splits : ∀ pair ∈ first.splits, pair ∈ second.splits

variable {first second whole : Cache} {parts : List Cache}

/-- A path that is kept can be read. -/
theorem Coherent.exists_steps {settings : Settings} (h : whole.Coherent settings) {key : String}
    (hkey : key ∈ whole.paths) : ∃ steps, (Path.read settings key).result = .ok steps := by
  obtain ⟨steps, hkept⟩ := Option.isSome_iff_exists.1 (Std.HashMap.mem_iff_isSome_getElem?.1 hkey)
  exact ⟨steps, h.steps hkept⟩

/-- A cache that is gathered first may be left to its own parts. -/
theorem Gathers.trans {more : List Cache} (h : Gathers parts first)
    (hmore : Gathers (first :: more) whole) : Gathers (parts ++ more) whole := by
  constructor
  · intro key
    simp only [hmore.paths, List.exists_mem_cons_iff, h.paths, List.mem_append, or_and_right,
      exists_or]
  · intro pair
    simp only [hmore.splits, List.exists_mem_cons_iff, h.splits, List.mem_append, or_and_right,
      exists_or]

theorem gathers_singleton (cache : Cache) : Gathers [cache] cache where
  paths key := by simp
  splits pair := by simp

/-- Nothing is gathered from an empty cache. -/
theorem Gathers.of_empty (h : Gathers (empty :: parts) whole) : Gathers parts whole where
  paths key := by simp [h.paths, empty]
  splits pair := by simp [h.splits, empty]

/-- More parts make a cache with more keys. -/
theorem Gathers.within {parts' : List Cache} (h : Gathers parts first) (h' : Gathers parts' second)
    (hparts : parts ⊆ parts') : Within first second where
  paths key hkey := by
    obtain ⟨part, hpart, hmem⟩ := (h.paths key).1 hkey
    exact (h'.paths key).2 ⟨part, hparts hpart, hmem⟩
  splits pair hpair := by
    obtain ⟨part, hpart, hmem⟩ := (h.splits pair).1 hpair
    exact (h'.splits pair).2 ⟨part, hparts hpart, hmem⟩

theorem size_le_of_mem {α β : Type} [BEq α] [LawfulBEq α] [Hashable α]
    {first second : Std.HashMap α β} (h : ∀ key ∈ first, key ∈ second) :
    first.size ≤ second.size := by
  have hkeys : first.keys ⊆ second.keys := fun key hkey =>
    Std.HashMap.mem_keys.2 (h key (Std.HashMap.mem_keys.1 hkey))
  rw [← Std.HashMap.length_keys, ← Std.HashMap.length_keys]
  exact (List.subperm_of_subset Std.HashMap.nodup_keys hkeys).length_le

theorem Within.parsedPaths_le (h : Within first second) :
    first.parsedPaths ≤ second.parsedPaths := size_le_of_mem h.paths

theorem Within.cachedSplits_le (h : Within first second) :
    first.cachedSplits ≤ second.cachedSplits := size_le_of_mem h.splits

end Cache

/-! ## Operations -/

namespace Operation

open Session

variable {settings : Settings}

theorem memoryAfter_singleton (operation : Operation) :
    memoryAfter settings [operation] = ((operation.perform settings).run.run .empty).2 := rfl

/-- Starting from nothing, the keys that an operation adds are all there are. -/
theorem mem_memoryAfter_iff {operation : Operation} {answer : Except QueryError Answer}
    {paths : List String} {splits : List (String × String)}
    (h : Leaves settings (operation.perform settings).run answer paths splits) :
    (∀ key, key ∈ (memoryAfter settings [operation]).cache.paths ↔ key ∈ paths) ∧
    ∀ pair, pair ∈ (memoryAfter settings [operation]).cache.splits ↔ pair ∈ splits := by
  obtain ⟨-, -, halone⟩ := h .empty (Cache.coherent_empty settings)
  constructor
  · intro key
    rw [memoryAfter_singleton, halone.paths]
    simp [Memory.empty, Cache.empty]
  · intro pair
    rw [memoryAfter_singleton, halone.splits]
    simp [Memory.empty, Cache.empty]

/-- An operation adds what it leaves in an empty cache. -/
theorem gathers_perform (operation : Operation) {memory : Memory}
    (hmemory : memory.cache.Coherent settings) :
    Cache.Gathers [memory.cache, (memoryAfter settings [operation]).cache]
      ((operation.perform settings).run.run memory).2.cache := by
  obtain ⟨_, paths, splits, hleaves⟩ := determined_perform settings operation
  obtain ⟨-, -, hgrown⟩ := hleaves memory hmemory
  obtain ⟨hpaths, hsplits⟩ := mem_memoryAfter_iff hleaves
  constructor
  · intro key
    simp [hgrown.paths, hpaths]
  · intro pair
    simp [hgrown.splits, hsplits]

/-- A sequence of operations adds what each of them leaves in an empty cache. -/
theorem gathers_performAll (operations : List Operation) {memory : Memory}
    (hmemory : memory.cache.Coherent settings) :
    Cache.Gathers
      (memory.cache :: operations.map fun operation => (memoryAfter settings [operation]).cache)
      ((performAll settings operations).run memory).2.cache := by
  induction operations generalizing memory with
  | nil => exact Cache.gathers_singleton memory.cache
  | cons operation rest ih =>
    have hfirst := gathers_perform operation hmemory
    have hrest := ih (run_perform operation hmemory).2
    unfold performAll at *
    rw [List.mapM_cons]
    exact hfirst.trans hrest

theorem gathers_memoryAfter (settings : Settings) (operations : List Operation) :
    Cache.Gathers
      (operations.map fun operation => (memoryAfter settings [operation]).cache)
      (memoryAfter settings operations).cache := by
  have hempty : Memory.empty.cache.Coherent settings := Cache.coherent_empty settings
  exact (gathers_performAll operations hempty).of_empty

/-- Operations that are all among others leave no more than these. -/
theorem within_memoryAfter (settings : Settings) {operations others : List Operation}
    (h : operations ⊆ others) :
    Cache.Within (memoryAfter settings operations).cache (memoryAfter settings others).cache :=
  (gathers_memoryAfter settings operations).within (gathers_memoryAfter settings others)
    (List.map_subset _ h)

def Report.AtMost (first second : Report) : Prop :=
  first.parsedPaths ≤ second.parsedPaths ∧ first.cachedSplits ≤ second.cachedSplits

/-- Each operation reports sizes that are at least those before it. -/
theorem pairwise_performAll (operations : List Operation) {memory : Memory}
    (hmemory : memory.cache.Coherent settings) :
    (∀ report ∈ ((performAll settings operations).run memory).1,
      memory.cache.parsedPaths ≤ report.parsedPaths ∧
        memory.cache.cachedSplits ≤ report.cachedSplits) ∧
    ((performAll settings operations).run memory).1.Pairwise Report.AtMost := by
  induction operations generalizing memory with
  | nil => exact ⟨nofun, .nil⟩
  | cons operation rest ih =>
    have hwithin := (Cache.gathers_singleton memory.cache).within
      (gathers_perform operation hmemory) (by simp)
    obtain ⟨hlater, hpairwise⟩ := ih (run_perform operation hmemory).2
    unfold performAll at *
    rw [List.mapM_cons]
    refine ⟨?_, List.pairwise_cons.2 ⟨hlater, hpairwise⟩⟩
    refine List.forall_mem_cons.2 ⟨⟨hwithin.parsedPaths_le, hwithin.cachedSplits_le⟩, ?_⟩
    intro report hreport
    obtain ⟨hpaths, hsplits⟩ := hlater report hreport
    exact ⟨Nat.le_trans hwithin.parsedPaths_le hpaths,
      Nat.le_trans hwithin.cachedSplits_le hsplits⟩

/-- After any operations on one engine, the cache holds the keys that each of them leaves in a new
engine, and no others. So the counts in the end are the same for all sequences of the same
operations, in whatever order and however often; along a sequence they never decrease. A path that
cannot be parsed is never counted. -/
theorem contents_memoryAfter (settings : Settings) (operations : List Operation) :
    (memoryAfter settings operations).cache.Gathers
      (operations.map fun operation => (memoryAfter settings [operation]).cache) ∧
    (∀ others : List Operation, (∀ operation, operation ∈ others ↔ operation ∈ operations) →
      (memoryAfter settings others).cache.parsedPaths =
        (memoryAfter settings operations).cache.parsedPaths ∧
      (memoryAfter settings others).cache.cachedSplits =
        (memoryAfter settings operations).cache.cachedSplits) ∧
    ((performAll settings operations).run .empty).1.Pairwise Report.AtMost ∧
    ∀ (path : String) (before : List Operation) (error : QueryError),
      ((Engine.parse settings path).run.run (memoryAfter settings before)).1 = .error error →
        path ∉ (memoryAfter settings operations).cache.paths := by
  refine ⟨gathers_memoryAfter settings operations, ?_, ?_, ?_⟩
  · intro others hothers
    have hfront := within_memoryAfter settings fun operation => (hothers operation).1
    have hback := within_memoryAfter settings fun operation => (hothers operation).2
    exact ⟨Nat.le_antisymm hfront.parsedPaths_le hback.parsedPaths_le,
      Nat.le_antisymm hfront.cachedSplits_le hback.cachedSplits_le⟩
  · exact (pairwise_performAll operations (Cache.coherent_empty settings)).2
  · intro path before error hparse hkept
    rw [run_parse_memoryAfter] at hparse
    have hempty : Memory.empty.cache.Coherent settings := Cache.coherent_empty settings
    obtain ⟨-, hcoherent⟩ := run_performAll operations hempty
    obtain ⟨steps, hsteps⟩ := hcoherent.exists_steps hkept
    rw [hparse] at hsteps
    cases hsteps

/-- A search, and a path that fails after it has cut the text of the same filter: twice around the
search, or once after it. The one path is counted, and the three texts that were cut. -/
theorem contents_memoryAfter_of_repeated :
    let settings : Settings := ⟨.default, .builtins⟩
    let search : Operation := .find (.array [.object [("b", .bool true)]]) "$[?(@.b=true)]"
    let failing : Operation := .parse "$[?(@.b=true)].none()"
    (memoryAfter settings [search, failing]).cache.parsedPaths = 1 ∧
    (memoryAfter settings [search, failing]).cache.cachedSplits = 3 ∧
    (memoryAfter settings [failing, search, failing]).cache.parsedPaths = 1 ∧
    (memoryAfter settings [failing, search, failing]).cache.cachedSplits = 3 ∧
    "$[?(@.b=true)].none()" ∉ (memoryAfter settings [search, failing]).cache.paths := by
  intro settings search failing
  obtain ⟨hgathers, hsame, -, hfailing⟩ := contents_memoryAfter settings [search, failing]
  have hmem (operation : Operation) :
      operation ∈ [failing, search, failing] ↔ operation ∈ [search, failing] := by
    simp only [List.mem_cons, List.not_mem_nil, or_false]
    tauto
  obtain ⟨hpaths, hsplits⟩ := hsame [failing, search, failing] hmem
  have hread : (Path.read ⟨.default, .builtins⟩ "$[?(@.b=true)]").result =
      .ok [.select (.filter [⟨"b", .oneOf "true" ["true"]⟩])] := by
    decide +kernel
  have hnone : (Path.read ⟨.default, .builtins⟩ "$[?(@.b=true)].none()").result =
      .error (.unknownFunction "none") := by
    decide +kernel
  -- What each of the two leaves in a new engine. The walk cuts a path that has been cut before.
  let cuts : List (String × String) := [("@.", "@.b=true"), (".", "b"), ("||", "true")]
  have hcuts : ((Path.read ⟨.default, .builtins⟩ "$[?(@.b=true)]").run.requests ++
      ((Walk.along .builtins [.select (.filter [⟨"b", .oneOf "true" ["true"]⟩])] Walk.root
        (.array [.object [("b", .bool true)]])).run .empty).requests) = cuts ++ [(".", "b")] := by
    decide +kernel
  have hcuts' : (Path.read ⟨.default, .builtins⟩ "$[?(@.b=true)].none()").run.requests = cuts := by
    decide +kernel
  have hsearch : Leaves settings (search.perform settings).run _ ["$[?(@.b=true)]"]
      (cuts ++ [(".", "b")]) :=
    hcuts ▸ leaves_map Answer.found (Engine.leaves_find settings hread rfl)
  have hfail : Leaves settings (failing.perform settings).run (.error (.unknownFunction "none")) []
      cuts := by
    have hleaves : Leaves settings (stepsOf "$[?(@.b=true)].none()" _).run _ _ _ :=
      leaves_stepsOf "$[?(@.b=true)].none()"
    rw [hnone, hcuts'] at hleaves
    exact leaves_map Answer.steps hleaves
  obtain ⟨hfound, hfound'⟩ := mem_memoryAfter_iff hsearch
  obtain ⟨hfailed, hfailed'⟩ := mem_memoryAfter_iff hfail
  have hpath : (memoryAfter settings [search, failing]).cache.parsedPaths = 1 := by
    have hkey (key : String) : key ∈ (memoryAfter settings [search, failing]).cache.paths ↔
        key ∈ ["$[?(@.b=true)]"] := by
      simp [hgathers.paths, hfound, hfailed]
    exact Cache.size_eq_card hkey
  have hsplit : (memoryAfter settings [search, failing]).cache.cachedSplits = 3 := by
    have hpair (pair : String × String) :
        pair ∈ (memoryAfter settings [search, failing]).cache.splits ↔
          pair ∈ cuts ++ [(".", "b")] ++ cuts := by
      simp only [hgathers.splits, List.map_cons, List.map_nil, List.exists_mem_cons_iff,
        List.mem_singleton, exists_eq_left, hfound', hfailed', List.mem_append]
    exact (Cache.size_eq_card hpair).trans (by decide +kernel)
  have hparse : ((Engine.parse settings "$[?(@.b=true)].none()").run.run
      (memoryAfter settings [])).1 = .error (.unknownFunction "none") :=
    (run_parse_memoryAfter settings [] _).trans hnone
  exact ⟨hpath, hsplit, hpaths.trans hpath, hsplits.trans hsplit, hfailing _ [] _ hparse⟩

end Operation

end PathQuery
