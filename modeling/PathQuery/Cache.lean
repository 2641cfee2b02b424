import PathQuery.Path.Step
import PathQuery.Routine
import Std.Data.HashMap

/-!
# The cache of an engine

A `Cache` remembers the steps of the paths that have been read, and the pieces of the texts that
have been cut. Nothing is ever forgotten.

* `Cache.pieces` cuts a text once for each separator.
* `Cache.stepsOf` reads a path once: the first success for a key is kept, and a failure is not.

A `Session` is a computation on a cache that also writes a log. `Routine.inSession` runs a
routine in a session, so that its requests are answered from the cache.
-/

namespace PathQuery

/-- The steps of paths, and the pieces of texts by separator and text. -/
structure Cache where
  paths : Std.HashMap String (List Step)
  splits : Std.HashMap (String × String) (List String)

namespace Cache

def empty : Cache := ⟨∅, ∅⟩

def parsedPaths (cache : Cache) : Nat := cache.paths.size

def cachedSplits (cache : Cache) : Nat := cache.splits.size

/-- The pieces of a text, cut now or before. -/
def pieces (cache : Cache) (separator text : String) : List String × Cache :=
  match cache.splits[(separator, text)]? with
  | some parts => (parts, cache)
  | none =>
    let parts := Text.split separator text
    (parts, { cache with splits := cache.splits.insert (separator, text) parts })

/-- Keeps the steps of a key, unless there are some already. -/
def keep (cache : Cache) (key : String) (steps : List Step) : List Step × Cache :=
  match cache.paths[key]? with
  | some kept => (kept, cache)
  | none => (steps, { cache with paths := cache.paths.insert key steps })

end Cache

/-! ## Sessions -/

structure Memory where
  cache : Cache
  log : Array Notice

namespace Memory

def empty : Memory := ⟨.empty, #[]⟩

end Memory

/-- A computation on a cache that writes a log. -/
abbrev Session := StateM Memory

namespace Session

def tell (notice : Notice) : Session Unit :=
  modify fun memory => { memory with log := memory.log.push notice }

def onCache (change : Cache → α × Cache) : Session α :=
  modifyGet fun memory =>
    let (value, cache) := change memory.cache
    (value, { memory with cache := cache })

end Session

/-- Runs a routine, with its requests answered from the cache. -/
def Routine.inSession : Routine α → Session α
  | .done value => return value
  | .split separator text next => do
    (next (← Session.onCache fun cache => cache.pieces separator text)).inSession
  | .note notice next => do
    Session.tell notice
    next.inSession

def Attempt.inSession (attempt : Attempt α) : ExceptT QueryError Session α :=
  ExceptT.mk (Routine.inSession (ExceptT.run attempt))

namespace Session

/-- Reads the steps of a key and keeps them. A failure leaves the key to be read again. -/
def readSteps (key : String) (read : Attempt (List Step)) :
    ExceptT QueryError Session (List Step) := do
  tell (.parsing key)
  let steps ← read.inSession
  -- Only a success comes to this line.
  (onCache fun cache => cache.keep key steps : Session _)

def stepsOf (key : String) (read : Attempt (List Step)) :
    ExceptT QueryError Session (List Step) := do
  match (← get).cache.paths[key]? with
  | some steps => return steps
  | none => readSteps key read

end Session

end PathQuery
