import PathQuery.Proofs.Session.Engine

/-!
# The cache cannot be told from its answers

A question is determined when it has one answer on all coherent caches. What an engine computes
from determined questions is determined again, so each operation is. Along a sequence of
operations the cache stays coherent, and each answer is that of an engine that has done nothing
before.

Results:
1. `determined_bind`, `determined_mapM`: determined questions compose, also past a failure.
2. `determined_perform`: every operation is determined.
3. `answer_performAll`: a sequence of operations gives the answers of fresh engines.
4. `run_find_memoryAfter`: the matches of a path after any sequence of operations.
-/

namespace PathQuery

namespace Engine

open Session

variable {settings : Settings}

/-- A question has one answer, be it a failure, on all coherent caches. -/
def Determined (settings : Settings) (query : Query α) : Prop :=
  ∃ a, Answers settings query.run a

theorem determined_pure (a : α) : Determined settings (pure a : Query α) :=
  ⟨.ok a, answers_pure _⟩

/-- A question whose answer needs no cache. -/
theorem determined_known (outcome : Except QueryError α) :
    Determined settings (ExceptT.mk (return outcome) : Query α) :=
  ⟨outcome, answers_pure _⟩

theorem determined_lift {session : Session α} {a : α} (h : Answers settings session a) :
    Determined settings (ExceptT.lift session : Query α) :=
  ⟨.ok a, answers_lift h⟩

theorem determined_bind {query : Query α} {next : α → Query β} (h : Determined settings query)
    (hnext : ∀ a, Determined settings (next a)) : Determined settings (query >>= next) := by
  obtain ⟨a, ha⟩ := h
  exact ⟨_, answers_bindExcept ha fun x _ => (hnext x).choose_spec⟩

theorem determined_map {query : Query α} (f : α → β) (h : Determined settings query) :
    Determined settings (f <$> query) := by
  rw [← bind_pure_comp]
  exact determined_bind h fun a => determined_pure (f a)

theorem determined_outcome {query : Query α} (h : Determined settings query) :
    Determined settings (outcome query) :=
  determined_lift h.choose_spec

theorem determined_mapM {as : List α} {query : α → Query β}
    (h : ∀ a, Determined settings (query a)) : Determined settings (as.mapM query) := by
  induction as with
  | nil => exact determined_pure []
  | cons a as ih =>
    rw [List.mapM_cons]
    refine determined_bind (h a) ?_
    intro b
    exact determined_bind ih fun bs => determined_pure (b :: bs)

/-! ## The questions of an engine -/

theorem determined_find (document : Json) (path : String) :
    Determined settings (find settings document path) :=
  ⟨_, answers_find settings document path⟩

theorem determined_requery (document : Json) (path : String) :
    Determined settings (requery settings document path) := by
  refine determined_bind (determined_find document path) ?_
  intro found
  apply determined_mapM
  intro m
  have hagain : Determined settings (outcome (find settings document m.path)) :=
    determined_outcome (determined_find document m.path)
  exact determined_bind hagain fun again => determined_pure (m, again)

theorem determined_valueIn (expression : String) (node : Json) :
    Determined settings (valueIn settings expression node) :=
  ⟨_, answers_valueIn settings expression node⟩

theorem determined_readAttribute (document : Json) (path name : String) :
    Determined settings (readAttribute settings document path name) :=
  ⟨_, answers_readAttribute settings document path name⟩

end Engine

namespace Operation

open Session

variable {settings : Settings}

/-- Every operation has one answer on all coherent caches. -/
theorem determined_perform (settings : Settings) (operation : Operation) :
    Engine.Determined settings (operation.perform settings) := by
  cases operation with
  | parse path => exact Engine.determined_map _ ⟨_, Engine.answers_parse settings path⟩
  | find document path => exact Engine.determined_map _ (Engine.determined_find document path)
  | findDistinct document path =>
    refine Engine.determined_map _ ?_
    exact Engine.determined_bind (Engine.determined_find document path) fun found =>
      Engine.determined_pure _
  | findUnder bindings document path =>
    have hfound := Engine.answers_findUnder settings bindings document path
    exact Engine.determined_bind (Engine.determined_lift hfound) fun _ => Engine.determined_pure _
  | requery document path =>
    exact Engine.determined_map _ (Engine.determined_requery document path)
  | valueIn document expression =>
    exact Engine.determined_map _ (Engine.determined_valueIn expression document)
  | evaluate document name => exact Engine.determined_map _ (Engine.determined_known _)
  | readAttribute document path name =>
    exact Engine.determined_map _ (Engine.determined_readAttribute document path name)
  | extract document path reduction =>
    refine Engine.determined_map _ ?_
    exact Engine.determined_bind (Engine.determined_find document path) fun found =>
      Engine.determined_known _

/-- The answer of an operation is that of an engine that has done nothing before, on every
coherent cache, and it leaves a coherent cache even when it fails. -/
theorem run_perform (operation : Operation) {memory : Memory}
    (hmemory : memory.cache.Coherent settings) :
    ((operation.perform settings).run.run memory).1 =
      ((operation.perform settings).run.run .empty).1 ∧
    ((operation.perform settings).run.run memory).2.cache.Coherent settings := by
  obtain ⟨a, _, _, ha⟩ := determined_perform settings operation
  obtain ⟨hvalue, hcoherent, -⟩ := ha memory hmemory
  obtain ⟨hfresh, -, -⟩ := ha .empty (Cache.coherent_empty settings)
  exact ⟨hvalue.trans hfresh.symm, hcoherent⟩

/-- A sequence of operations on a coherent cache. -/
theorem run_performAll (operations : List Operation) {memory : Memory}
    (hmemory : memory.cache.Coherent settings) :
    ((performAll settings operations).run memory).1.map Report.answer =
      operations.map (fun operation => ((operation.perform settings).run.run .empty).1) ∧
    ((performAll settings operations).run memory).2.cache.Coherent settings := by
  induction operations generalizing memory with
  | nil => exact ⟨rfl, hmemory⟩
  | cons operation rest ih =>
    obtain ⟨hanswer, hcoherent⟩ := run_perform operation hmemory
    obtain ⟨hanswers, hcoherent'⟩ := ih hcoherent
    unfold performAll at *
    rw [List.mapM_cons]
    exact ⟨congrArg₂ List.cons hanswer hanswers, hcoherent'⟩

/-- What an engine remembers after a sequence of operations. -/
def memoryAfter (settings : Settings) (operations : List Operation) : Memory :=
  ((performAll settings operations).run .empty).2

/-- Each answer of a sequence of operations on one engine is the answer of a fresh engine to that
operation alone, and what the engine remembers in the end is what it would compute again. -/
theorem answer_performAll (settings : Settings) (operations : List Operation) :
    ((performAll settings operations).run .empty).1.map Report.answer =
      operations.map (fun operation => ((operation.perform settings).run.run .empty).1) ∧
    (memoryAfter settings operations).cache.Coherent settings :=
  run_performAll operations (Cache.coherent_empty settings)

/-- Whatever an engine has been asked before, its answers are those on any coherent cache. -/
theorem run_memoryAfter {α : Type} {session : Session α} {a : α} (h : Answers settings session a)
    (before : List Operation) : (session.run (memoryAfter settings before)).1 = a := by
  have hempty : Memory.empty.cache.Coherent settings := Cache.coherent_empty settings
  obtain ⟨-, hcoherent⟩ := run_performAll before hempty
  obtain ⟨_, _, hleaves⟩ := h
  exact (hleaves _ hcoherent).1

/-- A search finds the matches of the path. -/
theorem run_find_memoryAfter (settings : Settings) (before : List Operation) (document : Json)
    (path : String) :
    ((Engine.find settings document path).run.run (memoryAfter settings before)).1 =
      Engine.matchesOf settings .empty document path :=
  run_memoryAfter (Engine.answers_find settings document path) before

/-- What a search has found is what its walk finds. -/
theorem eq_of_run_find {before : List Operation} {document : Json} {path : String}
    {steps : List Step} {found : List Match} (hread : (Path.read settings path).result = .ok steps)
    (hfind : ((Engine.find settings document path).run.run (memoryAfter settings before)).1 =
      .ok found) :
    found = if document.isEmpty then []
      else Walk.found settings.functions steps Walk.root document .empty := by
  rw [run_find_memoryAfter, Engine.matchesOf_of_read hread] at hfind
  exact (Except.ok.inj hfind).symm

/-- Under bindings it gives them back beside the matches. -/
theorem run_findUnder_memoryAfter (settings : Settings) (before : List Operation)
    (bindings : Bindings) (document : Json) (path : String) :
    ((Engine.findUnder settings bindings document path).run (memoryAfter settings before)).1 =
      (Engine.matchesOf settings bindings document path, bindings) :=
  run_memoryAfter (Engine.answers_findUnder settings bindings document path) before

/-- A path is parsed to the steps that reading it gives. -/
theorem run_parse_memoryAfter (settings : Settings) (before : List Operation) (path : String) :
    ((Engine.parse settings path).run.run (memoryAfter settings before)).1 =
      (Path.read settings path).result :=
  run_memoryAfter (Engine.answers_parse settings path) before

end Operation

end PathQuery
