import Mathlib.Data.Finset.Card
import Mathlib.Data.Finset.Dedup
import PathQuery.Proofs.Walk.Overlay

/-!
# Nested scopes

A scope changes one table of bindings, and closing it replays a list of what to put back. Seen from
outside there is neither: a point of a program sees the bindings that were made in the scopes still
open, in order, on top of the initial ones. `Scope.Shows` says so for a table, and `Scope.Tells` for
all that a program reports.

A scope within another one leaves nothing behind, in the table or in the list of the outer scope
(`runOp_nest`). So a scope is at any point what its own bindings have made of it, and this is the
invariant that carries a run.

Results:
1. `shows_bindAll`: look-ups, entries and size after several bindings.
2. `runOps_eq_bindAll`, `runOp_nest`: what a program leaves of a scope.
3. `run_tells`: what a program reports, and the bindings after it.
-/

namespace PathQuery

theorem Dictionary.mem_entries_iff {α : Type} {d : Dictionary α} {name : String} {value : α} :
    (name, value) ∈ d.entries ↔ d.get? name = some value :=
  (Entries.lookup_eq_some_iff d.sorted).symm

theorem Dictionary.nodup_names {α : Type} (d : Dictionary α) : d.names.Nodup :=
  List.pairwise_map.2 (d.sorted.imp fun h => String.ne_of_lt h)

namespace Scope

/-! ## What a point of a program sees -/

/-- What a name means where bindings have been made, in order, on top of the initial ones: the text
of the newest binding of the name, or else its initial text, if it has one. -/
def meaning (initial : Bindings) (made : List (String × String)) (name : String) :
    Option String :=
  (made.reverse.lookup name).or (initial.get? name)

/-- A table shows the bindings that have been made: in each look-up, in its entries and in their
number. -/
structure Shows (initial : Bindings) (made : List (String × String)) (bindings : Bindings) :
    Prop where
  get? (name : String) : bindings.get? name = meaning initial made name
  mem_entries_iff (name text : String) :
    (name, text) ∈ bindings.entries ↔ meaning initial made name = some text
  size_eq : bindings.size = (initial.names ++ made.map Prod.fst).toFinset.card

/-- What a program reports where bindings have been made in the scopes that are open. A scope within
starts from these, and after it they are all there is again. -/
inductive Tells (initial : Bindings) : List (String × String) → List Op → List Report → Prop
  | done {made : List (String × String)} : Tells initial made [] []
  | bind {made : List (String × String)} {name text : String} {ops : List Op}
      {reports : List Report} {bindings : Bindings} :
      Shows initial (made ++ [(name, text)]) bindings →
      Tells initial (made ++ [(name, text)]) ops reports →
      Tells initial made (.bind name text :: ops) (⟨.bound, bindings⟩ :: reports)
  | get {made : List (String × String)} {name : String} {ops : List Op} {reports : List Report}
      {bindings : Bindings} :
      Shows initial made bindings → Tells initial made ops reports →
      Tells initial made (.get name :: ops)
        (⟨.found (meaning initial made name), bindings⟩ :: reports)
  | nest {made : List (String × String)} {inner ops : List Op} {within reports : List Report}
      {bindings : Bindings} :
      Tells initial made inner within → Shows initial made bindings →
      Tells initial made ops reports →
      Tells initial made (.nest inner :: ops) (within ++ ⟨.closed, bindings⟩ :: reports)

theorem shows_bindAll (initial : Bindings) (made : List (String × String)) :
    Shows initial made (initial.bindAll made) := by
  have hget (name : String) : (initial.bindAll made).get? name = meaning initial made name :=
    Bindings.get?_bindAll initial made name
  refine ⟨hget, fun name text => ?_, ?_⟩
  · rw [Dictionary.mem_entries_iff, hget]
  · have hnames : (initial.bindAll made).names.toFinset =
        (initial.names ++ made.map Prod.fst).toFinset := by
      ext name
      have hmade : (∃ text, made.reverse.lookup name = some text) ↔ name ∈ made.map Prod.fst := by
        rw [← Bindings.exists_isLast_iff]
        simp only [← Bindings.get?_bindAll_empty_iff, Bindings.get?_bindAll, Dictionary.get?_empty,
          Option.or_none]
      rw [List.mem_toFinset, List.mem_toFinset, List.mem_append, Dictionary.mem_names_iff,
        Dictionary.mem_names_iff, ← hmade]
      simp only [hget, meaning, ← Option.isSome_iff_exists, Option.isSome_or, Bool.or_eq_true,
        or_comm]
    rw [← hnames, List.toFinset_card_of_nodup (Dictionary.nodup_names _)]
    exact (List.length_map _).symm

/-! ## What a program leaves of a scope -/

/-- The bindings that an operation makes in its own scope. -/
def Op.binds : Op → List (String × String)
  | .bind name text => [(name, text)]
  | .get _ => []
  | .nest _ => []

theorem bindAll_append (scope : Scope) (names names' : List (String × String)) :
    scope.bindAll (names ++ names') = (scope.bindAll names).bindAll names' :=
  List.foldl_append

mutual

theorem runOp_eq_bindAll (scope : Scope) : (op : Op) →
    (runOp scope op).2 = scope.bindAll op.binds
  | .bind name text => rfl
  | .get name => rfl
  | .nest ops => by
    have hclose : (runOps (opened scope.bindings) ops).2.close = scope.bindings := by
      rw [runOps_eq_bindAll, close_bindAll, close_opened]
    show { scope with bindings := (runOps (opened scope.bindings) ops).2.close } = scope
    rw [hclose]

theorem runOps_eq_bindAll (scope : Scope) : (ops : List Op) →
    (runOps scope ops).2 = scope.bindAll (ops.flatMap Op.binds)
  | [] => rfl
  | op :: ops => by
    show (runOps (runOp scope op).2 ops).2 = _
    rw [runOps_eq_bindAll, runOp_eq_bindAll, List.flatMap_cons, bindAll_append]

end

/-- A scope within another one leaves nothing behind. -/
theorem runOp_nest (scope : Scope) (ops : List Op) : (runOp scope (.nest ops)).2 = scope :=
  runOp_eq_bindAll scope (.nest ops)

/-! ## What a program reports -/

mutual

theorem tells_runOp {initial : Bindings} {made : List (String × String)} {scope : Scope}
    (h : scope.bindings = initial.bindAll made) {ops : List Op} {reports : List Report} :
    (op : Op) → Tells initial (made ++ op.binds) ops reports →
    Tells initial made (op :: ops) ((runOp scope op).1 ++ reports)
  | .bind name text, hrest => by
    have hshows : Shows initial (made ++ [(name, text)]) (scope.bind name text).bindings := by
      have hbindings : (scope.bind name text).bindings =
          initial.bindAll (made ++ [(name, text)]) := by
        rw [Bindings.bindAll_append, ← h]
        rfl
      exact hbindings ▸ shows_bindAll initial _
    exact .bind hshows hrest
  | .get name, hrest => by
    have hshows : Shows initial made scope.bindings := h ▸ shows_bindAll initial made
    rw [Op.binds, List.append_nil] at hrest
    have htells : Tells initial made (.get name :: ops)
        (⟨.found (meaning initial made name), scope.bindings⟩ :: reports) := .get hshows hrest
    rw [← hshows.get? name] at htells
    exact htells
  | .nest inner, hrest => by
    have hshows : Shows initial made scope.bindings := h ▸ shows_bindAll initial made
    have hopened : (opened scope.bindings).bindings = initial.bindAll made := h
    have hinner := tells_runOps hopened inner
    rw [Op.binds, List.append_nil] at hrest
    have hreports : (runOp scope (.nest inner)).1 =
        (runOps (opened scope.bindings) inner).1 ++
          [⟨.closed, (runOp scope (.nest inner)).2.bindings⟩] := rfl
    rw [hreports, runOp_nest, List.append_assoc]
    exact .nest hinner hshows hrest

theorem tells_runOps {initial : Bindings} {made : List (String × String)} {scope : Scope}
    (h : scope.bindings = initial.bindAll made) : (ops : List Op) →
    Tells initial made ops (runOps scope ops).1
  | [] => .done
  | op :: ops => by
    have hafter : (runOp scope op).2.bindings = initial.bindAll (made ++ op.binds) := by
      rw [runOp_eq_bindAll, Walk.bindings_bindAll, h, Bindings.bindAll_append]
    exact tells_runOp h op (tells_runOps hafter ops)

end

/-- After a program in a scope of its own the bindings are the initial ones. Whatever is open around
it, a scope gives back exactly what it was opened on. And at each point a look-up, the entries and
their number show the newest binding of each name in the scopes still open, or else its initial
text. -/
theorem run_tells (initial : Bindings) (ops : List Op) :
    (run initial ops).2 = initial ∧
    (∀ (scope : Scope) (inner : List Op), (runOp scope (.nest inner)).2 = scope) ∧
    Tells initial [] ops (run initial ops).1 := by
  have hopened : (opened initial).bindings = initial.bindAll [] := rfl
  refine ⟨?_, runOp_nest, tells_runOps hopened ops⟩
  show (runOps (opened initial) ops).2.close = initial
  rw [runOps_eq_bindAll, close_bindAll, close_opened]

example : ((run (Dictionary.ofList [("id", "outer")]) [.bind "shard" "0",
    .nest [.bind "id" "inner", .bind "id" "again", .get "id", .get "shard"],
    .get "id"]).1.map Report.reply) =
    [.bound, .bound, .bound, .found "again", .found "0", .closed, .found "outer"] := by
  decide +kernel

end Scope

end PathQuery
