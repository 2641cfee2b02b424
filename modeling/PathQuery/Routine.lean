import PathQuery.Notice
import PathQuery.Text.Split

/-!
# Routines

Reading a path and walking a document both ask for the pieces of a text again and again, and both
write notices. A `Routine` is such a computation with its requests left open, so that one
definition can be answered in two ways: directly, as `Routine.value` does, or from a table of
pieces that have been made before.

* `Routine.value` answers each request with `Text.split` and drops the notices. It is a monad
  morphism (`value_bind`), so the value of a routine is that of its parts.
* `Routine.requests` lists the requests that are made, and `Routine.notices` the notices that are
  written, both in order.
* An `Attempt` is a routine that may fail. `Attempt.result` is its outcome.
-/

namespace PathQuery

/-- A computation that asks for pieces of texts and writes notices. -/
inductive Routine (α : Type) : Type where
  | done (value : α)
  | split (separator text : String) (next : List String → Routine α)
  | note (notice : Notice) (next : Routine α)

namespace Routine

/-! ## The monad -/

def bind (routine : Routine α) (next : α → Routine β) : Routine β :=
  match routine with
  | .done value => next value
  | .split separator text rest => .split separator text fun parts => (rest parts).bind next
  | .note notice rest => .note notice (rest.bind next)

instance : Monad Routine where
  pure := .done
  bind := bind

instance : LawfulMonad Routine := LawfulMonad.mk' Routine
  (fun routine => by
    induction routine with
    | done _ => rfl
    | split separator text _ ih => exact congrArg (split separator text) (funext ih)
    | note notice _ ih => exact congrArg (note notice) ih)
  (fun _ _ => rfl)
  (fun routine _ _ => by
    induction routine with
    | done _ => rfl
    | split separator text _ ih => exact congrArg (split separator text) (funext ih)
    | note notice _ ih => exact congrArg (note notice) ih)

def pieces (separator text : String) : Routine (List String) := .split separator text .done

def tell (notice : Notice) : Routine Unit := .note notice (.done ())

/-! ## Reading a routine -/

/-- The value when each request is answered directly. -/
def value : Routine α → α
  | .done value => value
  | .split separator text next => (next (Text.split separator text)).value
  | .note _ next => next.value

/-- The requests made, as pairs of a separator and a text. -/
def requests : Routine α → List (String × String)
  | .done _ => []
  | .split separator text next =>
    (separator, text) :: (next (Text.split separator text)).requests
  | .note _ next => next.requests

def notices : Routine α → List Notice
  | .done _ => []
  | .split separator text next => (next (Text.split separator text)).notices
  | .note notice next => notice :: next.notices

@[simp] theorem value_pure (a : α) : (pure a : Routine α).value = a := rfl

@[simp] theorem value_pieces (separator text : String) :
    (pieces separator text).value = Text.split separator text := rfl

@[simp] theorem value_tell (notice : Notice) : (tell notice).value = () := rfl

@[simp] theorem value_bind (routine : Routine α) (next : α → Routine β) :
    (routine >>= next).value = (next routine.value).value := by
  induction routine with
  | done _ => rfl
  | split separator text _ ih => exact ih (Text.split separator text)
  | note _ _ ih => exact ih

@[simp] theorem value_map (f : α → β) (routine : Routine α) :
    (f <$> routine).value = f routine.value := by
  rw [← bind_pure_comp, value_bind, value_pure]

@[simp] theorem requests_pure (a : α) : (pure a : Routine α).requests = [] := rfl

@[simp] theorem requests_bind (routine : Routine α) (next : α → Routine β) :
    (routine >>= next).requests = routine.requests ++ (next routine.value).requests := by
  induction routine with
  | done _ => rfl
  | split separator text _ ih => exact congrArg _ (ih (Text.split separator text))
  | note _ _ ih => exact ih

@[simp] theorem notices_pure (a : α) : (pure a : Routine α).notices = [] := rfl

@[simp] theorem notices_bind (routine : Routine α) (next : α → Routine β) :
    (routine >>= next).notices = routine.notices ++ (next routine.value).notices := by
  induction routine with
  | done _ => rfl
  | split separator text _ ih => exact ih (Text.split separator text)
  | note notice _ ih => exact congrArg (notice :: ·) ih

end Routine

/-! ## Routines that may fail -/

/-- A routine that may fail. -/
abbrev Attempt := ExceptT QueryError Routine

namespace Attempt

/-- The outcome when each request is answered directly. -/
def result (attempt : Attempt α) : Except QueryError α := Routine.value attempt.run

def pieces (separator text : String) : Attempt (List String) := Routine.pieces separator text

def tell (notice : Notice) : Attempt Unit := Routine.tell notice

/-- An outcome that is known already. -/
def ofExcept (outcome : Except QueryError α) : Attempt α := ExceptT.mk (pure outcome)

@[simp] theorem result_pure (a : α) : result (pure a) = .ok a := rfl

@[simp] theorem result_throw (error : QueryError) :
    result (throw error : Attempt α) = .error error := rfl

@[simp] theorem result_ofExcept (outcome : Except QueryError α) :
    result (ofExcept outcome) = outcome := rfl

@[simp] theorem result_pieces (separator text : String) :
    result (pieces separator text) = .ok (Text.split separator text) := rfl

@[simp] theorem result_tell (notice : Notice) : result (tell notice) = .ok () := rfl

@[simp] theorem result_bind (attempt : Attempt α) (next : α → Attempt β) :
    result (attempt >>= next) = attempt.result >>= fun a => (next a).result := by
  simp only [result, ExceptT.run_bind, Routine.value_bind]
  cases Routine.value attempt.run <;> rfl

@[simp] theorem result_map (f : α → β) (attempt : Attempt α) :
    result (f <$> attempt) = f <$> attempt.result := by
  simp only [result, ExceptT.run_map, Routine.value_map]
  rfl

end Attempt

end PathQuery
