import PathQuery.Dictionary

/-!
# Bindings and scopes

While a document is walked, placeholders are bound to texts. A `Scope` is opened for one branch of
the walk. It notes what each name was bound to before, and closing it puts every name back, the
newest binding first.

* Binding a name and then closing the scope is closing the scope (`Scope.close_bind`).
* A scope in which only bindings were made closes to the bindings it was opened on
  (`Scope.close_bindAll`).
-/

namespace PathQuery

abbrev Bindings := Dictionary String

/-- The bindings in force, and what each name that was bound here meant before, newest first. -/
structure Scope where
  bindings : Bindings
  undo : List (String × Option String)

namespace Scope

def opened (bindings : Bindings) : Scope := ⟨bindings, []⟩

/-- Binds a name until the scope is closed. -/
def bind (scope : Scope) (name text : String) : Scope :=
  ⟨scope.bindings.insert name text, (name, scope.bindings.get? name) :: scope.undo⟩

def bindAll (scope : Scope) (names : List (String × String)) : Scope :=
  names.foldl (fun scope entry => scope.bind entry.1 entry.2) scope

/-- Gives a name its earlier meaning. -/
def restore (bindings : Bindings) : String × Option String → Bindings
  | (name, some text) => bindings.insert name text
  | (name, none) => bindings.erase name

/-- The bindings with every name of the scope put back. -/
def close (scope : Scope) : Bindings := scope.undo.foldl restore scope.bindings

@[simp] theorem close_opened (bindings : Bindings) : (opened bindings).close = bindings := rfl

theorem restore_insert (bindings : Bindings) (name text : String) :
    restore (bindings.insert name text) (name, bindings.get? name) = bindings := by
  apply Dictionary.ext_get?
  intro key
  cases h : bindings.get? name with
  | none =>
    by_cases hkey : key = name
    · simp [restore, Dictionary.get?_erase, hkey, h]
    · simp [restore, Dictionary.get?_erase, Dictionary.get?_insert, hkey]
  | some old =>
    by_cases hkey : key = name
    · simp [restore, Dictionary.get?_insert, hkey, h]
    · simp [restore, Dictionary.get?_insert, hkey]

/-- A binding leaves no trace in the bindings after the scope. -/
@[simp] theorem close_bind (scope : Scope) (name text : String) :
    (scope.bind name text).close = scope.close := by
  simp [close, bind, restore_insert]

@[simp] theorem close_bindAll (scope : Scope) (names : List (String × String)) :
    (scope.bindAll names).close = scope.close := by
  induction names generalizing scope with
  | nil => rfl
  | cons entry names ih => exact (ih _).trans (close_bind _ _ _)

/-! ## Programs on scopes -/

/-- An operation on the innermost scope, or a scope within it. -/
inductive Op where
  | bind (name text : String)
  | get (name : String)
  | nest (ops : List Op)

inductive Reply where
  | bound
  | found (text : Option String)
  | closed
  deriving DecidableEq

/-- An answer with the bindings in force after the operation. -/
structure Report where
  reply : Reply
  bindings : Bindings
  deriving DecidableEq

mutual

/-- Runs one operation. A scope within closes after its operations, and is reported last. -/
def runOp (scope : Scope) : Op → List Report × Scope
  | .bind name text =>
    let after := scope.bind name text
    ([⟨.bound, after.bindings⟩], after)
  | .get name => ([⟨.found (scope.bindings.get? name), scope.bindings⟩], scope)
  | .nest ops =>
    let (reports, inner) := runOps (opened scope.bindings) ops
    let after := { scope with bindings := inner.close }
    (reports ++ [⟨.closed, after.bindings⟩], after)

def runOps (scope : Scope) : List Op → List Report × Scope
  | [] => ([], scope)
  | op :: ops =>
    let (first, after) := runOp scope op
    let (others, last) := runOps after ops
    (first ++ others, last)

end

/-- Runs a program in a scope of its own, and gives the bindings after that scope. -/
def run (bindings : Bindings) (ops : List Op) : List Report × Bindings :=
  let (reports, scope) := runOps (opened bindings) ops
  (reports, scope.close)

end Scope

end PathQuery
