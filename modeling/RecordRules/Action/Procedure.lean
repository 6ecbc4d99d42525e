import RecordRules.Store.Basic

/-!
Procedures: what custom actions do. A procedure asks the engine for one thing after another and
may use every answer, a failure too, to decide how to go on; it always comes to an end.
-/
namespace RecordRules

inductive Procedure where
  | done (events : List Event)
  | fail (failure : Failure)
  /-- Write to a record so that reactions see the change; the answer is the new snapshot. -/
  | write (record : Record) (updates : Entries) (next : Except Failure Record → Procedure)
  /-- Write to a stored row past the reactions. -/
  | rawWrite (record : Record) (updates : Entries) (next : Except Failure Record → Procedure)
  /-- Look at a stored record without leaving a trace. -/
  | peek (schema id : Key) (next : Option Record → Procedure)
  | get (schema id : Key) (next : Option Record → Procedure)
  | related (record : Record) (scope : Scope) (only : Value)
    (next : Except Failure (List Record) → Procedure)
  | query (schema : Key) (filter : Entries) (next : List Record → Procedure)
  | insert (schema : Key) (data : Entries) (id : Value) (next : Except Failure Record → Procedure)
  | delete (record : Record) (next : Bool → Procedure)
  | emit (event : Event) (next : Procedure)
  | inScope (body : Procedure) (next : Except Failure (List Event) → Procedure)

namespace Procedure

def orFail {α : Type} (next : α → Procedure) : Except Failure α → Procedure
  | .ok answer => next answer
  | .error failure => .fail failure

end Procedure

structure ActionCall where
  event : Event
  targets : List Record
  rule : Reaction

def ActionCall.target? (call : ActionCall) : Option Record := call.targets.head?

abbrev ActionFn := ActionCall → Procedure

structure ActionBook where
  actions : Keyed Key ActionFn := []
  frozen : Bool := false

namespace ActionBook

def add (b : ActionBook) (name : Value) (action : Option ActionFn) : Except Failure ActionBook := do
  let some action := action
    | throw (.wrongType ("Custom action '" ++ name.embedded ++ "' must be callable"))
  if b.frozen then throw (.frozen (.newAction name))
  let key ← Key.ofValue name
  if b.actions.has key then throw (.duplicateAction name)
  return { b with actions := b.actions ++ [(key, action)] }

end ActionBook

end RecordRules
