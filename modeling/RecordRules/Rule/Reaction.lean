import RecordRules.Condition.Reader
import RecordRules.Rule.Reach

/-!
Reactions: what to do when an event of a kind happens to a record of a schema and the conditions
hold. A reaction sets fields of related records or runs a custom action.
-/
namespace RecordRules

/-- The records that a reaction acts on, seen from the record of the event. -/
inductive Scope where
  | self
  | parent
  | child
deriving DecidableEq, Repr

namespace Scope

def name : Scope → String
  | self => "self"
  | parent => "parent"
  | child => "child"

def all : List Scope := [self, parent, child]

end Scope

inductive Action where
  | set (assignments : List (String × Operand))
  | custom (name : Value)
deriving Repr

structure Reaction where
  schema : Value
  event : EventKind
  action : Action
  scope : Scope := .self
  conditions : List Condition := []
  /-- What the reaction is called; empty values say nothing. -/
  name : Value := .text ""
  /-- Act only on related records of this schema; empty values name none. -/
  targetSchema : Value := .null
deriving Repr

namespace Action

def paths : Action → List Path
  | set assignments => assignments.filterMap fun (_, operand) => match operand with
    | .path p => some p
    | .value _ => none
  | custom _ => []

/-- The value to set: a text that starts with `$` is a path. -/
def readAssignment (entry : String × Value) : Except Failure (String × Operand) :=
  match entry with
  | (name, .text s) =>
    if Path.isPathText s then (Condition.readPath s).map fun p => (name, .path p)
    else .ok (name, .value (.text s))
  | (name, v) => .ok (name, .value v)

def readSet : Value → Except Failure Action
  | .object (entry :: rest) => ((entry :: rest).mapM readAssignment).map .set
  | v => .error (if v.isTrue then .noSuchPart else .rule .emptySetAction)

def ofValue (spec : Value) : Except Failure Action :=
  match spec with
  | .object parts =>
    match Keyed.find? parts "set", Keyed.find? parts "custom" with
    | some fields, _ => readSet fields
    | none, some name => .ok (.custom name)
    | none, none => .error (.rule (.invalidAction spec))
  | _ => .error (.rule (.invalidAction spec))

end Action

def givenName (definition : Entries) : Value := (definition.find? "name").getD (.text "")

namespace Reaction

def ofValue (definition : Value) : Except Failure Reaction := do
  let parts ← Definition.parts definition
  let schema ← Definition.require parts "schema"
  let event ← Definition.named "EventKind" EventKind.all EventKind.name
    (Definition.either parts "event" "event_kind" .null)
  let action ← Action.ofValue (← Definition.require parts "action")
  let scope ← Definition.named "Scope" Scope.all Scope.name
    ((parts.find? "scope").getD (.text "self"))
  let conditions ← Condition.readAll (parts.get "conditions")
  return {
    schema, event, action, scope, conditions
    name := givenName parts
    targetSchema := parts.get "target_schema" }

def paths (r : Reaction) : List Path := r.conditions.flatMap Condition.paths ++ r.action.paths

def label (r : Reaction) : Value :=
  if r.name.isTrue then r.name
  else .text (r.schema.embedded ++ "." ++ r.event.name ++ "->" ++ r.scope.name)

def restriction? (r : Reaction) : Option Value :=
  if r.targetSchema.isTrue then some r.targetSchema else none

end Reaction

end RecordRules
