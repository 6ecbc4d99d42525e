import RecordRules.Definition
import RecordRules.Event

/-!
Reading events. An event may be written down without the data of its record; it is then completed
with the record as it is stored.
-/
namespace RecordRules

/-- An event as it is written down. Without data, the record is taken as it is stored. -/
structure EventSpec where
  kind : EventKind
  schema : Key
  id : Key
  modified : List Value := []
  data : Option Entries := none
  ancestry : List Record := []
  descendants : List Record := []
deriving Repr

namespace EventSpec

def readRecord (given : Value) : Except Failure Record := do
  let parts ← Definition.entries given
  let data ← match parts.find? "data" with
    | some data => Definition.entries data
    | none => .ok []
  return ⟨← Key.ofValue (← Definition.require parts "schema"),
    ← Key.ofValue (← Definition.require parts "id"), data⟩

def readRecords (given : Value) : Except Failure (List Record) := do
  (← Definition.members given).mapM readRecord

def ofValue (given : Value) : Except Failure EventSpec := do
  let parts ← Definition.entries given
  let kind ← Definition.calledFor "EventKind" EventKind.all EventKind.name
    (← Definition.require parts "kind")
  let data ← match parts.find? "data" with
    | some .null | none => pure none
    | some data => (Definition.entries data).map some
  return {
    kind
    schema := ← Key.ofValue (← Definition.require parts "schema")
    id := ← Key.ofValue (← Definition.require parts "id")
    modified := ← Definition.setMembers ((parts.find? "modified").getD (.list []))
    data
    ancestry := ← readRecords ((parts.find? "ancestry").getD (.list []))
    descendants := ← readRecords ((parts.find? "descendants").getD (.list [])) }

/-- The names of the modified fields; only events of modification have any. -/
def modifiedNames (spec : EventSpec) : List Value :=
  match spec.kind with
  | .modified => spec.modified
  | .created | .deleted => []

def toEvent (spec : EventSpec) (stored : Option Record) : Event :=
  let data := spec.data.getD ((stored.map Record.data).getD [])
  { kind := spec.kind, object := ⟨spec.schema, spec.id, data⟩, modified := spec.modifiedNames,
    ancestry := spec.ancestry, descendants := spec.descendants }

end EventSpec

end RecordRules
