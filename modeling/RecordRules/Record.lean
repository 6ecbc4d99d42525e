import RecordRules.Value.Compare

/-!
Records: snapshots of stored rows. A record is known by its schema and its id.
-/
namespace RecordRules

structure Record where
  schema : Key
  id : Key
  data : Entries := []
deriving Repr, Inhabited

abbrev RecordKey := Key × Key

namespace Record

def key (r : Record) : RecordKey := (r.schema, r.id)

/-- The value of a field, nothing if there is none. The name `id` stands for the id of the
record, whatever its data say. -/
def get (r : Record) (name : String) : Value :=
  if name = "id" then r.id.toValue else r.data.get name

def has (r : Record) (name : String) : Bool := name == "id" || r.data.has name

def get? (r : Record) (name : String) : Option Value :=
  if name = "id" then some r.id.toValue else r.data.find? name

def withUpdates (r : Record) (updates : Entries) : Record := { r with data := r.data.merge updates }

def differs (r : Record) (entry : String × Value) : Bool :=
  match r.data.find? entry.1 with
  | some v => !v.equals entry.2
  | none => true

def changes (r : Record) (updates : Entries) : Entries := updates.filter r.differs

def changedNames (r : Record) (updates : Entries) : List String := (r.changes updates).names

def toValue (r : Record) : Value := .record r.schema r.id r.data

end Record

end RecordRules
