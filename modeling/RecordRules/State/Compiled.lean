import RecordRules.State.Flags
import RecordRules.Rule.Book

/-!
The state of a record: the flags of its fields at a moment. Every state rule of the schema whose
conditions hold contributes its flags to the fields that it covers. Writes are checked against
the state.
-/
namespace RecordRules

/-- The flags of the fields that have any, in order of declaration. -/
structure RecordState where
  schema : Key
  fields : Keyed String Flags := []
deriving Repr

inductive StateComplaint where
  | emptied (field : String)
  | notAllowed (field : String) (allowed : List Value) (given : Value)
deriving Repr

def StateComplaint.text : StateComplaint → String
  | emptied field => "Field '" ++ field ++ "' is required in the current state"
  | notAllowed field allowed given =>
    "Field '" ++ field ++ "' must be one of " ++ (Value.list allowed).display
      ++ " in the current state, got '" ++ given.embedded ++ "'"

def StateComplaint.isWritable : StateComplaint → Bool
  | emptied _ => true
  | notAllowed _ allowed given => Value.areWritable allowed && given.isWritable

def StateComplaint.written (complaint : StateComplaint) : Except Failure StateComplaint :=
  if complaint.isWritable then .ok complaint else .error .tooLong

namespace RecordState

def flagsOf (state : RecordState) (field : String) : Flags := (state.fields.find? field).getD {}

def immutableFields (state : RecordState) : List String :=
  (state.fields.filter fun entry => entry.2.immutable).map Prod.fst

def hiddenFields (state : RecordState) : List String :=
  (state.fields.filter fun entry => entry.2.hidden).map Prod.fst

def allowed? (state : RecordState) (f : Field) : Except Failure (Option (List Value)) :=
  let subset := (state.flagsOf f.name).subset
  if f.enumValues.isEmpty then .ok subset
  else do
    let declared ← Definition.setMembers (.list f.enumValues)
    return some (match subset with
      | none => declared
      | some values => Value.meet declared values)

/-- What a rule asserts about a field. A restriction says nothing about fields that are no
enumerations. -/
def contribution (effect : Effect) (f : Field) : Flags where
  immutable := effect.immutable
  required := effect.required
  hidden := effect.hidden
  subset := if f.isOf .enum then effect.subset else none

def assert (effect : Effect) (merged : Keyed String Flags) (f : Field) : Keyed String Flags :=
  merged.put f.name (((merged.find? f.name).getD {}).merge (contribution effect f))

/-- An effect is on a field as often as it names it. -/
def mergeEffect (s : Schema) (merged : Keyed String Flags) (effect : Effect) :
    Keyed String Flags :=
  ((effect.fieldsIn s).filterMap s.field?).foldl (assert effect) merged

def mergedEffects (s : Schema) (rules : List StateRule) : Keyed String Flags :=
  rules.foldl (fun merged r => mergeEffect s merged r.effect) []

def ofRules (schema : Key) (s : Schema) (rules : List StateRule) : RecordState where
  schema
  fields :=
    let merged := mergedEffects s rules
    s.fieldNames.filterMap fun name =>
      ((merged.find? name).filter fun flags => !flags.isDefault).map fun flags => (name, flags)

def compute (c : Catalog) (b : RuleBook) (r : Record) (ancestors descendants : List Record) :
    Except Failure RecordState := do
  let s ← c.require r.schema
  let scene := Scene.ofRecord r ancestors descendants
  return ofRules r.schema s ((b.stateRulesFor r.schema).filter fun rule =>
    Condition.allHold rule.conditions scene)

def emptied (state : RecordState) (after : Record) : List StateComplaint :=
  (state.fields.filter fun entry => entry.2.required && (after.get entry.1).isNull).map
    fun entry => .emptied entry.1

def valueComplaint? (state : RecordState) (s : Schema) (name : String) (v : Value) :
    Except Failure (Option StateComplaint) :=
  match s.field? name, (state.flagsOf name).subset with
  | some f, some _ =>
    if v.isNull then .ok none
    else do
      let allowed := (← state.allowed? f).getD []
      if !v.isKey then throw (.notAKey v)
      else if v.isIn allowed then return none
      else return some (← (StateComplaint.notAllowed name (← Value.sorted? allowed) v).written)
  | _, _ => .ok none

def valueComplaints (state : RecordState) (s : Schema) (updates : Entries) :
    List String → Except Failure (List StateComplaint)
  | [] => .ok []
  | name :: rest => do
    let first ← state.valueComplaint? s name (updates.get name)
    return first.toList ++ (← state.valueComplaints s updates rest)

def blocked (state : RecordState) (r : Record) (updates : Entries) : List String :=
  Text.sorted ((r.changedNames updates).filter state.immutableFields.contains)

/-- Refuse a write that changes immutable fields, empties required ones or sets values that are
not allowed. A record that is being created has nothing that could be immutable. -/
def checkWrite (c : Catalog) (state : RecordState) (r : Record) (updates : Entries)
    (checkImmutable : Bool := true) : Except Failure Unit := do
  let blocked := if checkImmutable then state.blocked r updates else []
  if !blocked.isEmpty then throw (.immutable r.schema r.id blocked)
  let s ← c.require r.schema
  let values ← state.valueComplaints s updates (Text.sorted (r.changedNames updates))
  let complaints := state.emptied (r.withUpdates updates) ++ values
  if !complaints.isEmpty then
    throw (.refused (.state r.schema r.id) (complaints.map StateComplaint.text))

def toValue (state : RecordState) : Except Failure Value := do
  let fields ← state.fields.mapM fun (name, flags) => do return (name, ← flags.toValue)
  return .object [("fields", .object fields)]

end RecordState

end RecordRules
