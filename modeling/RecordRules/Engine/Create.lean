import RecordRules.Reaction.Cascade

/-!
Creating records from a payload: the record itself and, nested in the payload, its children. All
of them are stored and their events dispatched in one cascade, or nothing is.
-/
namespace RecordRules

/-- What an operation did to a record; without a change there is no cascade. -/
structure Mutation where
  record : Record
  cascade : Option Cascade := none
deriving Repr

namespace Engine

def initialValues (p : Payload) (parent : Option Record) : Entries :=
  let defaults : Entries := p.contract.schema.fields.filterMap fun f =>
    if f.default.isNull then none else some (f.name, f.default)
  let own := defaults.merge p.data
  match parent, p.contract.referBack with
  | some r, some field => own.put field r.id.toValue
  | _, _ => own

def insertRecord (e : Engine) (p : Payload) (parent : Option Record) : Step Store Record := do
  let schema ← Step.ofExcept (Key.ofValue p.contract.schema.name)
  let values := initialValues p parent
  let state ← e.stateOf ⟨schema, .text "", values⟩
  Step.ofExcept (state.checkWrite e.catalog ⟨schema, .text "", []⟩ values false)
  Store.insert e.catalog schema values

mutual

/-- Store a payload, parents before their children; the answer is the records in this order. -/
def insertTree (e : Engine) : Payload → Option Record → Step Store (List Record)
  | .node contract location data children, parent => do
    let r ← e.insertRecord (.node contract location data children) parent
    return r :: (← e.insertGroups children r)

def insertGroups (e : Engine) : List (String × List Payload) → Record → Step Store (List Record)
  | [], _ => return []
  | (_, nodes) :: rest, parent => do
    return (← e.insertAll nodes parent) ++ (← e.insertGroups rest parent)

def insertAll (e : Engine) : List Payload → Record → Step Store (List Record)
  | [], _ => return []
  | p :: rest, parent => do
    return (← e.insertTree p (some parent)) ++ (← e.insertAll rest parent)

end

def create (e : Engine) (schema : Key) (payload : Value) (placement : Placement := .alone) :
    Step Store Mutation := do
  let contract ← Step.ofExcept (e.compose schema .create placement)
  let tree ← Step.ofExcept (e.contracts.validate e.catalog contract payload)
  Store.transaction do
    let records ← e.insertTree tree none
    let cascade ← e.propagate (records.map Event.created)
    return ⟨records.headD ⟨schema, .text "", []⟩, some cascade⟩

end Engine

end RecordRules
