import RecordRules.Engine.Create

/-!
Changing and removing stored records.
-/
namespace RecordRules.Engine

/-- The data of an update, which must have the shape of the contract and no children. -/
def readUpdates (e : Engine) (schema : Key) (updates : Value) : Except Failure Entries := do
  let contract ← e.compose schema .edit
  let tree ← e.contracts.validateShape e.catalog contract updates true
  if !tree.children.isEmpty then
    let aliases := Text.sorted (tree.children.map Prod.fst)
    throw (.refused (.children schema.toValue aliases)
      (aliases.map fun key => schema.embedded ++ "." ++ key ++ ": nested update"))
  return tree.data

def update (e : Engine) (schema id : Key) (updates : Value) : Step Store Mutation := do
  let s ← Step.ofExcept (e.catalog.require schema)
  let data ← Step.ofExcept (e.readUpdates schema updates)
  Store.transaction do
    let current ← Store.require schema id
    let changes := current.changes data
    if changes.isEmpty then return { record := current }
    let state ← e.stateOf current
    Step.ofExcept (state.checkWrite e.catalog current changes)
    Step.ofExcept (s.validate (current.withUpdates changes).data)
    let written ← Store.write current changes
    let cascade ← e.propagate [.modifiedOf written changes.names]
    return ⟨written, some cascade⟩

def delete (e : Engine) (schema id : Key) : Step Store Mutation := do
  let s ← Step.ofExcept (e.catalog.require schema)
  Store.transaction do
    let current ← Store.require schema id
    let state ← e.stateOf current
    let names := s.fieldNames
    if !names.isEmpty && names.all state.immutableFields.contains then
      throw (.immutable schema id names)
    let _ ← Store.delete current
    let cascade ← e.propagate [.deleted current]
    return ⟨current, some cascade⟩

end RecordRules.Engine
