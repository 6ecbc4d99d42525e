import RecordRules.Engine.Change

/-!
Viewing records: the selected fields that are not hidden, the children under their aliases, and
the state.
-/
namespace RecordRules.Engine

def ownView (contract : Contract) (state : RecordState) (r : Record) : Entries :=
  let shown := contract.ownFields.filter fun name => !state.hiddenFields.contains name
  Keyed.merge [("id", r.id.toValue)] (shown.map fun name => (name, r.get name))

def underAlias (r : ChildRequirement) (views : List Value) : Value :=
  match r.cardinality with
  | .one => views.headD .null
  | .many => .list views

def collectAll {α β : Type} (step : α → Step Store β) : List α → Step Store (List β)
  | [] => return []
  | x :: rest => do return (← step x) :: (← collectAll step rest)

def viewWithin (e : Engine) : Nat → Contract → Record → Step Store Value
  | 0, _, r => throw (.endlessView r.schema r.id)
  | levels + 1, contract, r => do
    let state ← e.stateOf r
    let children ← collectAll (fun child => do
      let nested := e.contracts.nested e.catalog contract child
      let records ← Store.related e.catalog r .child child.schema
      let views ← collectAll (e.viewWithin levels nested) records
      return (child.key.embedded, underAlias child views)) contract.children
    let withChildren := (ownView contract state r).merge children
    return .object (withChildren.put "$state" (← Step.ofExcept state.toValue))

/-- The view of a record. Below the record itself, a record that is nested in itself makes the
view endless, so there are at most as many levels as there are stored rows, and one more. -/
def viewRecord (e : Engine) (r : Record) (placement : Placement) : Step Store Value := do
  let contract ← Step.ofExcept (e.compose r.schema .view placement)
  e.viewWithin ((← get).size + 1) contract r

def view (e : Engine) (schema id : Key) (placement : Placement := .alone) :
    Step Store Value := do
  e.viewRecord (← Store.require schema id) placement

def viewAs (e : Engine) (schema id : Key) (placement : Value) : Step Store Value := do
  let r ← Store.require schema id
  e.viewRecord r (← Step.ofExcept (Placement.called placement))

end RecordRules.Engine
