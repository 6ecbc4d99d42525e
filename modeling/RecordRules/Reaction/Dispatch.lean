import RecordRules.Engine.Basic

/-!
Dispatch: find the reactions to an event whose conditions hold, and carry out their actions. What
they write turns into further events, which are collected but not dispatched here.
-/
namespace RecordRules

structure Write where
  record : Record
  changed : List String
deriving Repr

structure Chain where
  /-- The values last written, by schema, id and field. -/
  settled : Keyed (Key × Key × String) Value := []
  writes : List Write := []
deriving Repr

namespace Chain

def isSettled (chain : Chain) (r : Record) (field : String) (v : Value) : Bool :=
  match chain.settled.find? (r.schema, r.id, field) with
  | some old => old.equals v
  | none => false

def settle (chain : Chain) (r : Record) (updates : Entries) : Chain :=
  { chain with
    settled := chain.settled.merge (updates.map fun (field, v) => ((r.schema, r.id, field), v)) }

end Chain

/-- The store, the cascade so far, and the events that came out of the current dispatch. -/
structure Turn where
  store : Store
  chain : Chain := {}
  followUps : List Event := []

structure Dispatched where
  event : Event
  /-- Labels of the reactions to such events. -/
  candidates : List Value
  /-- Labels of those whose conditions hold. -/
  matched : List Value
  followUps : List Event
deriving Repr

namespace Turn

def onStore {α : Type} (step : Step Store α) : Step Turn α :=
  Step.within Turn.store (fun turn store => { turn with store }) step

theorem exec_onStore {α : Type} (step : Step Store α) (turn : Turn) :
    Step.exec (onStore step) turn =
      ((Step.exec step turn.store).1, { turn with store := (Step.exec step turn.store).2 }) := rfl

def inScope {α : Type} (step : Step Turn α) : Step Turn α :=
  Step.of fun turn =>
    match Step.exec step { turn with store := turn.store.enter } with
    | (.ok answer, after) => (.ok answer, { after with store := after.store.leave false })
    | (.error failure, after) => (.error failure, { after with store := after.store.leave true })

def follow (event : Event) : Step Turn Unit :=
  modify fun turn => { turn with followUps := turn.followUps ++ [event] }

end Turn

namespace Engine

/-- The part of an update that the current record does not have yet and the cascade did not just
write. -/
def effective (chain : Chain) (current : Record) (updates : Entries) : Entries :=
  updates.filter fun (field, v) =>
    !(current.get field).equals v && !chain.isSettled current field v

def guardWrite (e : Engine) (r : Record) (updates : Entries) : Step Store Unit := do
  if e.settings.enforceStateOnReactions then
    let state ← e.stateOf r
    Step.ofExcept (state.checkWrite e.catalog r updates)

/-- Write to a record on behalf of a reaction. Values that are there already are dropped; what is
left gives a modified event. The answer is the snapshot after the write. -/
def applyWrite (e : Engine) (r : Record) (updates : Entries) : Step Turn Record := do
  let current := (← Turn.onStore (Store.get r.schema r.id)).getD r
  let effective := effective (← get).chain current updates
  if effective.isEmpty then return current
  Turn.onStore (e.guardWrite current effective)
  let written ← Turn.onStore (Store.write current effective)
  let names := effective.names
  modify fun turn =>
    let chain := turn.chain.settle written effective
    { turn with chain := { chain with writes := chain.writes ++ [⟨written, names⟩] } }
  Turn.follow (.modifiedOf written names)
  return written

def carryOut (e : Engine) : Procedure → Step Turn (List Event)
  | .done events => return events
  | .fail failure => throw failure
  | .write r updates next => do carryOut e (next (← Step.attempt (e.applyWrite r updates)))
  | .rawWrite r updates next => do
    carryOut e (next (← Step.attempt (Turn.onStore (Store.write r updates))))
  | .peek schema id next => do carryOut e (next ((← get).store.peek? schema id))
  | .get schema id next => do carryOut e (next (← Turn.onStore (Store.get schema id)))
  | .related r scope only next => do
    carryOut e (next (← Step.attempt (Turn.onStore (Store.related e.catalog r scope only))))
  | .query schema filter next => do
    carryOut e (next (← Turn.onStore (Store.query schema filter)))
  | .insert schema data id next => do
    carryOut e (next (← Step.attempt (Turn.onStore (Store.insert e.catalog schema data id))))
  | .delete r next => do carryOut e (next (← Turn.onStore (Store.delete r)))
  | .emit event next => do
    Turn.follow event
    carryOut e next
  | .inScope body next => do
    carryOut e (next (← Step.attempt (Turn.inScope (carryOut e body))))

def actionFailure (name : Value) : Failure → Failure
  | .action inner reason => .action inner reason
  | failure => .action name failure.reason

def invoke (e : Engine) (name : Value) (call : ActionCall) : Step Turn (List Event) := do
  let key ← Step.ofExcept (Key.ofValue name)
  match e.actions.actions.find? key with
  | none => throw (.action name "no such action registered")
  | some action =>
    modify fun turn =>
      let ran : Invocation := ⟨key, call.rule.label, call.event, call.targets⟩
      { turn with store := { turn.store with invocations := turn.store.invocations ++ [ran] } }
    match ← Step.attempt (e.carryOut (action call)) with
    | .ok events => return events
    | .error failure => throw (actionFailure name failure)

def matching (e : Engine) (event : Event) : List Reaction × List Reaction :=
  let candidates := e.rules.reactionsFor event.schema event.kind
  let scene := Scene.ofEvent event
  (candidates, candidates.filter fun r => Condition.allHold r.conditions scene)

def targetsOf (e : Engine) (r : Reaction) (event : Event) : Step Turn (List Record) :=
  Turn.onStore (Store.related e.catalog event.object r.scope
    (if r.scope = .self then .null else r.targetSchema))

/-- The update that a set action makes to a record: what its schema declares, as far as the paths
lead somewhere. -/
def updatesFor (s : Schema) (assignments : List (String × Operand)) (scene : Scene) : Entries :=
  Keyed.merge [] (assignments.filterMap fun (field, operand) =>
    if !s.declares field then none
    else match operand with
      | .value v => some (field, v)
      | .path p => (p.resolve scene).map fun v => (field, v))

def setFields (e : Engine) (assignments : List (String × Operand)) (scene : Scene)
    (target : Record) : Step Turn Unit := do
  let s ← Step.ofExcept (e.catalog.require target.schema)
  let updates := updatesFor s assignments scene
  if !updates.isEmpty then
    let _ ← e.applyWrite target updates

def react (e : Engine) (event : Event) (r : Reaction) : Step Turn Unit := do
  let targets ← e.targetsOf r event
  match r.action with
  | .set assignments => targets.forM (e.setFields assignments (Scene.ofEvent event))
  | .custom name =>
    (← e.invoke name ⟨event, targets, r⟩).forM Turn.follow

def dispatch (e : Engine) (event : Event) : Step Turn Dispatched := do
  let (candidates, matched) := e.matching event
  modify fun turn => { turn with followUps := [] }
  matched.forM (e.react event)
  return ⟨event, candidates.map Reaction.label, matched.map Reaction.label, (← get).followUps⟩

end Engine

end RecordRules
