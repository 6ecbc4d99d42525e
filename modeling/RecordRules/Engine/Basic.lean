import RecordRules.Action.Procedure
import RecordRules.Contract.Payload
import RecordRules.Settings
import RecordRules.State.Contradiction
import RecordRules.State.Loading

/-!
The engine: settings, schemas, rules, actions and augmentations. Everything is registered first;
freezing ends registration and makes sure that nothing refers to something missing.
-/
namespace RecordRules

structure Engine where
  settings : Settings := {}
  catalog : Catalog := {}
  rules : RuleBook := {}
  actions : ActionBook := {}
  contracts : ContractBook := {}
  /-- Known once the engine is frozen. -/
  fingerprint : Option String := none

namespace Engine

def ofSettings (settings : Settings) : Except Failure Engine := do
  settings.check
  return { settings }

def onObject {α : Type} (read : Value → Except Failure α) (definition : Value) :
    Except Failure α := do
  let _ ← Definition.entries definition
  read definition

def depthLimit (e : Engine) : Nat := e.settings.maxCascadeDepth.toNat

def addSchema (definition : Value) : Step Engine Schema := do
  let s ← Step.ofExcept (Schema.ofValue definition)
  Step.within Engine.catalog (fun e catalog => { e with catalog }) (Catalog.register s)
  return s

def addReaction (definition : Value) : Step Engine Reaction := do
  let r ← Step.ofExcept (onObject Reaction.ofValue definition)
  let e ← get
  let rules ← Step.ofExcept (e.rules.addReaction e.catalog r)
  set { e with rules }
  return r

def addStateRule (definition : Value) : Step Engine StateRule := do
  let r ← Step.ofExcept (StateRule.ofValue definition)
  let e ← get
  let rules ← Step.ofExcept do
    let s ← RuleBook.requireSchema e.catalog r.schema
    r.check s (e.rules.stateRulesFor (← Key.ofValue r.schema)) e.settings.rejectContradictoryState
    e.rules.addStateRule e.catalog r
  set { e with rules }
  return r

def addAugmentation (definition : Value) : Step Engine Augmentation := do
  let a ← Step.ofExcept (onObject Augmentation.ofValue definition)
  let e ← get
  let contracts ← Step.ofExcept (e.contracts.add e.catalog a)
  set { e with contracts }
  return a

def addAction (name : Value) (action : Option ActionFn) : Step Engine Unit := do
  let e ← get
  let actions ← Step.ofExcept (e.actions.add name action)
  set { e with actions }

def missingActions (e : Engine) : Except Failure (List Value) := do
  RuleBook.sortNames ((← e.rules.customNames).filter fun name => !e.actions.actions.has name)

def obstacles (e : Engine) : Except Failure (List String) := do
  let dangling ← e.catalog.danglingReferences
  let missing ← e.missingActions
  return dangling ++ missing.map fun name =>
    "Custom action '" ++ name.embedded ++ "' is not registered"

def freezeCatalog : Step Engine String := do
  match (← get).catalog.fingerprint with
  | some fingerprint => return fingerprint
  | none => Step.within Engine.catalog (fun e catalog => { e with catalog }) Catalog.freeze

def freezeRules : Step Engine Unit :=
  modify fun e => { e with rules := { e.rules with frozen := true } }

def freezeActions : Step Engine Unit :=
  modify fun e => { e with actions := { e.actions with frozen := true } }

def freezeContracts : Step Engine Unit :=
  modify fun e => { e with contracts := { e.contracts with frozen := true } }

/-- End registration; the answer is the fingerprint of the schemas. -/
def freeze : Step Engine String := do
  let obstacles ← Step.ofExcept (← get).obstacles
  if !obstacles.isEmpty then throw (.rule (.invalidEngine obstacles))
  let fingerprint ← freezeCatalog
  modify fun e => { e with fingerprint := some fingerprint }
  freezeRules
  freezeActions
  freezeContracts
  return fingerprint

def compose (e : Engine) (schema : Key) (target : Target) (placement : Placement := .alone) :
    Except Failure Contract :=
  e.contracts.compose e.catalog schema target placement

def stateOf (e : Engine) (r : Record) : Step Store RecordState :=
  RecordState.load e.catalog e.rules r

end Engine

end RecordRules
