import RecordRules.Rule.State
import RecordRules.Schema.Catalog

/-!
The rule book: reactions and state rules, checked against the catalog when they are added, in
order of registration. With every rule that is added, the book also notes how many related records
have to be at hand before the rules of its kind are evaluated.
-/
namespace RecordRules

structure RuleBook where
  reactions : List Reaction := []
  stateRules : List StateRule := []
  /-- By schema and kind of event. -/
  reactionReaches : ReachTable (Key × EventKind) := []
  /-- By schema. -/
  stateReaches : ReachTable Key := []
  frozen : Bool := false
deriving Repr

namespace RuleBook

def reactionsFor (b : RuleBook) (schema : Key) (kind : EventKind) : List Reaction :=
  b.reactions.filter fun r => r.schema.names schema && r.event == kind

def stateRulesFor (b : RuleBook) (schema : Key) : List StateRule :=
  b.stateRules.filter fun r => r.schema.names schema

def reactionReach (b : RuleBook) (schema : Key) (kind : EventKind) : Reach :=
  b.reactionReaches.reachOf (schema, kind)

def stateReach (b : RuleBook) (schema : Key) : Reach := b.stateReaches.reachOf schema

def customName? (r : Reaction) : Option Value :=
  match r.action with
  | .custom name => some name
  | .set _ => none

def customNames (b : RuleBook) : Except Failure (List Key) := do
  return Text.distinct (← (b.reactions.filterMap customName?).mapM Key.ofValue)

def sortNames (names : List Key) : Except Failure (List Value) :=
  Value.sorted? (names.map Key.toValue)

def requireSchema (c : Catalog) (name : Value) : Except Failure Schema := do
  match ← c.named? name with
  | some s => return s
  | none => throw (.rule (.unknownSchema name))

def checkPaths (c : Catalog) (paths : List Path) : Except Failure Unit :=
  paths.forM fun p => match p.schema with
    | some name =>
      if name = "" || c.has (.text name) then .ok ()
      else .error (.rule (.unknownSchemaInPath name p.text))
    | none => .ok ()

def schemasInScope (c : Catalog) (r : Reaction) : Except Failure (List Value) := do
  match r.scope with
  | .self => return [r.schema]
  | .parent => return (← c.parentsOf (← Key.ofValue r.schema)).map Key.toValue
  | .child =>
    let children := c.childrenOf (← Key.ofValue r.schema)
    return (Text.distinct (children.map Prod.fst)).map Key.toValue

/-- The schemas whose records a reaction may act on. A restriction counts for related records
only. -/
def targetSchemas (c : Catalog) (r : Reaction) : Except Failure (List Value) := do
  let candidates ← schemasInScope c r
  match r.scope, r.restriction? with
  | .self, _ | _, none => return candidates
  | _, some name => return candidates.filter fun candidate => candidate.same name

def someDeclares (c : Catalog) (field : String) : List Value → Except Failure Bool
  | [] => .ok false
  | name :: rest => do
    let s ← c.requireNamed name
    if s.declares field then return true else someDeclares c field rest

def checkAssignment (c : Catalog) (targets : List Value) (field : String) :
    Except Failure Unit := do
  if !(← someDeclares c field targets) then
    throw (.rule (.undeclaredTargetField field (← Value.sorted? targets)))

def checkRestriction (c : Catalog) (r : Reaction) : Except Failure Unit := do
  match r.restriction? with
  | none => return ()
  | some name => if (← c.named? name).isNone then throw (.rule (.unknownTargetSchema name))

def checkReaction (c : Catalog) (r : Reaction) : Except Failure Unit := do
  let s ← requireSchema c r.schema
  checkPaths c r.paths
  checkRestriction c r
  let targets ← targetSchemas c r
  if r.scope ≠ .self && targets.isEmpty then
    throw (.rule (.nothingInScope s.name r.scope.name))
  match r.action with
  | .set assignments => assignments.forM fun (name, _) => checkAssignment c targets name
  | .custom _ => return ()

def addReaction (b : RuleBook) (c : Catalog) (r : Reaction) : Except Failure RuleBook := do
  if b.frozen then throw (.frozen (.newRule r.label))
  checkReaction c r
  let schema ← Key.ofValue r.schema
  return { b with
    reactions := b.reactions ++ [r]
    reactionReaches := b.reactionReaches.widen (schema, r.event) r.paths }

def mayBeOn (s : Schema) (name : Value) : Bool := name.same (.text "*") || s.declaresNamed name

def checkStateRule (c : Catalog) (r : StateRule) : Except Failure Unit := do
  let s ← requireSchema c r.schema
  checkPaths c r.paths
  if r.effect.onFields.isEmpty then throw (.rule .effectWithoutFields)
  match r.effect.onFields.find? fun name => !mayBeOn s name with
  | some name => throw (.rule (.unknownField name s.name))
  | none => return ()

def addStateRule (b : RuleBook) (c : Catalog) (r : StateRule) : Except Failure RuleBook := do
  if b.frozen then throw (.frozen (.newRule r.label))
  checkStateRule c r
  let schema ← Key.ofValue r.schema
  return { b with
    stateRules := b.stateRules ++ [r]
    stateReaches := b.stateReaches.widen schema r.paths }

end RuleBook

end RecordRules
