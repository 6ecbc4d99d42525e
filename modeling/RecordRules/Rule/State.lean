import RecordRules.Rule.Reaction
import RecordRules.Schema.Basic

/-!
State rules: while the conditions hold for a record, some of its fields are immutable, required,
hidden, or restricted to some of their values.
-/
namespace RecordRules

structure Effect where
  /-- Names of fields; `*` stands for all of them. -/
  onFields : List Value
  immutable : Bool := false
  required : Bool := false
  hidden : Bool := false
  subset : Option (List Value) := none
deriving Repr

structure StateRule where
  schema : Value
  effect : Effect
  conditions : List Condition := []
  /-- What the rule is called; empty values say nothing. -/
  name : Value := .text ""
deriving Repr

namespace Effect

def isOnAll (e : Effect) : Bool := Value.isIn (.text "*") e.onFields

def covers (e : Effect) (field : String) : Bool := e.isOnAll || Value.isIn (.text field) e.onFields

def fieldsIn (e : Effect) (s : Schema) : List String :=
  if e.isOnAll then s.fieldNames else
    e.onFields.filterMap fun v => match v with
      | .text name => if s.declares name then some name else none
      | _ => none

def assertsAnything (e : Effect) : Bool :=
  e.immutable || e.required || e.hidden || e.subset.isSome

def readFields (given : Value) : Except Failure (List Value) :=
  match given with
  | .text name => .ok [.text name]
  | v => Definition.members v

/-- The flags of an effect; those in a part of their own come before those beside it. -/
def readFlags (parts : Entries) : Except Failure Entries :=
  match parts.get "flags" with
  | .object flags => .ok (parts.merge flags)
  | v => if v.isTrue then .error (.wrongType ("'" ++ v.kindName ++ "' object is not a mapping"))
    else .ok parts

def readSubset (given : Value) : Except Failure (Option (List Value)) :=
  match given with
  | .null => .ok none
  | v => (Definition.setMembers v).map some

def ofValue (definition : Value) : Except Failure Effect := do
  let parts ← Definition.entries definition
  let flags ← readFlags parts
  return {
    onFields := ← readFields (Definition.either parts "on_fields" "onFields" (.text "*"))
    immutable := (flags.get "immutable").isTrue
    required := (flags.get "required").isTrue
    hidden := (flags.get "hidden").isTrue
    subset := ← readSubset (Definition.either flags "enum_subset" "enumSubset" .null) }

end Effect

namespace StateRule

/-- The effect of a rule: a part of its own, or else what stands beside the other parts. -/
def givenEffect (parts : Entries) : Value :=
  let effect := parts.get "effect"
  if effect.isTrue then effect
  else .object (parts.filter fun entry => ! ["schema", "conditions", "name"].contains entry.1)

def ofValue (definition : Value) : Except Failure StateRule := do
  let parts ← Definition.entries definition
  let schema ← Definition.require parts "schema"
  let effect ← Effect.ofValue (givenEffect parts)
  let conditions ← Condition.readAll (parts.get "conditions")
  return { schema, effect, conditions, name := givenName parts }

def paths (r : StateRule) : List Path := r.conditions.flatMap Condition.paths

def label (r : StateRule) : Value :=
  if r.name.isTrue then r.name
  else .text (r.schema.embedded ++ ":state" ++ Value.displayAll r.effect.onFields)

end StateRule

end RecordRules
