import RecordRules.Schema.Catalog

/-!
Augmentations: which fields and which children take part when records of a schema are created,
viewed or edited, on their own or nested under a parent.
-/
namespace RecordRules

inductive Target where
  | create
  | view
  | edit
deriving DecidableEq, Repr

namespace Target

def name : Target → String
  | create => "toCreate"
  | view => "toView"
  | edit => "toEdit"

def all : List Target := [create, view, edit]

def called (given : Value) : Except Failure Target := Definition.calledFor "Target" all name given

end Target

inductive Placement where
  | alone
  | nested
deriving DecidableEq, Repr

namespace Placement

def name : Placement → String
  | alone => "slf"
  | nested => "nested"

def all : List Placement := [alone, nested]

def called (given : Value) : Except Failure Placement :=
  Definition.calledFor "Context" all name given

end Placement

inductive Selection where
  | all
  | except (names : List String)
  | only (names : List String)
deriving DecidableEq, Repr

namespace Selection

def mode : Selection → String
  | all => "all"
  | except _ => "exclude"
  | only _ => "explicit"

def names : Selection → List String
  | all => []
  | except names | only names => names

def chooses : Selection → String → Bool
  | all, _ => true
  | except names, field => !names.contains field
  | only names, field => names.contains field

def apply (selection : Selection) (s : Schema) : List String :=
  s.fieldNames.filter selection.chooses

/-- The name of a field that is left out, when it is written so. -/
def leftOut? (item : String) : Option String :=
  match item.toList with
  | '!' :: name => some (String.ofList name)
  | _ => none

/-- A choice from its items: names, or names that are left out, but not both. -/
def ofItems (given : Value) (items : List String) : Except Failure Selection :=
  if items = [] || items = ["*"] then .ok .all
  else
    let negated := items.filterMap leftOut?
    let plain := items.filter fun item => (leftOut? item).isNone && item != "*"
    match negated, plain with
    | [], plain => .ok (.only (Text.distinct plain))
    | negated, [] => .ok (.except (Text.distinct negated))
    | _, _ => .error (.rule (.mixedSelection given))

/-- The items of a selection: a single one, or a collection. -/
def givenItems (given : Value) : Except Failure (List String) := do
  match given with
  | .text s => return [s]
  | v => (← Definition.members v).mapM fun item => match item with
    | .text s => .ok s
    | _ => .error .noSuchPart

def ofValue (given : Value) : Except Failure Selection := do
  match given with
  | .null => return .all
  | v => ofItems given (← givenItems v)

end Selection

structure ChildRequirement where
  schema : Value
  key : Value
  cardinality : Cardinality := .many
  minItems : Number := .ofInt 0
  maxItems : Option Number := none
  requiredFields : List Value := []
  required : Bool := false
deriving Repr

namespace ChildRequirement

def isMandatory (r : ChildRequirement) : Bool :=
  r.required || r.minItems.value.isGreater (.int 0)

def ofValue (definition : Value) : Except Failure ChildRequirement := do
  let parts ← Definition.entries definition
  let schema := Definition.either parts "schema" "target" .null
  let key := (parts.find? "alias").getD schema
  let cardinality ← Definition.named "Cardinality" Cardinality.all Cardinality.name
    ((parts.find? "cardinality").getD (.text "many"))
  let requiredFields ←
    Definition.members (Definition.either parts "required_fields" "requiredFields" (.list []))
  let minItems ← Definition.number (Definition.either parts "min_items" "minItems" (.int 0))
  if minItems.value.isLess (.int 0) then throw (.rule (.negativeMinItems key))
  let maxItems ← Definition.number? (Definition.either parts "max_items" "maxItems" .null)
  if maxItems.any fun bound => bound.value.isLess minItems.value then
    throw (.rule (.maxItemsBelowMin key))
  return {
    schema, key, cardinality, minItems, maxItems, requiredFields
    required := (parts.get "required").isTrue }

end ChildRequirement

structure Augmentation where
  schema : Value
  target : Target
  placement : Placement := .alone
  select : Selection := .all
  children : List ChildRequirement := []
deriving Repr

namespace Augmentation

def check (a : Augmentation) : Except Failure Augmentation := do
  let aliases ← (a.children.map ChildRequirement.key).mapM Key.ofValue
  if aliases.length ≠ (Text.distinct aliases).length then throw (.rule (.duplicateAlias a.schema))
  return a

def ofValue (definition : Value) : Except Failure Augmentation := do
  let parts ← Definition.parts definition
  let schema ← Definition.require parts "schema"
  let target ← Definition.named "Target" Target.all Target.name
    (← Definition.require parts "target")
  let placement ← Definition.named "Context" Placement.all Placement.name
    ((parts.find? "context").getD (.text "slf"))
  let select ← Selection.ofValue ((parts.find? "select").getD (.text "*"))
  let given ← Definition.members ((parts.find? "refers").getD (.list []))
  check { schema, target, placement, select, children := ← given.mapM ChildRequirement.ofValue }

end Augmentation

end RecordRules
