import RecordRules.Rule.Augmentation

/-!
Contracts: the shape of one operation on one schema, composed from the augmentations. A nested
record without an augmentation of its own takes the one of records that stand alone; a schema
without any takes part with all fields and no children.
-/
namespace RecordRules

structure Contract where
  schema : Schema
  target : Target
  placement : Placement
  ownFields : List String
  children : List ChildRequirement := []
  /-- The field of a nested record that refers to its parent. -/
  referBack : Option String := none
deriving Repr

namespace Contract

def aliases (c : Contract) : List Value := c.children.map ChildRequirement.key

def child? (c : Contract) (key : Value) : Option ChildRequirement :=
  c.children.find? fun r => r.key.same key

def allows (c : Contract) (key : String) : Bool :=
  c.ownFields.contains key || Value.isIn (.text key) c.aliases || c.referBack == some key

end Contract

structure ContractBook where
  augmentations : List Augmentation := []
  frozen : Bool := false
deriving Repr

namespace ContractBook

def ruleFor? (b : ContractBook) (schema : Key) (target : Target) (placement : Placement) :
    Option Augmentation :=
  b.augmentations.find? fun a =>
    a.schema.names schema && a.target == target && a.placement == placement

/-- A child schema refers to its parent, and its alias hides no field of the parent. -/
def checkChild (c : Catalog) (a : Augmentation) (s : Schema) (r : ChildRequirement) :
    Except Failure Unit := do
  let some child ← c.named? r.schema | throw (.rule (.unknownChildSchema r.schema))
  if !child.fields.any fun f => f.refersTo a.schema then
    throw (.rule (.notReferring r.schema a.schema))
  if s.declaresNamed r.key then throw (.rule (.aliasShadowsField r.key a.schema))
  let undeclared := r.requiredFields.filter fun name => !child.declaresNamed name
  if !undeclared.isEmpty then throw (.rule (.undeclaredRequiredFields undeclared r.schema))

def checkAugmentation (c : Catalog) (a : Augmentation) : Except Failure Unit := do
  let some s ← c.named? a.schema | throw (.rule (.unknownSchema a.schema))
  let unknown := Text.sorted (a.select.names.filter fun name => !s.declares name)
  if !unknown.isEmpty then throw (.rule (.unknownSelected unknown a.schema))
  a.children.forM (checkChild c a s)

def add (b : ContractBook) (c : Catalog) (a : Augmentation) : Except Failure ContractBook := do
  if b.frozen then throw (.frozen (.newAugmentation a.schema))
  if (b.ruleFor? (← Key.ofValue a.schema) a.target a.placement).isSome then
    throw (.duplicateAugmentation a.schema a.target.name a.placement.name)
  checkAugmentation c a
  return { b with augmentations := b.augmentations ++ [a] }

/-- The augmentation that applies: nested records fall back to that of records on their own. -/
def effective? (b : ContractBook) (schema : Value) (target : Target) (placement : Placement) :
    Option Augmentation :=
  schema.key?.bind fun name =>
    match b.ruleFor? name target placement with
    | some a => some a
    | none => if placement = .nested then b.ruleFor? name target .alone else none

def contractOf (b : ContractBook) (s : Schema) (target : Target) (placement : Placement)
    (parent : Value := .null) : Contract :=
  let referBack := (s.fields.find? fun f => f.refersTo parent).map Field.name
  match b.effective? s.name target placement with
  | none => { schema := s, target, placement, ownFields := s.fieldNames, referBack }
  | some a =>
    { schema := s, target, placement, ownFields := a.select.apply s, children := a.children,
      referBack }

def compose (b : ContractBook) (c : Catalog) (schema : Key) (target : Target)
    (placement : Placement := .alone) (parent : Value := .null) : Except Failure Contract := do
  return b.contractOf (← c.require schema) target placement parent

def nested (b : ContractBook) (c : Catalog) (parent : Contract) (r : ChildRequirement) : Contract :=
  let s := (r.schema.key?.bind c.get?).getD { name := r.schema }
  b.contractOf s parent.target .nested parent.schema.name

end ContractBook

end RecordRules
