import RecordRules.Definition
import RecordRules.Value.Order

/-!
Fields: what a record may hold under a name. A field checks single values; a reference field
also says which schema the records belong to that it refers to.
-/
namespace RecordRules

inductive FieldKind where
  | text
  | int
  | float
  | bool
  /-- Milliseconds since the epoch. -/
  | timestamp
  | json
  | enum
  | reference
  | texts
  | ints
deriving DecidableEq, Repr

namespace FieldKind

def name : FieldKind → String
  | text => "str"
  | int => "int"
  | float => "float"
  | bool => "bool"
  | timestamp => "timestamp"
  | json => "json"
  | enum => "enum"
  | reference => "ref"
  | texts => "list_str"
  | ints => "list_int"

def all : List FieldKind :=
  [text, int, float, bool, timestamp, json, enum, reference, texts, ints]

def ofName? (given : String) : Option FieldKind := all.find? fun k => k.name == given

theorem ofName?_name (k : FieldKind) : ofName? k.name = some k := by cases k <;> rfl

end FieldKind

inductive Cardinality where
  | one
  | many
deriving DecidableEq, Repr

namespace Cardinality

def name : Cardinality → String
  | one => "one"
  | many => "many"

def all : List Cardinality := [one, many]

end Cardinality

/-- The kind that a definition gives a field. What is no text names no kind; such a field takes
values of all kinds, but it cannot be written down again. -/
inductive GivenKind where
  | known (kind : FieldKind)
  | other (given : Value)
deriving Repr

def GivenKind.isKind : GivenKind → FieldKind → Bool
  | known kind, expected => kind = expected
  | other _, _ => false

/-- A field of a schema. The parts that are plain values stand as they were given. -/
structure Field where
  name : String
  kind : GivenKind
  required : Bool := false
  default : Value := .null
  /-- The values of an enumeration; empty for all other fields. -/
  enumValues : List Value := []
  /-- Bounds of a number, or of the length of a text or list. -/
  min : Value := .null
  max : Value := .null
  /-- The name of the schema that the field refers to; empty values name none. -/
  refer : Value := .null
  unique : Bool := false
  description : Value := .text ""
deriving Repr

inductive Measure where
  | value
  | length
deriving DecidableEq, Repr

def Measure.name : Measure → String
  | value => "value"
  | length => "length"

inductive FieldComplaint where
  | missing (field : String)
  | notText (field kind : String)
  | notListed (field : String) (listed : List Value) (given : String)
  | wrongKind (field : String) (kind : FieldKind)
  | tooSmall (field : String) (measure : Measure) (bound given : Value)
  | tooLarge (field : String) (measure : Measure) (bound given : Value)
deriving Repr

def FieldComplaint.text : FieldComplaint → String
  | missing field => "Field '" ++ field ++ "' is required"
  | notText field kind => "Field '" ++ field ++ "' must be a string, got " ++ kind
  | notListed field listed given =>
    "Field '" ++ field ++ "' must be one of " ++ Value.displayGroup listed ++ ", got '"
      ++ given ++ "'"
  | wrongKind field kind => "Field '" ++ field ++ "' has invalid type for kind " ++ kind.name
  | tooSmall field measure bound given =>
    "Field '" ++ field ++ "' " ++ measure.name ++ " must be >= " ++ bound.display ++ ", got "
      ++ given.display
  | tooLarge field measure bound given =>
    "Field '" ++ field ++ "' " ++ measure.name ++ " must be <= " ++ bound.display ++ ", got "
      ++ given.display

def FieldComplaint.isWritable : FieldComplaint → Bool
  | notListed _ listed _ => Value.areWritable listed
  | tooSmall _ measure bound given | tooLarge _ measure bound given =>
    bound.isWritable && (measure == .length || given.isWritable)
  | _ => true

def FieldComplaint.written (complaint : FieldComplaint) : Except Failure FieldComplaint :=
  if complaint.isWritable then .ok complaint else .error .tooLong

/-- Whether a value is of a kind. Enumerated values are checked by their listing instead. -/
def FieldKind.accepts : FieldKind → Value → Bool
  | .text, .text _ => true
  | .int, .int _ => true
  | .float, .int _ => true
  | .float, .float _ => true
  | .float, .nan _ => true
  | .bool, .bool _ => true
  | .timestamp, .int n => 0 ≤ n
  | .json, _ => true
  | .enum, _ => true
  | .reference, .text s => s != ""
  | .texts, .list items => items.all fun item => match item with
    | .text _ => true
    | _ => false
  | .ints, .list items => items.all fun item => match item with
    | .int _ => true
    | _ => false
  | _, _ => false

/-- What bounds are compared with: the length of a text or list, or a number itself. -/
def Value.measure? : Value → Option (Measure × Value)
  | .text s => some (.length, .int s.length)
  | .list items => some (.length, .int items.length)
  | .int n => some (.value, .int n)
  | .float x => some (.value, .float x)
  | .nan mark => some (.value, .nan mark)
  | _ => none

namespace Field

def isOf (f : Field) (kind : FieldKind) : Bool := f.kind.isKind kind

def boundComplaint? (beyond : Ordering) (complaint : FieldComplaint) (measured bound : Value) :
    Except Failure (Option FieldComplaint) :=
  if bound.isNull then .ok none
  else do
    if (← measured.compare bound) == some beyond then return some (← complaint.written)
    else return none

def boundsComplaint? (f : Field) (v : Value) : Except Failure (Option FieldComplaint) :=
  match v.measure? with
  | none => .ok none
  | some (what, measured) => do
    match ← boundComplaint? .lt (.tooSmall f.name what f.min measured) measured f.min with
    | some complaint => return some complaint
    | none => boundComplaint? .gt (.tooLarge f.name what f.max measured) measured f.max

def enumComplaint? (f : Field) : Value → Except Failure (Option FieldComplaint)
  | .text s =>
    if f.enumValues.isEmpty || Value.isIn (.text s) f.enumValues then .ok none
    else do return some (← (FieldComplaint.notListed f.name f.enumValues s).written)
  | v => .ok (some (.notText f.name v.kindName))

def complaint? (f : Field) (v : Value) : Except Failure (Option FieldComplaint) :=
  if v.isNull then .ok (if f.required then some (.missing f.name) else none)
  else match f.kind with
    | .known .enum => f.enumComplaint? v
    | .known kind =>
      if kind.accepts v then f.boundsComplaint? v else .ok (some (.wrongKind f.name kind))
    | .other given => if given.isKey then f.boundsComplaint? v else .error (.notAKey given)

def cardinality (f : Field) : Cardinality := if f.unique then .one else .many

def target? (f : Field) : Option Value := if f.refer.isTrue then some f.refer else none

def refersTo (f : Field) (schema : Value) : Bool := f.target?.any fun given => given.same schema

private def entryIf (condition : Bool) (key : String) (v : Value) : Entries :=
  if condition then [(key, v)] else []

/-- The definition of a field as an object; parts that say nothing are left out. -/
def entries (f : Field) : Except Failure Entries :=
  match f.kind with
  | .other _ => .error .noSuchPart
  | .known kind => .ok <|
    [("name", .text f.name), ("kind", .text kind.name)]
      ++ entryIf f.required "required" (.bool true)
      ++ entryIf (!f.default.isNull) "default" f.default
      ++ entryIf (!f.enumValues.isEmpty) "enum_values" (.list f.enumValues)
      ++ entryIf (!f.min.isNull) "min" f.min
      ++ entryIf (!f.max.isNull) "max" f.max
      ++ entryIf f.refer.isTrue "refer" f.refer
      ++ entryIf f.unique "unique" (.bool true)
      ++ entryIf f.description.isTrue "description" f.description

def toValue (f : Field) : Except Failure Value := do return .object (← f.entries)

def checkBounds (f : Field) : Except Failure Unit :=
  if f.min.isNull || f.max.isNull then .ok ()
  else do
    if (← f.min.compare f.max) == some .gt then throw (.invalid (.crossedBounds f.name))

def check (f : Field) : Except Failure Field :=
  let fault (problem : ValueProblem) : Except Failure Field := .error (.invalid problem)
  if f.name = "" then fault .emptyFieldName
  else if f.name.startsWith "$" || f.name.contains '.' then fault (.reservedFieldName f.name)
  else if f.isOf .enum && f.enumValues.isEmpty then fault (.enumWithoutValues f.name)
  else if f.isOf .reference && f.target?.isNone then fault (.referenceWithoutSchema f.name)
  else if f.target?.isSome && !f.isOf .reference then fault (.misplacedReference f.name)
  else do
    f.checkBounds
    return f

/-- The kind that a definition names: a reference if it names a schema, or else text, when it
names none. -/
def givenKind (definition : Entries) : Value :=
  let kind := definition.get "kind"
  if kind.isTrue then kind
  else if (definition.get "refer").isTrue then .text "ref" else .text "str"

def givenEnumValues (definition : Entries) : Except Failure (List Value) :=
  let listed := definition.get "enum_values"
  if listed.isTrue then Definition.members listed else .ok []

/-- The name in a definition. Empty values name nothing; other values that are no texts have no
characters to check. -/
def givenName (v : Value) : Except Failure String :=
  match v with
  | .text s => .ok s
  | v => if v.isTrue then .error .noSuchPart else .ok ""

def kindOf (given : Value) : Except Failure GivenKind :=
  match given with
  | .text s => match FieldKind.ofName? s with
    | some kind => .ok (.known kind)
    | none => .error (.invalid (.invalidKind s (FieldKind.all.map FieldKind.name)))
  | v => .ok (.other v)

def ofEntries (definition : Entries) : Except Failure Field := do
  let name ← Definition.require definition "name"
  let enumValues ← givenEnumValues definition
  let kind ← kindOf (givenKind definition)
  let name ← givenName name
  check {
    name, kind, enumValues
    min := definition.get "min"
    max := definition.get "max"
    refer := definition.get "refer"
    description := (definition.find? "description").getD (.text "")
    required := (definition.get "required").isTrue
    default := definition.get "default"
    unique := (definition.get "unique").isTrue }

def ofValue (definition : Value) : Except Failure Field := do
  ofEntries (← Definition.entries definition)

def attributes (definition : Entries) : List Value :=
  let listed := definition.get "enum_values"
  [definition.get "name",
    givenKind definition,
    (definition.find? "required").getD (.bool false),
    definition.get "default",
    if listed.isTrue then .list ((Definition.members listed).toOption.getD []) else .null,
    definition.get "min",
    definition.get "max",
    definition.get "refer",
    (definition.find? "unique").getD (.bool false),
    (definition.find? "description").getD (.text "")]

/-- Whether the written definition of the field says the same as a given one, part by part. -/
def restates (f : Field) (definition : Entries) : Except Failure Bool := do
  return Value.sameItems (attributes definition) (attributes (← f.entries))

end Field

end RecordRules
