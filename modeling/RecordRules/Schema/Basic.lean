import RecordRules.Schema.Field
import RecordRules.Text.Similar

/-!
Schemas: named lists of fields, and the check of a payload against them.
-/
namespace RecordRules

/-- A record type. The order of the fields is the order of their checks and of traversal. -/
structure Schema where
  /-- A text as a rule; what counts as true names a schema. -/
  name : Value
  fields : List Field := []
  description : Value := .text ""
deriving Repr

inductive PayloadComplaint where
  | unknown (names : List String)
  | field (complaint : FieldComplaint)
deriving Repr

def PayloadComplaint.text : PayloadComplaint → String
  | unknown names => "Unknown fields: " ++ Text.quoteAll names
  | field complaint => complaint.text

namespace Schema

def fieldNames (s : Schema) : List String := s.fields.map Field.name

def field? (s : Schema) (name : String) : Option Field := s.fields.find? fun f => f.name == name

theorem name_of_field? {s : Schema} {name : String} {f : Field} (found : s.field? name = some f) :
    f.name = name := by
  rw [field?] at found
  simpa using List.find?_some found

def declares (s : Schema) (name : String) : Bool := (s.field? name).isSome

theorem declares_iff {s : Schema} {name : String} :
    s.declares name = true ↔ ∃ f ∈ s.fields, f.name = name := by
  rw [declares, field?, List.find?_isSome]
  simp only [beq_iff_eq]

def declaresNamed (s : Schema) : Value → Bool
  | .text name => s.declares name
  | _ => false

def requiredFields (s : Schema) : List Field := s.fields.filter Field.required

def referFields (s : Schema) : List Field := s.fields.filter fun f => f.target?.isSome

def unknownNames (s : Schema) (payload : Entries) : List String :=
  Text.sorted (payload.names.filter fun name => !s.declares name)

/-- The complaint about one field of a payload. A partial payload is only checked where it has
entries; an exempt field may be left out. -/
def fieldComplaint? (payload : Entries) (isPartial : Bool) (exempt : List String) (f : Field) :
    Except Failure (Option FieldComplaint) :=
  match payload.find? f.name with
  | none =>
    if isPartial || exempt.contains f.name then .ok none else f.complaint? f.default
  | some v => if exempt.contains f.name && v.isNull then .ok none else f.complaint? v

def complaints (s : Schema) (payload : Entries) (isPartial : Bool := false)
    (exempt : List String := []) : Except Failure (List PayloadComplaint) := do
  let unknown := s.unknownNames payload
  let ofFields ← s.fields.mapM (fieldComplaint? payload isPartial exempt)
  return (if unknown.isEmpty then [] else [.unknown unknown])
    ++ (ofFields.filterMap id).map .field

def accepts (s : Schema) (payload : Entries) : Bool :=
  match s.complaints payload with
  | .ok complaints => complaints.isEmpty
  | .error _ => false

def suggest (s : Schema) (word : String) (limit : Int) : Except Failure (List String) :=
  if limit ≤ 0 then .error (.invalid (.nonPositiveLimit limit))
  else .ok (Text.suggestions word s.fieldNames limit.toNat)

/-- Refuse a payload that does not satisfy the schema. The first unknown name is reported alone,
with the names that it resembles. -/
def validate (s : Schema) (payload : Entries) (isPartial : Bool := false)
    (exempt : List String := []) : Except Failure Unit :=
  match s.unknownNames payload with
  | name :: _ =>
    .error (.unknownField name s.name (Text.closest name s.fieldNames 3))
  | [] => do
    let complaints ← s.complaints payload isPartial exempt
    if !complaints.isEmpty then
      throw (.refused (.fields s.name) (complaints.map PayloadComplaint.text))

def entries (s : Schema) : Except Failure Entries := do
  let fields ← s.fields.mapM Field.toValue
  return [("name", s.name), ("fields", .list fields)]
    ++ (if s.description.isTrue then [("description", s.description)] else [])

def toValue (s : Schema) : Except Failure Value := do return .object (← s.entries)

def check (s : Schema) : Except Failure Schema :=
  if !s.name.isTrue then .error (.invalid .emptySchemaName)
  else if s.fieldNames.length ≠ (Text.distinct s.fieldNames).length then
    .error (.invalid (.duplicateField s.name))
  else .ok s

def namedField (name : String) : Value → Except Failure Value
  | .object parts => .ok (.object (Keyed.merge [("name", .text name)] parts))
  | v => .error (.wrongType ("'" ++ v.kindName ++ "' object is not a mapping"))

/-- The field definitions in a schema definition: a collection of them, or an object with a field
definition under each name. -/
def givenFields (definition : Entries) : Except Failure Value :=
  match definition.find? "fields" with
  | none => .ok (.list [])
  | some (.object specs) => do
    return .list (← specs.mapM fun (name, spec) => namedField name spec)
  | some v => .ok v

def ofEntries (definition : Entries) : Except Failure Schema := do
  let given ← givenFields definition
  let name ← Definition.require definition "name"
  let fields ← (← Definition.members given).mapM Field.ofValue
  check { name, fields, description := (definition.find? "description").getD (.text "") }

def ofValue (definition : Value) : Except Failure Schema := do
  ofEntries (← Definition.entries definition)

def restates (s : Schema) (definition : Entries) : Except Failure Bool := do
  let given ← Definition.members (← givenFields definition)
  let agreed ← (s.fields.zip given).mapM fun (f, v) => do
    f.restates (← Definition.entries v)
  return given.length == s.fields.length && agreed.all id

end Schema

end RecordRules
