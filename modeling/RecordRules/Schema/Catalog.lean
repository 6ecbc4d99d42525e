import RecordRules.Schema.Basic
import RecordRules.Step
import RecordRules.Value.Canonical
import RecordRules.Digest.Sha256

/-!
The catalog of schemas. Schemas are added until the catalog is frozen; freezing fixes its
fingerprint. References between schemas are recorded as edges when a schema is added, whether or
not the schema referred to is there yet.
-/
namespace RecordRules

structure Edge where
  parent : Key
  child : Key
  field : Field
deriving Repr

structure Catalog where
  /-- Under their names, in order of registration. -/
  schemas : Keyed Key Schema := []
  edges : List Edge := []
  fingerprint : Option String := none
deriving Repr

namespace Catalog

def frozen (c : Catalog) : Bool := c.fingerprint.isSome

def names (c : Catalog) : List Key := c.schemas.names

def get? (c : Catalog) (name : Key) : Option Schema := c.schemas.find? name

def has (c : Catalog) (name : Key) : Bool := (c.get? name).isSome

def require (c : Catalog) (name : Key) : Except Failure Schema :=
  match c.get? name with
  | some s => .ok s
  | none => .error (.naming [name] (.unknownSchema name.toValue))

theorem get?_of_require {c : Catalog} {name : Key} {s : Schema}
    (required : c.require name = .ok s) :
    c.get? name = some s := by
  rw [require] at required
  split at required
  · rename_i found
    rw [found, Except.ok.inj required]
  · cases required

def named? (c : Catalog) (name : Value) : Except Failure (Option Schema) := do
  return c.get? (← Key.ofValue name)

def requireNamed (c : Catalog) (name : Value) : Except Failure Schema := do
  c.require (← Key.ofValue name)

def addEdges (child : Key) : List Field → Step Catalog Unit
  | [] => pure ()
  | f :: rest => do
    let parent ← Step.ofExcept (Key.ofValue f.refer)
    modify fun c => { c with edges := c.edges ++ [⟨parent, child, f⟩] }
    addEdges child rest

def register (s : Schema) : Step Catalog Unit := do
  let c ← get
  if c.frozen then throw (.frozen (.newSchema s.name))
  let name ← Step.ofExcept (Key.ofValue s.name)
  if c.has name then throw (.duplicateSchema s.name)
  set { c with schemas := c.schemas ++ [(name, s)] }
  addEdges name s.referFields

def parentsOf (c : Catalog) (name : Key) : Except Failure (List Key) := do
  let s ← c.require name
  return Text.distinct (← s.referFields.mapM fun f => Key.ofValue f.refer)

def childrenOf (c : Catalog) (name : Key) : List (Key × Field) :=
  (c.edges.filter fun e => e.parent == name).map fun e => (e.child, e.field)

/-- The first field of the child that refers to the parent. -/
def referField? (c : Catalog) (child : Key) (parent : Value) : Except Failure (Option Field) := do
  let s ← c.require child
  return s.fields.find? fun f => f.refersTo parent

def danglingReference? (c : Catalog) (s : Schema) (f : Field) : Except Failure (Option String) := do
  if (← c.named? f.refer).isSome then return none
  else return some ("Field '" ++ f.name ++ "' in schema '" ++ s.name.embedded
    ++ "' refers to unknown schema '" ++ f.refer.embedded ++ "'")

def danglingReferences (c : Catalog) : Except Failure (List String) := do
  let found ← c.schemas.mapM fun (_, s) => s.referFields.mapM (c.danglingReference? s)
  return found.flatten.filterMap id

def toValue (c : Catalog) : Except Failure Value := do
  let ordered ← Value.sorted? (c.names.map Key.toValue)
  let schemas ← (ordered.filterMap fun name => name.key?.bind c.get?).mapM Schema.toValue
  return .object [("schemas", .list schemas)]

def canonicalText (c : Catalog) : Except Failure String := do return (← c.toValue).canonical

def digestText (s : String) : String :=
  String.ofList ((Sha256.digest s.toUTF8.toList).flatMap fun w => Text.hex 8 w.toNat)

/-- Catalogs with the same schemas have the same fingerprint, whatever their order. -/
def computeFingerprint (c : Catalog) : Except Failure String := do
  return "sha256:" ++ digestText (← c.canonicalText)

def freeze : Step Catalog String := do
  let c ← get
  if c.frozen then throw (.frozen .catalog)
  let fingerprint ← Step.ofExcept c.computeFingerprint
  set { c with fingerprint := some fingerprint }
  return fingerprint

def ofValue (definition : Value) : Except Failure Catalog := do
  let parts ← Definition.entries definition
  let given ← Definition.members ((parts.find? "schemas").getD (.list []))
  let load : Step Catalog Unit := given.forM fun v => do
    register (← Step.ofExcept (Schema.ofValue v))
  match Step.exec load {} with
  | (.ok _, c) => .ok c
  | (.error failure, _) => .error failure

end Catalog

end RecordRules
