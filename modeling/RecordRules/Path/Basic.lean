import RecordRules.Event

/-!
Paths: where a rule reads a value. A path starts at the record of an event, at the set of its
modified fields, or at a related record upwards or downwards, and then follows names.
-/
namespace RecordRules

inductive Origin where
  | object
  | modified
  | parent
  | child
deriving DecidableEq, Repr

namespace Origin

def name : Origin → String
  | object => "eventObject"
  | modified => "modifiedFields"
  | parent => "parent"
  | child => "child"

def all : List Origin := [object, modified, parent, child]

def isRelational : Origin → Bool
  | parent | child => true
  | object | modified => false

end Origin

structure Path where
  origin : Origin
  /-- The place among the related records, from one. -/
  index : Nat := 1
  /-- Only related records of this schema count. -/
  schema : Option String := none
  /-- A field name, then names inside its value. -/
  tail : List String := []
  source : String
deriving DecidableEq, Repr

/-- How many related records are needed: the first few of them, or all. -/
inductive Extent where
  | upTo (n : Nat)
  | all
deriving DecidableEq, Repr

namespace Extent

def none : Extent := upTo 0

def isNone : Extent → Bool
  | upTo n => n == 0
  | all => false

def join : Extent → Extent → Extent
  | upTo m, upTo n => upTo (max m n)
  | _, _ => all

def coveredBy (extent : Extent) (count : Nat) : Bool :=
  match extent with
  | upTo n => n ≤ count
  | all => false

end Extent

namespace Path

def isRelational (p : Path) : Bool := p.origin.isRelational

def field? (p : Path) : Option String := p.tail.head?

/-- How many related records it takes to follow the path. A record of a given schema can stand
anywhere among them. -/
def extent (p : Path) : Extent :=
  if p.isRelational then (if p.schema.isSome then .all else .upTo p.index) else .none

def text (p : Path) : String := if p.source = "" then p.origin.name else p.source

def sameAs (p q : Path) : Bool :=
  p.origin == q.origin && p.index == q.index && p.schema == q.schema && p.tail == q.tail

end Path

structure Scene where
  object : Option Record
  modified : List Value := []
  ancestors : List Record := []
  descendants : List Record := []
deriving Repr

namespace Scene

def ofEvent (e : Event) : Scene := ⟨some e.object, e.modified, e.ancestry, e.descendants⟩

def ofRecord (r : Record) (ancestors descendants : List Record) : Scene :=
  ⟨some r, [], ancestors, descendants⟩

end Scene

namespace Path

/-- The n-th record of a pool, from one, counting only those of a given schema. -/
def pick (pool : List Record) (index : Nat) (schema : Option String) : Option Record :=
  let counted := match schema with
    | some name => pool.filter fun (r : Record) => r.schema == Key.text name
    | none => pool
  if index = 0 then none else counted[index - 1]?

def descend : Value → List String → Option Value
  | v, [] => some v
  | .object entries, key :: rest =>
    match Keyed.find? entries key with
    | some v => descend v rest
    | none => none
  | _, _ :: _ => none

/-- Follow a tail from a record: a field that the record does not have is read as nothing, a
missing name inside a value leads nowhere. -/
def follow (r : Record) : List String → Option Value
  | [] => some r.toValue
  | field :: rest => descend (r.get field) rest

def resolve (p : Path) (scene : Scene) : Option Value :=
  match p.origin with
  | .modified => some (.set scene.modified)
  | .object => scene.object.bind fun r => follow r p.tail
  | .parent => (pick scene.ancestors p.index p.schema).bind fun r => follow r p.tail
  | .child => (pick scene.descendants p.index p.schema).bind fun r => follow r p.tail

end Path

end RecordRules
