import RecordRules.Record
import RecordRules.Value.Display

/-!
Events: what happened to a record, with the related records that rules may look at.
-/
namespace RecordRules

inductive EventKind where
  | created
  | modified
  | deleted
deriving DecidableEq, Repr

namespace EventKind

def name : EventKind → String
  | created => "created"
  | modified => "modified"
  | deleted => "deleted"

def all : List EventKind := [created, modified, deleted]

end EventKind

/-- What an event is known by when it turns up again: an event that is given or submitted twice is
the same event. -/
inductive EventId where
  | given (n : Nat)
  /-- The event that was first dispatched at this place of the cascade. -/
  | placed (n : Nat)
deriving DecidableEq, Repr

structure Event where
  kind : EventKind
  /-- The record after the change, or before it if it was deleted. -/
  object : Record
  /-- Names of the fields that changed, each once. -/
  modified : List Value := []
  /-- Related records upwards, nearest first. -/
  ancestry : List Record := []
  /-- Related records downwards, nearest first. -/
  descendants : List Record := []
  sequence : Nat := 0
  /-- Nothing for an event that has not been seen before. -/
  identity : Option EventId := none
deriving Repr

namespace Event

def schema (e : Event) : Key := e.object.schema

def parent? (e : Event) : Option Record := e.ancestry.head?

def withRelated (e : Event) (ancestry descendants : List Record) : Event :=
  { e with ancestry, descendants }

def isSame (a b : Event) : Bool := a.identity.isSome && a.identity == b.identity

/-- A new event is known by its place from its dispatch on. -/
def idAt (e : Event) (sequence : Nat) : EventId := e.identity.getD (.placed sequence)

def numbered (e : Event) (sequence : Nat) : Event :=
  { e with sequence, identity := some (e.idAt sequence) }

def created (r : Record) : Event := { kind := .created, object := r }

def modifiedOf (r : Record) (names : List String) : Event :=
  { kind := .modified, object := r, modified := names.map .text }

def deleted (r : Record) : Event := { kind := .deleted, object := r }

def text (e : Event) : String :=
  "Event(" ++ e.kind.name ++ " " ++ e.schema.embedded ++ ":" ++ e.object.id.embedded ++ " seq="
    ++ toString e.sequence ++ ")"

end Event

end RecordRules
