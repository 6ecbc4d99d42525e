import RecordRules.Failure
import RecordRules.Value.Compare

/-!
Reading definitions that are given as plain data. A definition that is not an object has no
parts; a part that must be there is named when it is missing.
-/
namespace RecordRules.Definition

def entries : Value → Except Failure Entries
  | .object entries => .ok entries
  | _ => .error .noSuchPart

/-- The entries of an object that is asked for its parts by name at once. -/
def parts : Value → Except Failure Entries
  | .object entries => .ok entries
  | v => .error (.wrongType ("'" ++ v.kindName ++ "' object has no parts"))

def require (definition : Entries) (key : String) : Except Failure Value :=
  match definition.find? key with
  | some v => .ok v
  | none => .error (.missingKey key)

def either (definition : Entries) (key other : String) (default : Value) : Value :=
  match definition.find? key with
  | some v => v
  | none => (definition.find? other).getD default

def notIterable (v : Value) : Failure :=
  .wrongType ("'" ++ v.kindName ++ "' object is not iterable")

/-- The members of a collection: of a list its items, of a text its characters, of an object
its keys. -/
def members : Value → Except Failure (List Value)
  | .list items => .ok items
  | .text s => .ok (s.toList.map fun c => .text (String.singleton c))
  | .object entries => .ok (entries.map fun entry => .text entry.1)
  | .set items => .ok items
  | v => .error (notIterable v)

def text : Value → Except Failure String
  | .text s => .ok s
  | v => .error (.wrongType ("expected text, got " ++ v.kindName))

def number (v : Value) : Except Failure Number :=
  match Number.of? v with
  | some n => .ok n
  | none => .error (.wrongType ("expected a number, got " ++ v.kindName))

def number? : Value → Except Failure (Option Number)
  | .null => .ok none
  | v => (number v).map some

/-- The distinct members of a collection, all of which must be fit to be in a set. -/
def setMembers (v : Value) : Except Failure (List Value) := do
  let items ← members v
  match items.find? fun item => !item.isKey with
  | some item => .error (.notAKey item)
  | none => .ok (Value.distinct items)

def named? {α : Type} (members : List α) (name : α → String) (given : Value) : Option α :=
  members.find? fun member => given.same (.text (name member))

/-- The member of an enumeration that a rule definition names. -/
def named {α : Type} (kind : String) (members : List α) (name : α → String) (given : Value) :
    Except Failure α :=
  match named? members name given with
  | some member => .ok member
  | none => .error (.rule (.notAmong kind given (members.map name)))

/-- The member of an enumeration that a call names. -/
def calledFor {α : Type} (kind : String) (members : List α) (name : α → String) (given : Value) :
    Except Failure α :=
  match named? members name given with
  | some member => .ok member
  | none => .error (.invalid (.notA kind given))

end RecordRules.Definition
