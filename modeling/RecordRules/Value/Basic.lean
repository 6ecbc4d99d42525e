import RecordRules.Key
import RecordRules.Keyed

/-!
Field values. A value is plain data (nothing, a truth value, a number, a text, a list or an
object); rules can also put a set of names or a whole record into a field.
-/
namespace RecordRules

inductive Value where
  | null
  | bool (b : Bool)
  | int (n : Int)
  | float (x : Binary64)
  /-- A floating point value that is no number. The mark says which one it is. -/
  | nan (mark : Nat)
  | text (s : String)
  | list (items : List Value)
  | object (entries : List (String × Value))
  | set (members : List Value)
  | record (schema id : Key) (data : List (String × Value))
deriving Repr, Inhabited

abbrev Entries := Keyed String Value

namespace Value

def kindName : Value → String
  | null => "NoneType"
  | bool _ => "bool"
  | int _ => "int"
  | float _ | nan _ => "float"
  | text _ => "str"
  | list _ => "list"
  | object _ => "dict"
  | set _ => "frozenset"
  | record _ _ _ => "Record"

/-- A value counts as true unless it is nothing, false, zero or empty. -/
def isTrue : Value → Bool
  | null => false
  | bool b => b
  | int n => n != 0
  | float x => !x.isZero
  | nan _ => true
  | text s => s != ""
  | list items => !items.isEmpty
  | object entries => !entries.isEmpty
  | set members => !members.isEmpty
  | record _ _ _ => true

def isNull : Value → Bool
  | null => true
  | _ => false

def isNaN : Value → Bool
  | nan _ => true
  | _ => false

def number? : Value → Option Extended
  | bool b => some (.ofInt (if b then 1 else 0))
  | int n => some (.ofInt n)
  | float x => some x.place
  | _ => none

/-- Whether a value can be compared with numbers, whatever comes out. -/
def isNumeric (v : Value) : Bool := v.number?.isSome || v.isNaN

/-- A value can be a member of a set unless it holds parts that may change. -/
def isKey : Value → Bool
  | list _ | object _ | record _ _ _ => false
  | _ => true

/-- The kind named when a value cannot be a member of a set; records fail by their data. -/
def keyFault : Value → String
  | record _ _ _ => "dict"
  | v => v.kindName

/-- Plain data, as it can be written down: no sets, no records and nothing that is no number, at any
depth. -/
def isPlain : Value → Bool
  | list items => plainItems items
  | object entries => plainEntries entries
  | set _ | record _ _ _ | nan _ => false
  | _ => true
where
  plainItems : List Value → Bool
    | [] => true
    | v :: rest => isPlain v && plainItems rest
  plainEntries : List (String × Value) → Bool
    | [] => true
    | (_, v) :: rest => isPlain v && plainEntries rest

end Value

def Key.toValue : Key → Value
  | null => .null
  | bool b => .bool b
  | int n => .int n
  | float x => .float x
  | text s => .text s

namespace Value

def key? : Value → Option Key
  | null => some .null
  | bool b => some (.bool b)
  | int n => some (.int n)
  | float x => some (.float x)
  | text s => some (.text s)
  | _ => none

@[simp] theorem key?_toValue (k : Key) : k.toValue.key? = some k := by cases k <;> rfl

theorem toValue_of_key? {v : Value} {k : Key} (h : v.key? = some k) : k.toValue = v := by
  cases v <;> simp_all [key?] <;> subst h <;> rfl

end Value

structure Number where
  value : Value
  isNumeric : value.isNumeric = true
deriving Repr

namespace Number

def of? (v : Value) : Option Number := if h : v.isNumeric = true then some ⟨v, h⟩ else none

def ofInt (n : Int) : Number := ⟨.int n, rfl⟩

instance : Inhabited Number := ⟨ofInt 0⟩

end Number

def Entries.get (entries : Entries) (name : String) : Value := (entries.find? name).getD .null

end RecordRules
