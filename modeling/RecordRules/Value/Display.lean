import RecordRules.Value.Basic
import RecordRules.Number.Decimal
import RecordRules.Text.Digit
import RecordRules.Text.Quoted

/-!
The text of a value in messages: texts in quotes, lists in brackets, objects in braces. Whole
numbers with too many digits are not written.
-/
namespace RecordRules

structure Spelling where
  null : String
  yes : String
  no : String
  nan : String
  emptySet : String
  openSet : String
  closeSet : String

/-- Nothing and the truth values are written with a capital; sets are named as such. -/
def spelling : Spelling :=
  ⟨"None", "True", "False", "nan", "frozenset()", "frozenset(\x7b", "\x7d)"⟩

def Key.display : Key → String
  | null => spelling.null
  | bool b => if b then spelling.yes else spelling.no
  | int n => toString n
  | float x => x.text
  | text s => Text.quote s

def Key.isWritable : Key → Bool
  | int n => n.natAbs < Nat.pow 10 Text.maxDigits
  | _ => true

namespace Value

mutual

def display : Value → String
  | null => spelling.null
  | bool b => if b then spelling.yes else spelling.no
  | int n => toString n
  | float x => x.text
  | nan _ => spelling.nan
  | text s => Text.quote s
  | list items => "[" ++ ", ".intercalate (displayItems items) ++ "]"
  | object entries => "\x7b" ++ ", ".intercalate (displayEntries entries) ++ "\x7d"
  | set [] => spelling.emptySet
  | set (v :: rest) =>
    spelling.openSet ++ ", ".intercalate (display v :: displayItems rest) ++ spelling.closeSet
  | record schema id data =>
    "Record(schema=" ++ schema.display ++ ", id=" ++ id.display ++ ", data=\x7b"
      ++ ", ".intercalate (displayEntries data) ++ "\x7d)"

def displayItems : List Value → List String
  | [] => []
  | v :: rest => display v :: displayItems rest

def displayEntries : List (String × Value) → List String
  | [] => []
  | (name, v) :: rest => (Text.quote name ++ ": " ++ display v) :: displayEntries rest

end

mutual

/-- Whether all whole numbers in a value are short enough to be written. -/
def isWritable : Value → Bool
  | int n => n.natAbs < Nat.pow 10 Text.maxDigits
  | list items | set items => areWritable items
  | object entries => areWritableEntries entries
  | record schema id data => schema.isWritable && id.isWritable && areWritableEntries data
  | _ => true

def areWritable : List Value → Bool
  | [] => true
  | v :: rest => isWritable v && areWritable rest

def areWritableEntries : List (String × Value) → Bool
  | [] => true
  | (_, v) :: rest => isWritable v && areWritableEntries rest

end

/-- The text of a value where a message embeds it: a text stands for itself. -/
def embedded : Value → String
  | text s => s
  | v => v.display

def displayAll (members : List Value) : String := (list members).display

/-- Values in parentheses; a single one keeps a comma. -/
def displayGroup (members : List Value) : String :=
  match members with
  | [v] => "(" ++ v.display ++ ",)"
  | _ => "(" ++ ", ".intercalate (displayItems members) ++ ")"

end Value

def Key.embedded (k : Key) : String := k.toValue.embedded

end RecordRules
