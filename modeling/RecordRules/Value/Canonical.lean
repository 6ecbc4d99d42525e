import RecordRules.Value.Basic
import RecordRules.Number.Decimal
import RecordRules.Text.Quoted
import RecordRules.Text.Sorted

/-!
The canonical text of plain data: one line of JSON without blanks, in ASCII, the entries of an
object in the order of their names.
-/
namespace RecordRules.Canonical

def escapeUnit (n : Nat) : List Char := '\\' :: 'u' :: Text.hex 4 n

/-- A character as an escape: beyond sixteen bits it takes two units. -/
def escapeCode (code : Nat) : List Char :=
  if code < 0x10000 then escapeUnit code
  else escapeUnit (0xD800 + (code - 0x10000) / 0x400)
    ++ escapeUnit (0xDC00 + (code - 0x10000) % 0x400)

def writeChar (c : Char) : List Char :=
  if c = '"' || c = '\\' then ['\\', c]
  else if c = '\n' then ['\\', 'n']
  else if c = '\r' then ['\\', 'r']
  else if c = '\t' then ['\\', 't']
  else if c = '\x08' then ['\\', 'b']
  else if c = '\x0c' then ['\\', 'f']
  else if 32 ≤ c.toNat && c.toNat ≤ 126 then [c]
  else escapeCode c.toNat

def writeText (s : String) : List Char := '"' :: s.toList.flatMap writeChar ++ ['"']

def join : List (List Char) → List Char
  | [] => []
  | [member] => member
  | member :: rest => member ++ ',' :: join rest

def writeObject (written : Keyed String (List Char)) : List Char :=
  let ordered := Text.sortBy (fun a b => decide (a.1 ≤ b.1)) written
  '\x7b' :: join (ordered.map fun entry => writeText entry.1 ++ ':' :: entry.2) ++ ['\x7d']

/-- Infinite numbers are written as words. -/
def writeFloat : Binary64 → List Char
  | .finite x => x.text.toList
  | .infinite negative => (if negative then "-Infinity" else "Infinity").toList

mutual

/-- The canonical text of plain data. Sets and records have none. -/
def write : Value → List Char
  | .null => "null".toList
  | .bool b => if b then "true".toList else "false".toList
  | .int n => (toString n).toList
  | .float x => writeFloat x
  | .nan _ => "NaN".toList
  | .text s => writeText s
  | .list items => '[' :: join (writeItems items) ++ [']']
  | .object entries => writeObject (writeEntries entries)
  | .set _ | .record _ _ _ => []

def writeItems : List Value → List (List Char)
  | [] => []
  | v :: rest => write v :: writeItems rest

def writeEntries : List (String × Value) → Keyed String (List Char)
  | [] => []
  | (name, v) :: rest => (name, write v) :: writeEntries rest

end

end RecordRules.Canonical

def RecordRules.Value.canonical (v : RecordRules.Value) : String :=
  String.ofList (RecordRules.Canonical.write v)
