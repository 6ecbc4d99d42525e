import RecordRules.Text.Range

/-!
Decimal digits of every script, and whole numbers written with them. A number may carry a sign
and may group its digits with single underscores.
-/
namespace RecordRules.Text

/-- Code points of the zeros; the nine other digits of a script follow its zero. -/
def zeroCodes : List Nat :=
  [
    0x30, 0x660, 0x6F0, 0x7C0, 0x966, 0x9E6, 0xA66, 0xAE6, 0xB66, 0xBE6,
    0xC66, 0xCE6, 0xD66, 0xDE6, 0xE50, 0xED0, 0xF20, 0x1040, 0x1090, 0x17E0,
    0x1810, 0x1946, 0x19D0, 0x1A80, 0x1A90, 0x1B50, 0x1BB0, 0x1C40, 0x1C50, 0xA620,
    0xA8D0, 0xA900, 0xA9D0, 0xA9F0, 0xAA50, 0xABF0, 0xFF10, 0x104A0, 0x10D30, 0x11066,
    0x110F0, 0x11136, 0x111D0, 0x112F0, 0x11450, 0x114D0, 0x11650, 0x116C0, 0x11730, 0x118E0,
    0x11950, 0x11C50, 0x11D50, 0x11DA0, 0x16A60, 0x16AC0, 0x16B50, 0x1D7CE, 0x1D7D8, 0x1D7E2,
    0x1D7EC, 0x1D7F6, 0x1E140, 0x1E2F0, 0x1E950, 0x1FBF0]

def digit? (c : Char) : Option Nat :=
  (zeroCodes.find? fun first => first ≤ c.toNat && c.toNat ≤ first + 9).map (c.toNat - ·)

def maxDigits : Nat := 4300

/-- Digits with single underscores between them, most significant first. The flag says whether
a digit came just before, so that an underscore may stand here and the text may end here. -/
def readDigits? : Bool → List Char → Option (List Nat)
  | afterDigit, [] => if afterDigit then some [] else none
  | afterDigit, c :: rest =>
    if c = '_' then
      if afterDigit then readDigits? false rest else none
    else match digit? c with
      | some d => (readDigits? true rest).map (d :: ·)
      | none => none

def ofDigits (digits : List Nat) : Nat := digits.foldl (fun n d => 10 * n + d) 0

def readMagnitude? (cs : List Char) : Option Nat :=
  match readDigits? false cs with
  | some digits => if digits.length ≤ maxDigits then some (ofDigits digits) else none
  | none => none

/-- A whole number: an optional sign, then digits. Blanks are not allowed. -/
def readInteger? : List Char → Option Int
  | '+' :: rest => (readMagnitude? rest).map Int.ofNat
  | '-' :: rest => (readMagnitude? rest).map fun n => -Int.ofNat n
  | cs => (readMagnitude? cs).map Int.ofNat

end RecordRules.Text
