import RecordRules.Text.Range

/-!
Blank characters: the white space of Unicode together with the control characters that separate
text. Stripping removes them from both ends of a text.
-/
namespace RecordRules.Text

def spaceRanges : Ranges :=
  [
    (0x9, 0xD), (0x20, 0x20), (0x85, 0x85), (0xA0, 0xA0), (0x1680, 0x1680), (0x2000, 0x200A),
    (0x2028, 0x2029), (0x202F, 0x202F), (0x205F, 0x205F), (0x3000, 0x3000)]

/-- Every blank character: white space and the four separators of files, groups, records and
units. -/
def blankRanges : Ranges := (0x1C, 0x1F) :: spaceRanges

def isSpace (c : Char) : Bool := spaceRanges.covers c.toNat

/-- Blank characters part words; all other characters belong to them. -/
def isBlank (c : Char) : Bool := blankRanges.covers c.toNat

def trim (drops : Char → Bool) (cs : List Char) : List Char :=
  ((cs.dropWhile drops).reverse.dropWhile drops).reverse

def stripChars (cs : List Char) : List Char := trim isBlank cs

end RecordRules.Text
