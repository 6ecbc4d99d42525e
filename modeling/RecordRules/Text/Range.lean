/-!
Classes of characters given by tables of code point ranges.
-/
namespace RecordRules.Text

abbrev Ranges := List (Nat × Nat)

def Ranges.covers (table : Ranges) (code : Nat) : Bool :=
  table.any fun range => range.1 ≤ code && code ≤ range.2

end RecordRules.Text
