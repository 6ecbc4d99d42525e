import RecordRules.Failure

/-!
Sums of values. Whole numbers are added exactly; with a floating point number among them, the sum
is rounded to one. Opposite infinities, and what is no number, add up to no number.
-/
namespace RecordRules.Value

def whole? : Value → Option Int
  | bool b => some (if b then 1 else 0)
  | int n => some n
  | _ => none

/-- A value as a floating point one, which may be no number. Whole numbers that are too large have
none. -/
def rounded? : Value → Option (Option Binary64)
  | float x => some (some x)
  | nan _ => some none
  | v => (v.whole?.bind Binary64.ofInt?).map some

/-- The mark of sums that are no numbers. -/
def sumMark : Nat := 1

def addRounded (a b : Value) : Except Failure Value :=
  match a.rounded?, b.rounded? with
  | some (some x), some (some y) => .ok ((x.add? y).elim (.nan sumMark) .float)
  | some _, some _ => .ok (.nan sumMark)
  | _, _ => .error (.raised "OverflowError" "int too large to convert to float")

def noSum (a b : Value) : String :=
  match a with
  | text _ => "can only concatenate str (not \"" ++ b.kindName ++ "\") to str"
  | list _ => "can only concatenate list (not \"" ++ b.kindName ++ "\") to list"
  | _ => "unsupported operand type(s) for +: '" ++ a.kindName ++ "' and '" ++ b.kindName ++ "'"

def plus (a b : Value) : Except Failure Value :=
  match a, b with
  | text s, text t => .ok (.text (s ++ t))
  | list items, list others => .ok (.list (items ++ others))
  | a, b =>
    match a.whole?, b.whole? with
    | some m, some n => .ok (.int (m + n))
    | _, _ =>
      if a.isNumeric && b.isNumeric then addRounded a b
      else .error (.wrongType (noSum a b))

end RecordRules.Value
