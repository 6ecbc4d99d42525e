import RecordRules.Number.Binary64

/-!
The shortest decimal text of a floating point number: the fewest digits that read back to the
same number, and of those the nearest to it. Numbers of ordinary size are written positionally,
very large and very small ones with a power of ten.
-/
namespace RecordRules

/-- Numbers that are rounded to one floating point number, as multiples of a quarter of its last
place: between `low` and `high`, ends included when `closed`. The number itself is `mid`. -/
structure Rounding where
  low : Nat
  mid : Nat
  high : Nat
  closed : Bool
  exponent : Int
deriving DecidableEq, Repr

/-- The interval around a number. Below a power of two its neighbour is only half as far. -/
def Rounding.of (x : Binary64.Finite) : Rounding :=
  let narrow := x.significand = Nat.pow 2 52 ∧ Binary64.minExponent < x.exponent
  { low := if narrow then 4 * x.significand - 1 else 4 * x.significand - 2
    mid := 4 * x.significand
    high := 4 * x.significand + 2
    closed := x.significand % 2 == 0
    exponent := x.exponent - 2 }

/-- Digits and a power of ten: the decimal `digits * 10 ^ power`. -/
structure Decimal where
  digits : Nat
  power : Int
deriving DecidableEq, Repr

namespace Decimal

/-- A fraction equal to `m * 2 ^ e / 10 ^ power`. -/
def onGrid (m : Nat) (e power : Int) : Nat × Nat :=
  (m * Nat.pow 2 e.toNat * Nat.pow 10 (-power).toNat,
    Nat.pow 2 (-e).toNat * Nat.pow 10 power.toNat)

def isInside (r : Rounding) (power : Int) (point : Nat) : Bool :=
  let (low, den) := onGrid r.low r.exponent power
  let (high, _) := onGrid r.high r.exponent power
  if r.closed then low ≤ point * den && point * den ≤ high
  else low < point * den && point * den < high

def nearest? (r : Rounding) (power : Int) : Option Nat :=
  let (num, den) := onGrid r.mid r.exponent power
  let below := num / den
  let above := below + 1
  match isInside r power below, isInside r power above with
  | true, true =>
    let lower := num - below * den
    let upper := above * den - num
    some (if lower < upper then below else if upper < lower then above
      else if below % 2 = 0 then below else above)
  | true, false => some below
  | false, true => some above
  | false, false => none

/-- The first grid with a point inside, from coarse to fine. -/
def search (r : Rounding) : Nat → Int → Decimal
  | 0, power => ⟨(nearest? r power).getD 0, power⟩
  | steps + 1, power =>
    match nearest? r power with
    | some point => if point = 0 then search r steps (power - 1) else ⟨point, power⟩
    | none => search r steps (power - 1)

def trim : Nat → Decimal → Decimal
  | 0, d => d
  | steps + 1, d =>
    if d.digits ≠ 0 ∧ d.digits % 10 = 0 then trim steps ⟨d.digits / 10, d.power + 1⟩ else d

/-- An upper bound for the number of decimal places before the point. -/
def magnitude (x : Binary64.Finite) : Int :=
  ((Nat.log2 x.significand : Int) + x.exponent) * 30103 / 100000 + 2

/-- The shortest decimal that reads back to a number other than zero. Twenty grids below its
size always hold one, since seventeen digits suffice. -/
def shortest (x : Binary64.Finite) : Decimal :=
  trim 20 (search (Rounding.of x) 24 (magnitude x))

structure Layout where
  positionalFrom : Int
  positionalBelow : Int
  powerDigits : Nat

/-- Leading digits from the ten thousandth place up to sixteen places before the point are
written positionally; powers of ten have at least two digits. -/
def layout : Layout := ⟨-4, 16, 2⟩

def padded (width n : Nat) : List Char :=
  let ds := Nat.toDigits 10 n
  List.replicate (width - ds.length) '0' ++ ds

def positional (d : Decimal) : List Char :=
  let ds := Nat.toDigits 10 d.digits
  if 0 ≤ d.power then ds ++ List.replicate d.power.toNat '0' ++ ['.', '0']
  else
    let places := (-d.power).toNat
    let all := padded (places + 1) d.digits
    all.take (all.length - places) ++ '.' :: all.drop (all.length - places)

def scientific (d : Decimal) : List Char :=
  match Nat.toDigits 10 d.digits with
  | [] => []
  | first :: rest =>
    let power := d.power + rest.length
    let fraction := if rest.isEmpty then [] else '.' :: rest
    first :: fraction ++ 'e' :: (if power < 0 then '-' else '+')
      :: padded layout.powerDigits power.natAbs

def text (d : Decimal) : List Char :=
  let leading := d.power + (Nat.toDigits 10 d.digits).length - 1
  if layout.positionalFrom ≤ leading ∧ leading < layout.positionalBelow then positional d
  else scientific d

end Decimal

def Binary64.Finite.text (x : Binary64.Finite) : String :=
  let size := if x.significand = 0 then ['0', '.', '0'] else (Decimal.shortest x).text
  String.ofList (if x.negative then '-' :: size else size)

def Binary64.text : Binary64 → String
  | finite x => x.text
  | infinite negative => if negative then "-inf" else "inf"

end RecordRules
