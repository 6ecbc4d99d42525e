import RecordRules.Number.Extended

/-!
Floating point numbers with 53 bits of precision, held as the exact numbers they denote. Rounding
goes to the nearest such number, and from halfway to the one with an even significand; what is
rounded to a number that is too large becomes infinite.
-/
namespace RecordRules

/-- The finite floating point number `±significand * 2 ^ exponent`. Zero keeps its sign. -/
structure Binary64.Finite where
  negative : Bool
  significand : Nat
  exponent : Int
deriving DecidableEq, Repr

inductive Binary64 where
  | finite (x : Binary64.Finite)
  | infinite (negative : Bool)
deriving DecidableEq, Repr

namespace Binary64

def precision : Nat := 53

def minExponent : Int := -1074

def maxExponent : Int := 971

namespace Finite

/-- Written with the least exponent and, above it, with all bits of the significand in use. -/
def IsCanonical (x : Finite) : Prop :=
  minExponent ≤ x.exponent ∧ x.exponent ≤ maxExponent ∧ x.significand < Nat.pow 2 precision ∧
    (x.exponent = minExponent ∨ Nat.pow 2 (precision - 1) ≤ x.significand)

instance (x : Finite) : Decidable x.IsCanonical := by
  unfold IsCanonical; infer_instance

def exact (x : Finite) : Scaled :=
  ⟨if x.negative then -(x.significand : Int) else x.significand, x.exponent⟩

end Finite

def place : Binary64 → Extended
  | finite x => .exact x.exact
  | infinite negative => if negative then .bottom else .top

def isZero : Binary64 → Bool
  | finite x => x.significand == 0
  | infinite _ => false

/-- The quotient rounded to the nearest whole number, from halfway to the even one. -/
def roundDiv (num den : Nat) : Nat :=
  let whole := num / den
  let rest := 2 * (num % den)
  if rest < den then whole
  else if den < rest then whole + 1
  else whole + whole % 2

def scaleDown (num den : Nat) (e : Int) : Nat × Nat :=
  if 0 ≤ e then (num, den * Nat.pow 2 e.toNat) else (num * Nat.pow 2 (-e).toNat, den)

/-- The largest exponent that leaves the quotient all bits of the significand. -/
def quotientExponent (num den : Nat) : Int :=
  let guess : Int := (Nat.log2 num : Int) - Nat.log2 den - 52
  let (n, d) := scaleDown num den guess
  let fitted := if n < Nat.pow 2 52 * d then guess - 1 else guess
  max minExponent fitted

def ofParts (negative : Bool) (significand : Nat) (exponent : Int) : Binary64 :=
  if exponent ≤ maxExponent then finite ⟨negative, significand, exponent⟩ else infinite negative

def ofQuotient (negative : Bool) (num den : Nat) : Binary64 :=
  if num = 0 then finite ⟨negative, 0, minExponent⟩
  else
    let e := quotientExponent num den
    let (n, d) := scaleDown num den e
    let m := roundDiv n d
    if m = Nat.pow 2 precision then ofParts negative (Nat.pow 2 (precision - 1)) (e + 1)
    else ofParts negative m e

def ofScaled (x : Scaled) : Binary64 :=
  let size := x.mantissa.natAbs
  if 0 ≤ x.exponent then ofQuotient (x.mantissa < 0) (size * Nat.pow 2 x.exponent.toNat) 1
  else ofQuotient (x.mantissa < 0) size (Nat.pow 2 (-x.exponent).toNat)

/-- The floating point number nearest to `±digits / 10 ^ places`. -/
def ofDecimal (negative : Bool) (digits places : Nat) : Binary64 :=
  ofQuotient negative digits (Nat.pow 10 places)

/-- The sum. Opposite infinities have none. -/
def add? : Binary64 → Binary64 → Option Binary64
  | finite x, finite y =>
    some <| if x.significand = 0 ∧ y.significand = 0 then
      finite ⟨x.negative && y.negative, 0, minExponent⟩
    else ofScaled (x.exact.add y.exact)
  | infinite negative, finite _ | finite _, infinite negative => some (infinite negative)
  | infinite negative, infinite other => if negative = other then some (infinite negative) else none

def ofInt? (n : Int) : Option Binary64 :=
  match ofScaled ⟨n, 0⟩ with
  | finite x => some (finite x)
  | infinite _ => none

end Binary64

end RecordRules
