/-!
Exact numbers of the form `mantissa * 2 ^ exponent`, and their order.
-/
namespace RecordRules

structure Scaled where
  mantissa : Int
  exponent : Int := 0
deriving DecidableEq, Repr

namespace Scaled

def unitsAt (x : Scaled) (exponent : Int) : Int :=
  x.mantissa * Nat.pow 2 (x.exponent - exponent).toNat

/-- Numbers are compared at their smaller exponent, so the comparison is exact. -/
def order (x y : Scaled) : Ordering :=
  let shared := min x.exponent y.exponent
  compare (x.unitsAt shared) (y.unitsAt shared)

def same (x y : Scaled) : Bool := x.order y == .eq

def add (x y : Scaled) : Scaled :=
  let shared := min x.exponent y.exponent
  ⟨x.unitsAt shared + y.unitsAt shared, shared⟩

def isZero (x : Scaled) : Bool := x.mantissa == 0

theorem unitsAt_eq_mul {x : Scaled} {j k : Int} (hk : k ≤ j) (hj : j ≤ x.exponent) :
    x.unitsAt k = x.unitsAt j * Nat.pow 2 (j - k).toNat := by
  have split : (x.exponent - k).toNat = (x.exponent - j).toNat + (j - k).toNat := by omega
  have doubled : Nat.pow 2 ((x.exponent - j).toNat + (j - k).toNat) =
      Nat.pow 2 (x.exponent - j).toNat * Nat.pow 2 (j - k).toNat := Nat.pow_add _ _ _
  simp only [unitsAt, split]
  rw [doubled, Int.natCast_mul, Int.mul_assoc]

theorem same_iff {x y : Scaled} {k : Int} (hx : k ≤ x.exponent) (hy : k ≤ y.exponent) :
    x.same y = true ↔ x.unitsAt k = y.unitsAt k := by
  have least : k ≤ min x.exponent y.exponent := by omega
  have positive : ((Nat.pow 2 (min x.exponent y.exponent - k).toNat : Nat) : Int) ≠ 0 := by
    have : 0 < Nat.pow 2 (min x.exponent y.exponent - k).toNat := Nat.pow_pos (by decide)
    omega
  simp only [same, order, beq_iff_eq, Int.compare_eq_eq]
  rw [unitsAt_eq_mul least (Int.min_le_left _ _), unitsAt_eq_mul least (Int.min_le_right _ _)]
  exact ⟨fun h => by rw [h], Int.eq_of_mul_eq_mul_right positive⟩

theorem same_refl (x : Scaled) : x.same x = true :=
  (same_iff (Int.le_refl _) (Int.le_refl _)).2 rfl

theorem same_symm {x y : Scaled} (h : x.same y = true) : y.same x = true := by
  have hx := Int.min_le_left x.exponent y.exponent
  have hy := Int.min_le_right x.exponent y.exponent
  exact (same_iff hy hx).2 ((same_iff hx hy).1 h).symm

theorem same_trans {x y z : Scaled} (h : x.same y = true) (h' : y.same z = true) :
    x.same z = true := by
  have hx : min x.exponent (min y.exponent z.exponent) ≤ x.exponent := by omega
  have hy : min x.exponent (min y.exponent z.exponent) ≤ y.exponent := by omega
  have hz : min x.exponent (min y.exponent z.exponent) ≤ z.exponent := by omega
  exact (same_iff hx hz).2 (((same_iff hx hy).1 h).trans ((same_iff hy hz).1 h'))

end Scaled

end RecordRules
