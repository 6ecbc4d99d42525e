import Mathlib.Algebra.Order.Field.Power
import Mathlib.Data.Rat.Cast.Order
import RecordRules.Value.Basic

/-!
Exact numbers as rational numbers, and those between two ends as rational numbers with an end on
either side. The order in which they are compared is the order there.
-/
namespace RecordRules

namespace Scaled

def rational (x : Scaled) : ℚ := x.mantissa * 2 ^ x.exponent

theorem unitsAt_mul {x : Scaled} {k : Int} (least : k ≤ x.exponent) :
    (x.unitsAt k : ℚ) * 2 ^ k = x.rational := by
  have power : ((Nat.pow 2 (x.exponent - k).toNat : Nat) : ℚ) = 2 ^ (x.exponent - k) := by
    obtain ⟨n, gap⟩ := Int.eq_ofNat_of_zero_le (Int.sub_nonneg_of_le least)
    rw [gap]
    simp
  rw [unitsAt, Int.cast_mul, Int.cast_natCast, power, mul_assoc, ← zpow_add₀ two_ne_zero,
    Int.sub_add_cancel, rational]

theorem unitsAt_lt_iff {x y : Scaled} {k : Int} (first : k ≤ x.exponent) (second : k ≤ y.exponent) :
    x.unitsAt k < y.unitsAt k ↔ x.rational < y.rational := by
  have unit : (0 : ℚ) < 2 ^ k := zpow_pos two_pos k
  rw [← unitsAt_mul first, ← unitsAt_mul second, mul_lt_mul_iff_left₀ unit, Int.cast_lt]

theorem order_eq_lt_iff (x y : Scaled) : x.order y = .lt ↔ x.rational < y.rational := by
  rw [order, Int.compare_eq_lt,
    unitsAt_lt_iff (Int.min_le_left _ _) (Int.min_le_right _ _)]

theorem order_swap (x y : Scaled) : y.order x = (x.order y).swap := by
  rw [order, order, Int.compare_swap, Int.min_comm]

@[simp] theorem rational_ofInt (n : Int) : rational ⟨n, 0⟩ = n := by
  simp [rational]

end Scaled

namespace Extended

def line : Extended → WithBot (WithTop ℚ)
  | bottom => ⊥
  | exact x => ((x.rational : WithTop ℚ) : WithBot (WithTop ℚ))
  | top => ((⊤ : WithTop ℚ) : WithBot (WithTop ℚ))

theorem below_top (x : Scaled) : (exact x).line < top.line :=
  WithBot.coe_lt_coe.mpr (WithTop.coe_lt_top x.rational)

theorem order_eq_lt_iff (a b : Extended) : a.order b = .lt ↔ a.line < b.line := by
  cases a with
  | exact x =>
    cases b with
    | exact y =>
      rw [line, line, WithBot.coe_lt_coe, WithTop.coe_lt_coe]
      exact x.order_eq_lt_iff y
    | bottom => simp [order, line]
    | top => simp [order, below_top]
  | _ => cases b <;> simp [order, line]

theorem order_swap (a b : Extended) : b.order a = (a.order b).swap := by
  cases a with
  | exact x =>
    cases b with
    | exact y => exact x.order_swap y
    | _ => rfl
  | _ => cases b <;> rfl

theorem order_eq_gt_iff (a b : Extended) : a.order b = .gt ↔ b.line < a.line := by
  rw [← order_eq_lt_iff, order_swap b a]
  cases b.order a <;> simp

theorem order_eq_compare (a b : Extended) : a.order b = compare a.line b.line := by
  cases given : a.order b with
  | lt => exact (compare_lt_iff_lt.mpr ((order_eq_lt_iff a b).mp given)).symm
  | gt => exact (compare_gt_iff_gt.mpr ((order_eq_gt_iff a b).mp given)).symm
  | eq =>
    have notLess : ¬ a.line < b.line := by
      rw [← order_eq_lt_iff, given]
      decide
    have notGreater : ¬ b.line < a.line := by
      rw [← order_eq_gt_iff, given]
      decide
    exact (compare_eq_iff_eq.mpr (le_antisymm (not_lt.mp notGreater) (not_lt.mp notLess))).symm

theorem same_iff_line (a b : Extended) : a.same b = true ↔ a.line = b.line := by
  rw [same, beq_iff_eq, order_eq_compare, compare_eq_iff_eq]

end Extended

end RecordRules
