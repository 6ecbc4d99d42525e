import RecordRules.Number.Scaled

/-!
Exact numbers between two ends. Everything is above the lower end and below the upper one, and
each end is level with itself.
-/
namespace RecordRules

inductive Extended where
  | bottom
  | exact (x : Scaled)
  | top
deriving DecidableEq, Repr

namespace Extended

def order : Extended → Extended → Ordering
  | exact x, exact y => x.order y
  | bottom, bottom | top, top => .eq
  | bottom, _ | _, top => .lt
  | top, _ | _, bottom => .gt

def same (a b : Extended) : Bool := a.order b == .eq

def ofInt (n : Int) : Extended := exact ⟨n, 0⟩

theorem same_cases {a b : Extended} (h : a.same b = true) :
    a = b ∨ ∃ x y, a = exact x ∧ b = exact y ∧ x.same y = true := by
  cases a with
  | exact x =>
    cases b with
    | exact y => exact .inr ⟨x, y, rfl, rfl, h⟩
    | _ => cases h
  | _ =>
    cases b <;> first
      | exact .inl rfl
      | cases h

theorem same_refl (a : Extended) : a.same a = true := by
  cases a with
  | exact x => exact x.same_refl
  | _ => rfl

theorem same_symm {a b : Extended} (h : a.same b = true) : b.same a = true := by
  rcases same_cases h with rfl | ⟨x, y, rfl, rfl, level⟩
  · exact h
  · exact Scaled.same_symm level

theorem same_trans {a b c : Extended} (h : a.same b = true) (h' : b.same c = true) :
    a.same c = true := by
  rcases same_cases h with rfl | ⟨x, y, rfl, rfl, level⟩
  · exact h'
  rcases same_cases h' with rfl | ⟨y', z, ⟨⟩, rfl, level'⟩
  · exact h
  · exact Scaled.same_trans level level'

end Extended

end RecordRules
