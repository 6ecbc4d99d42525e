import RecordRules.Number.Binary64

/-!
Keys: what a schema, a record or a custom action is known by. A key is a text as a rule; since
definitions are plain data, it can also be a number, a truth value or nothing. Keys that stand for
the same number are the same key. Main statement: sameness of keys is an equivalence.
-/
namespace RecordRules

inductive Key where
  | null
  | bool (b : Bool)
  | int (n : Int)
  | float (x : Binary64)
  | text (s : String)
deriving Repr, Inhabited

namespace Key

def number? : Key → Option Extended
  | bool b => some (.ofInt (if b then 1 else 0))
  | int n => some (.ofInt n)
  | float x => some x.place
  | null | text _ => none

def same : Key → Key → Bool
  | null, null => true
  | text s, text t => s == t
  | a, b => match a.number?, b.number? with
    | some x, some y => x.same y
    | _, _ => false

instance : BEq Key := ⟨same⟩

theorem text_beq_text (s t : String) : (text s == text t) = (s == t) := rfl

theorem same_eq_number {a b : Key} {x y : Extended} (ha : a.number? = some x)
    (hb : b.number? = some y) : a.same b = x.same y := by
  cases a <;> cases b <;> simp_all [number?, same]

theorem same_cases {a b : Key} (h : a.same b = true) :
    a = b ∨ ∃ x y, a.number? = some x ∧ b.number? = some y ∧ x.same y = true := by
  cases a <;> cases b <;> simp_all [same, number?]

theorem same_refl (a : Key) : a.same a = true := by
  cases a <;> simp [same, number?, Extended.same_refl]

theorem same_symm {a b : Key} (h : a.same b = true) : b.same a = true := by
  rcases same_cases h with rfl | ⟨x, y, hx, hy, same⟩
  · exact same_refl a
  · rw [same_eq_number hy hx]
    exact Extended.same_symm same

theorem same_trans {a b c : Key} (h : a.same b = true) (h' : b.same c = true) :
    a.same c = true := by
  rcases same_cases h with rfl | ⟨x, y, hx, hy, same⟩
  · exact h'
  rcases same_cases h' with rfl | ⟨y', z, hy', hz, same'⟩
  · exact h
  · rw [same_eq_number hx hz]
    exact Extended.same_trans same (Option.some.inj (hy.symm.trans hy') ▸ same')

theorem eq_text {name : String} {key : Key} (same : (text name == key) = true) :
    key = text name := by
  cases key with
  | text other => exact congrArg text (eq_of_beq (show (name == other) = true from same)).symm
  | _ => cases same

instance : EquivBEq Key where
  rfl := same_refl _
  symm := same_symm
  trans := same_trans

end Key

end RecordRules
