import RecordRules.Condition.Basic
import RecordRules.Proofs.ValueEquality

/-!
Membership in stored lists. A condition can ask whether a value is in a list that is read from a
record. The members are made into a set to look it up, and lists and objects are fit for no set.
Main statement: a value is found exactly if some member is equal to it and all members are fit for a
set. So where all are, membership is that of the list; one member that is unfit hides all others.
-/
namespace RecordRules

namespace Operator

variable {items : List Value} {x : Value}

theorem contains_list_iff (noSet : ∀ members, x ≠ .set members) : contains (.list items) x = true ↔
    (∃ v ∈ items, x.same v = true) ∧ ∀ v ∈ items, v.isKey = true := by
  unfold contains pool?
  by_cases keys : items.all Value.isKey = true
  · have fit : (x.isKey && x.isIn items) = true ↔ ∃ v ∈ items, x.same v = true := by
      rw [Bool.and_eq_true, Value.isIn_iff]
      constructor
      · exact And.right
      · rintro ⟨v, member, equal⟩
        exact ⟨Value.isKey_of_same equal (List.all_eq_true.mp keys v member), v, member, equal⟩
    rw [if_pos keys, and_iff_left (List.all_eq_true.mp keys), ← fit]
    cases x with
    | set members => exact absurd rfl (noSet members)
    | _ => rfl
  · rw [if_neg keys]
    simp [← List.all_eq_true, keys]

end Operator

namespace Condition

/-- Whether a value is in a stored list is decided by the members that are equal to it, unless some
member is fit for no set: then it is not in the list, whatever the other members are. -/
theorem holds_stored_list_iff (c : Condition) (scene : Scene) (p : Path) (items : List Value)
    (x : Value) (operand : c.operand = .path p) (stored : p.resolve scene = some (.list items))
    (read : c.path.resolve scene = some x) (plain : x.isPlain = true) :
    (c.operator = .isIn → (c.holds scene = true ↔
      (∃ v ∈ items, x.same v = true) ∧ ∀ v ∈ items, v.isKey = true)) ∧
    (c.operator = .notIn → (c.holds scene = true ↔
      (∀ v ∈ items, x.same v = false) ∨ ∃ v ∈ items, v.isKey = false)) := by
  have noSet : ∀ members, x ≠ .set members := by
    rintro members rfl
    cases plain
  have found : Operator.contains (.list items) x = true ↔ _ := Operator.contains_list_iff noSet
  have compared : c.holds scene = c.operator.compare x (.list items) := by
    simp only [holds, expected?, operand, stored, read]
  rw [compared]
  constructor
  case left =>
    intro isIn
    rw [isIn]
    exact found
  case right =>
    intro notIn
    rw [notIn, Operator.compare, Bool.not_eq_true', ← Bool.not_eq_true, found, not_and_or]
    simp

theorem holds_stored_list_levels :
    let task : Record :=
      ⟨.text "Task", .int 1, [("level", .int 1), ("levels", .list [.text "low", .bool true])]⟩
    let level : Path := { origin := .object, tail := ["level"], source := "level" }
    let levels : Path := { origin := .object, tail := ["levels"], source := "$eventObject.levels" }
    let scene : Scene := { object := some task }
    holds ⟨level, .isIn, .path levels⟩ scene = true ∧
      ¬ holds ⟨level, .notIn, .path levels⟩ scene = true := by
  intro task level levels scene
  have decides (operator : Operator) := holds_stored_list_iff ⟨level, operator, .path levels⟩ scene
    levels [.text "low", .bool true] (.int 1) rfl rfl rfl rfl
  refine ⟨((decides .isIn).1 rfl).mpr (by decide), ?_⟩
  rw [(decides .notIn).2 rfl]
  decide

/-- An open task is not found among the states that are allowed, although one of them is equal to
its own, because another one is a list; and a list is not found among lists. -/
theorem list_hides_open_task :
    let members : List Value := [.text "open", .list []]
    let task : Record := ⟨.text "Task", .text "t1",
      [("status", .text "open"), ("tags", .list []), ("allowed", .list members)]⟩
    let field (name : String) : Path := { origin := .object, tail := [name], source := name }
    let allowed : Path :=
      { origin := .object, tail := ["allowed"], source := "$eventObject.allowed" }
    let scene : Scene := { object := some task }
    allowed.resolve scene = some (.list members) ∧
      ∀ name ∈ ["status", "tags"],
        (∃ x, (field name).resolve scene = some x ∧ ∃ v ∈ members, x.same v = true) ∧
        holds ⟨field name, .isIn, .path allowed⟩ scene = false ∧
        holds ⟨field name, .notIn, .path allowed⟩ scene = true := by
  intro members task field allowed scene
  refine ⟨rfl, fun name listed => ?_⟩
  rcases List.mem_pair.mp listed with rfl | rfl
  · exact ⟨⟨.text "open", rfl, by decide⟩, by decide, by decide⟩
  · exact ⟨⟨.list [], rfl, by decide⟩, by decide, by decide⟩

end Condition

end RecordRules
