import Mathlib.Order.Lattice
import Mathlib.Order.BoundedOrder.Basic
import RecordRules.Rule.Reaction
import RecordRules.Rule.State
import RecordRules.Proofs.Traversal

/-!
Reach as a bound: a path leads to the same value when no more related records are at hand than it
looks at. So do conditions, lists of conditions and the paths of an action, for the reach of all
their paths together.
-/
namespace RecordRules

namespace Extent

theorem join_comm (e f : Extent) : e.join f = f.join e := by
  cases e <;> cases f <;> simp only [join, Nat.max_comm]

theorem join_assoc (e f g : Extent) : (e.join f).join g = e.join (f.join g) := by
  cases e <;> cases f <;> cases g <;> simp only [join, Nat.max_assoc]

theorem join_self (e : Extent) : e.join e = e := by
  cases e <;> simp only [join, Nat.max_self]

instance : Max Extent := ⟨join⟩

/-- An extent is below another one if joining it adds nothing. -/
instance : SemilatticeSup Extent := SemilatticeSup.mk' join_comm join_assoc join_self

theorem le_upTo {e : Extent} {n : Nat} (h : e ≤ upTo n) : ∃ m, e = upTo m ∧ m ≤ n := by
  replace h : e.join (upTo n) = upTo n := h
  cases e with
  | all => cases h
  | upTo m =>
    rw [join, upTo.injEq] at h
    exact ⟨m, rfl, by omega⟩

theorem isNone_iff (e : Extent) : e.isNone = true ↔ e = none := by
  cases e <;> simp [isNone, none]

end Extent

namespace Reach

theorem join_comm (r s : Reach) : r.join s = s.join r := by
  simp only [join, Extent.join_comm]

theorem join_assoc (r s t : Reach) : (r.join s).join t = r.join (s.join t) := by
  simp only [join, Extent.join_assoc]

theorem join_self (r : Reach) : r.join r = r := by
  simp only [join, Extent.join_self]

instance : Max Reach := ⟨join⟩

instance : SemilatticeSup Reach := SemilatticeSup.mk' join_comm join_assoc join_self

theorem le_iff {r s : Reach} :
    r ≤ s ↔ r.ancestors ≤ s.ancestors ∧ r.descendants ≤ s.descendants := by
  change r.join s = s ↔ _
  rw [show s = ⟨s.ancestors, s.descendants⟩ from rfl, join, mk.injEq]
  exact Iff.rfl

theorem isNone_iff (r : Reach) : r.isNone = true ↔ r = {} := by
  rw [isNone, Bool.and_eq_true, Extent.isNone_iff, Extent.isNone_iff,
    show r = ⟨r.ancestors, r.descendants⟩ from rfl, mk.injEq]

theorem empty_join (r : Reach) : join {} r = r := by
  obtain ⟨ancestors, descendants⟩ := r
  cases ancestors <;> cases descendants <;> simp [join, Extent.join, Extent.none]

theorem join_empty (r : Reach) : r.join {} = r := by
  rw [join_comm, empty_join]

instance : OrderBot Reach where
  bot := {}
  bot_le := empty_join

theorem foldl_join (r : Reach) (paths : List Path) :
    paths.foldl (fun r p => r.join (ofPath p)) r = r.join (ofPaths paths) := by
  induction paths generalizing r with
  | nil => rw [ofPaths, List.foldl_nil, List.foldl_nil, join_empty]
  | cons p rest ih => rw [ofPaths, List.foldl_cons, List.foldl_cons, ih, ih, join_assoc, empty_join]

@[simp] theorem ofPaths_nil : ofPaths [] = {} := rfl

@[simp] theorem ofPaths_cons (p : Path) (rest : List Path) :
    ofPaths (p :: rest) = (ofPath p).join (ofPaths rest) := by
  rw [ofPaths, List.foldl_cons, foldl_join, empty_join]

theorem ofPaths_append (paths more : List Path) :
    ofPaths (paths ++ more) = (ofPaths paths).join (ofPaths more) := by
  rw [ofPaths, List.foldl_append, foldl_join]
  rfl

theorem ofPaths_le_iff {paths : List Path} {r : Reach} :
    ofPaths paths ≤ r ↔ ∀ p ∈ paths, ofPath p ≤ r := by
  induction paths with
  | nil => exact iff_of_true bot_le (List.forall_mem_nil _)
  | cons p rest ih =>
    rw [ofPaths_cons, List.forall_mem_cons, ← ih]
    exact sup_le_iff

theorem ofPath_of_isRelational {p : Path} (own : p.isRelational = false) : ofPath p = {} := by
  obtain ⟨origin, index, schema, tail, source⟩ := p
  cases origin <;> first | rfl | cases own

end Reach

/-- A scene with no more related records than some reach is about. -/
def Scene.within (scene : Scene) (reach : Reach) : Scene :=
  { scene with
    ancestors := reach.ancestors.part scene.ancestors
    descendants := reach.descendants.part scene.descendants }

namespace Path

theorem mem_of_pick {pool : List Record} {index : Nat} {schema : Option String} {r : Record}
    (found : pick pool index schema = some r) : r ∈ pool := by
  unfold pick at found
  by_cases missing : index = 0
  · simp [missing] at found
  · simp only [missing, ↓reduceIte] at found
    have counted := List.mem_of_getElem? found
    cases schema with
    | none => exact counted
    | some name => exact (List.mem_filter.mp counted).1

theorem pick_part (extent : Extent) {index : Nat} {schema : Option String} (pool : List Record)
    (covered : (if schema.isSome then .all else .upTo index) ≤ extent) :
    pick (extent.part pool) index schema = pick pool index schema := by
  cases extent with
  | all => rfl
  | upTo n =>
    obtain ⟨m, looked, le⟩ := Extent.le_upTo covered
    cases schema with
    | some name => cases looked
    | none =>
      obtain rfl : index = m := Extent.upTo.inj looked
      simp only [pick, Extent.part]
      split
      · rfl
      · exact List.getElem?_take_of_lt (by omega)

theorem resolve_within {p : Path} {reach : Reach} (scene : Scene)
    (covered : Reach.ofPath p ≤ reach) : p.resolve (scene.within reach) = p.resolve scene := by
  obtain ⟨up, down⟩ := Reach.le_iff.mp covered
  obtain ⟨origin, index, schema, tail, source⟩ := p
  cases origin with
  | object => rfl
  | modified => rfl
  | parent =>
    have same := pick_part reach.ancestors scene.ancestors up
    simp only [resolve, Scene.within, same]
  | child =>
    have same := pick_part reach.descendants scene.descendants down
    simp only [resolve, Scene.within, same]

end Path

namespace Condition

variable {reach : Reach}

theorem holds_within {c : Condition} (scene : Scene)
    (covered : ∀ p ∈ c.paths, Reach.ofPath p ≤ reach) :
    c.holds (scene.within reach) = c.holds scene := by
  obtain ⟨path, operator, operand⟩ := c
  cases operand with
  | value v =>
    have same := Path.resolve_within scene (covered path List.mem_cons_self)
    simp only [holds, expected?, same]
  | path p =>
    have same := Path.resolve_within scene (covered path List.mem_cons_self)
    have other := Path.resolve_within scene (covered p (List.mem_cons_of_mem _ List.mem_cons_self))
    simp only [holds, expected?, same, other]

theorem allHold_within {cs : List Condition} (scene : Scene)
    (covered : ∀ p ∈ cs.flatMap paths, Reach.ofPath p ≤ reach) :
    allHold cs (scene.within reach) = allHold cs scene := by
  induction cs with
  | nil => rfl
  | cons c rest ih =>
    rw [List.flatMap_cons, List.forall_mem_append] at covered
    simp only [allHold, List.all_cons, holds_within scene covered.1]
    rw [← allHold, ← allHold, ih covered.2]

theorem holds_within_of_isRelational {c : Condition} (scene : Scene)
    (own : c.isRelational = false) : c.holds (scene.within reach) = c.holds scene := by
  refine holds_within scene fun p member => ?_
  rw [isRelational, List.any_eq_false] at own
  rw [Reach.ofPath_of_isRelational (by simpa using own p member)]
  exact bot_le

theorem holds_of_isRelational (c : Condition) {a b : Event} (object : a.object = b.object)
    (modified : a.modified = b.modified) (own : c.isRelational = false) :
    c.holds (Scene.ofEvent a) = c.holds (Scene.ofEvent b) := by
  have bare : (Scene.ofEvent a).within {} = (Scene.ofEvent b).within {} := by
    simp [Scene.ofEvent, Scene.within, Extent.part, Extent.none, object, modified]
  calc c.holds (Scene.ofEvent a) = c.holds ((Scene.ofEvent a).within {}) :=
        (holds_within_of_isRelational _ own).symm
    _ = c.holds ((Scene.ofEvent b).within {}) := congrArg c.holds bare
    _ = c.holds (Scene.ofEvent b) := holds_within_of_isRelational _ own

end Condition

end RecordRules
