import Mathlib.Data.List.Nodup
import RecordRules.Engine.Basic
import RecordRules.Proofs.Frame.Step

/-!
Registration of schemas: what holds of every catalog that was filled by registering checked
schemas, whether each registration succeeded or not. A schema is found under its own name, its field
names are distinct, and what refers to other records is a reference field.
-/
namespace RecordRules

open Step

namespace Text

variable {α : Type} [BEq α]

theorem length_foldl_distinct_le (xs seen : List α) :
    (xs.foldl (fun seen x => if seen.contains x then seen else seen ++ [x]) seen).length ≤
      seen.length + xs.length := by
  induction xs generalizing seen with
  | nil => exact Nat.le_refl _
  | cons x rest ih =>
    have step : (if seen.contains x then seen else seen ++ [x]).length ≤ seen.length + 1 := by
      split
      · exact Nat.le_succ _
      · exact Nat.le_of_eq List.length_append
    have later := ih (if seen.contains x then seen else seen ++ [x])
    rw [List.foldl_cons, List.length_cons]
    omega

theorem pairwise_of_length_distinct [EquivBEq α] {xs : List α}
    (whole : xs.length = (distinct xs).length) : xs.Pairwise fun x y => (x == y) = false := by
  suffices h : ∀ seen : List α, seen.length + xs.length =
      (xs.foldl (fun seen x => if seen.contains x then seen else seen ++ [x]) seen).length →
      xs.Pairwise (fun x y => (x == y) = false) ∧ ∀ x ∈ xs, seen.contains x = false from
    (h [] (by rw [← distinct, ← whole]; simp)).1
  clear whole
  induction xs with
  | nil => exact fun seen _ => ⟨.nil, fun x member => by cases member⟩
  | cons x rest ih =>
    intro seen whole
    rw [List.foldl_cons, List.length_cons] at whole
    by_cases known : seen.contains x
    · rw [if_pos known] at whole
      have bound := length_foldl_distinct_le rest seen
      omega
    · rw [if_neg known] at whole
      obtain ⟨others, apart⟩ := ih (seen ++ [x]) (by
        rw [List.length_append, List.length_singleton]
        omega)
      simp only [List.contains_eq_any_beq, List.any_append, List.any_cons, List.any_nil,
        Bool.or_false, Bool.or_eq_false_iff] at apart
      refine ⟨List.pairwise_cons.mpr ⟨fun y member => ?_, others⟩, ?_⟩
      · rw [BEq.comm]
        exact (apart y member).2
      · intro y member
        rcases List.mem_cons.mp member with rfl | later
        · exact Bool.not_eq_true _ ▸ known
        · rw [List.contains_eq_any_beq]
          exact (apart y later).1

theorem nodup_of_length_distinct [LawfulBEq α] {xs : List α}
    (whole : xs.length = (distinct xs).length) : xs.Nodup :=
  (pairwise_of_length_distinct whole).imp ne_of_beq_false

end Text

namespace Field

theorem eq_of_check {f g : Field} (checked : f.check = .ok g) : g = f := by
  rw [check] at checked
  split at checked
  · cases checked
  split at checked
  · cases checked
  split at checked
  · cases checked
  split at checked
  · cases checked
  split at checked
  · cases checked
  obtain ⟨_, -, returned⟩ := bind_eq_ok.mp checked
  exact (Except.ok.inj returned).symm

theorem check_of_ofValue {definition : Value} {f : Field} (given : ofValue definition = .ok f) :
    f.check = .ok f := by
  obtain ⟨parts, -, given⟩ := bind_eq_ok.mp given
  obtain ⟨_, -, given⟩ := bind_eq_ok.mp given
  obtain ⟨_, -, given⟩ := bind_eq_ok.mp given
  obtain ⟨_, -, given⟩ := bind_eq_ok.mp given
  obtain ⟨_, -, given⟩ := bind_eq_ok.mp given
  have same := eq_of_check given
  rwa [← same] at given

theorem kind_of_isOf {f : Field} {kind : FieldKind} (isKind : f.isOf kind = true) :
    f.kind = .known kind := by
  unfold isOf at isKind
  cases given : f.kind with
  | other name =>
    rw [given] at isKind
    cases isKind
  | known own =>
    rw [given] at isKind
    exact congrArg _ (of_decide_eq_true isKind)

theorem kind_of_check {f : Field} (checked : f.check = .ok f) (refers : f.target?.isSome = true) :
    f.kind = .known .reference := by
  rw [check] at checked
  split at checked
  · cases checked
  split at checked
  · cases checked
  split at checked
  · cases checked
  split at checked
  · cases checked
  split at checked
  · cases checked
  · rename_i placed
    rw [refers, Bool.true_and, Bool.not_eq_true', Bool.not_eq_false] at placed
    exact kind_of_isOf placed

end Field

structure Schema.Checked (s : Schema) : Prop where
  schema : s.check = .ok s
  fields : ∀ f ∈ s.fields, f.check = .ok f

namespace Schema

theorem eq_of_check {s t : Schema} (checked : s.check = .ok t) : t = s := by
  rw [check] at checked
  split at checked
  · cases checked
  split at checked
  · cases checked
  exact (Except.ok.inj checked).symm

theorem Checked.of_ofValue {definition : Value} {s : Schema} (given : ofValue definition = .ok s) :
    s.Checked := by
  obtain ⟨parts, -, given⟩ := bind_eq_ok.mp given
  obtain ⟨_, -, given⟩ := bind_eq_ok.mp given
  obtain ⟨_, -, given⟩ := bind_eq_ok.mp given
  obtain ⟨members, -, given⟩ := bind_eq_ok.mp given
  obtain ⟨fields, read, given⟩ := bind_eq_ok.mp given
  have same := eq_of_check given
  constructor
  case schema => rwa [← same] at given
  case fields =>
    intro f listed
    rw [same] at listed
    obtain ⟨v, -, answered⟩ := exists_of_mem_mapM read listed
    exact Field.check_of_ofValue answered

theorem Checked.name_isTrue {s : Schema} (checked : s.Checked) : s.name.isTrue = true := by
  have passed := checked.schema
  rw [check] at passed
  split at passed
  · cases passed
  · rename_i named
    simpa using named

theorem Checked.nodup {s : Schema} (checked : s.Checked) : s.fieldNames.Nodup := by
  have passed := checked.schema
  rw [check] at passed
  split at passed
  · cases passed
  split at passed
  · cases passed
  · rename_i whole
    exact Text.nodup_of_length_distinct (not_not.mp whole)

theorem Checked.eq_of_name {s : Schema} (checked : s.Checked) {f g : Field} (hf : f ∈ s.fields)
    (hg : g ∈ s.fields) (same : f.name = g.name) : f = g :=
  List.inj_on_of_nodup_map checked.nodup hf hg same

end Schema

namespace Catalog

/-- Catalogs that come from registering checked schemas, one after another. -/
inductive Registered : Catalog → Prop where
  | empty : Registered {}
  | register {c : Catalog} {s : Schema} (before : Registered c) (checked : s.Checked) :
      Registered (exec (Catalog.register s) c).2
  | freeze {c : Catalog} (before : Registered c) : Registered (exec Catalog.freeze c).2

def SameSchemas (c d : Catalog) : Prop := d.schemas = c.schemas

instance : IsPreorder Catalog SameSchemas where
  refl _ := rfl
  trans _ _ _ first later := later.trans first

theorem addEdges_moves (child : Key) (fields : List Field) :
    Moves SameSchemas (addEdges child fields) := by
  induction fields with
  | nil => exact moves_pure _
  | cons f rest ih =>
    exact moves_bind (moves_ofExcept _) fun _ => moves_bind (moves_modify fun _ => rfl) fun _ => ih

theorem freeze_moves : Moves SameSchemas freeze := by
  refine moves_get_bind fun c => ?_
  dsimp only
  split
  · rfl
  · cases c.computeFingerprint with
    | error failure => rfl
    | ok fingerprint => rfl

theorem register_schemas (s : Schema) (c : Catalog) :
    (exec (register s) c).2.schemas = c.schemas ∨ ∃ name, Key.ofValue s.name = .ok name ∧
      (exec (register s) c).2.schemas = c.schemas ++ [(name, s)] := by
  rw [register, exec_bind, exec_get]
  dsimp only
  split
  · exact .inl rfl
  · rw [exec_bind, exec_ofExcept]
    cases named : Key.ofValue s.name with
    | error failure => exact .inl rfl
    | ok name =>
      dsimp only
      split
      · exact .inl rfl
      · rw [exec_bind, exec_set]
        exact .inr ⟨name, rfl, addEdges_moves name s.referFields _⟩

theorem Registered.checked {c : Catalog} (registered : c.Registered) :
    ∀ key s, (key, s) ∈ c.schemas → s.Checked ∧ Key.ofValue s.name = .ok key := by
  induction registered with
  | empty => exact fun _ _ member => by cases member
  | @register c s before checked ih =>
    rcases register_schemas s c with same | ⟨name, named, more⟩
    · rwa [same]
    · rw [more]
      intro key t member
      rcases List.mem_append.mp member with old | new
      · exact ih key t old
      · cases List.mem_singleton.mp new
        exact ⟨checked, named⟩
  | @freeze c before ih =>
    rw [show (exec Catalog.freeze c).2.schemas = c.schemas from freeze_moves c]
    exact ih

theorem Registered.of_get? {c : Catalog} (registered : c.Registered) {name : Key} {s : Schema}
    (found : c.get? name = some s) :
    s.Checked ∧ ∃ key, Key.ofValue s.name = .ok key ∧ c.get? key = some s := by
  obtain ⟨key, same, listed⟩ := Keyed.mem_of_find? found
  obtain ⟨checked, named⟩ := registered.checked key s listed
  refine ⟨checked, key, named, ?_⟩
  rw [get?, Keyed.find?_congr same]
  exact found

end Catalog

end RecordRules
