import RecordRules.Proofs.StateLoading

/-!
The check of a write against the state of a record. Main statements: what exactly the check lets
through; and what it says does not depend on the trace that looks at the rows leave.
-/
namespace RecordRules

open Step

namespace RecordState

def Allows (state : RecordState) (f : Field) (v : Value) : Prop :=
  ∃ values, state.allowed? f = .ok (some values) ∧ v.isKey = true ∧ v.isIn values = true

/-- A write to a record respects its state: it changes no field that is immutable, after it no
required field is empty, and what it puts into a restricted field is nothing or an allowed value. -/
structure Permits (state : RecordState) (s : Schema) (r : Record) (changes : Entries) : Prop where
  unlocked : ∀ name ∈ r.changedNames changes, name ∉ state.immutableFields
  filled : ∀ entry ∈ state.fields, entry.2.required = true →
    ((r.withUpdates changes).get entry.1).isNull = false
  allowed : ∀ name ∈ r.changedNames changes, ∀ f, s.field? name = some f →
    (state.flagsOf name).subset.isSome = true →
      (changes.get name).isNull = true ∨ state.Allows f (changes.get name)

variable {c : Catalog} {state : RecordState} {s : Schema} {r : Record} {changes : Entries}

theorem exists_allowed {f : Field} {values : Option (List Value)}
    (restricted : (state.flagsOf f.name).subset.isSome = true)
    (answered : state.allowed? f = .ok values) : ∃ allowed, values = some allowed := by
  unfold allowed? at answered
  split at answered
  · obtain rfl := Except.ok.inj answered
    exact Option.isSome_iff_exists.mp restricted
  · obtain ⟨declared, -, answered⟩ := bind_eq_ok.mp answered
    exact ⟨_, (Except.ok.inj answered).symm⟩

theorem valueComplaint?_eq_none {name : String} {v : Value} :
    state.valueComplaint? s name v = .ok none ↔
      ∀ f, s.field? name = some f → (state.flagsOf name).subset.isSome = true →
        v.isNull = true ∨ state.Allows f v := by
  unfold valueComplaint?
  cases found : s.field? name with
  | none => simp
  | some f =>
    obtain rfl := Schema.name_of_field? found
    cases restricted : (state.flagsOf f.name).subset with
    | none => simp
    | some own =>
      have some_own : (state.flagsOf f.name).subset.isSome = true := by rw [restricted]; rfl
      by_cases null : v.isNull = true
      · simp [null]
      · simp only [null, Bool.false_eq_true, ↓reduceIte, Option.some.injEq, Option.isSome_some,
          forall_const, forall_eq', false_or]
        constructor
        · intro passed
          obtain ⟨values, answered, passed⟩ := bind_eq_ok.mp passed
          obtain ⟨allowed, rfl⟩ := exists_allowed some_own answered
          by_cases key : v.isKey = true
          · by_cases inside : v.isIn allowed = true
            · exact ⟨allowed, answered, key, inside⟩
            · simp only [key, Bool.not_true, Bool.false_eq_true, ↓reduceIte, Option.getD_some,
                inside] at passed
              obtain ⟨_, -, passed⟩ := bind_eq_ok.mp passed
              obtain ⟨_, -, passed⟩ := bind_eq_ok.mp passed
              cases passed
          · simp [key] at passed
        · rintro ⟨values, answered, key, inside⟩
          simp only [answered, bind, Except.bind, key, Bool.not_true, Bool.false_eq_true,
            ↓reduceIte, Option.getD_some, inside]
          rfl

theorem valueComplaints_eq_nil (names : List String) :
    state.valueComplaints s changes names = .ok [] ↔
      ∀ name ∈ names, state.valueComplaint? s name (changes.get name) = .ok none := by
  induction names with
  | nil => simp [valueComplaints]
  | cons name rest ih =>
    rw [valueComplaints, bind_eq_ok, List.forall_mem_cons, ← ih]
    constructor
    · rintro ⟨first, answered, passed⟩
      obtain ⟨others, later, nothing⟩ := bind_eq_ok.mp passed
      obtain ⟨here, rfl⟩ := List.append_eq_nil_iff.mp (Except.ok.inj nothing)
      rw [Option.toList_eq_nil_iff.mp here] at answered
      exact ⟨answered, later⟩
    · rintro ⟨answered, later⟩
      exact ⟨none, answered, by rw [later]; rfl⟩

theorem emptied_eq_nil : state.emptied (r.withUpdates changes) = [] ↔
    ∀ entry ∈ state.fields, entry.2.required = true →
      ((r.withUpdates changes).get entry.1).isNull = false := by
  unfold emptied
  rw [List.map_eq_nil_iff, List.filter_eq_nil_iff]
  simp

theorem blocked_eq_nil : state.blocked r changes = [] ↔
    ∀ name ∈ r.changedNames changes, name ∉ state.immutableFields := by
  unfold blocked
  rw [List.eq_nil_iff_forall_not_mem]
  simp only [Text.mem_sorted, List.mem_filter, List.contains_iff_mem, not_and]

/-- The check lets exactly the writes through that respect the state. -/
theorem checkWrite_eq_ok (known : c.get? r.schema = some s) :
    state.checkWrite c r changes = .ok () ↔ state.Permits s r changes := by
  have required : c.require r.schema = .ok s := by
    rw [Catalog.require, known]
  have values : state.valueComplaints s changes (Text.sorted (r.changedNames changes)) = .ok [] ↔
      ∀ name ∈ r.changedNames changes, ∀ f, s.field? name = some f →
        (state.flagsOf name).subset.isSome = true →
          (changes.get name).isNull = true ∨ state.Allows f (changes.get name) := by
    rw [valueComplaints_eq_nil]
    simp only [Text.mem_sorted, valueComplaint?_eq_none]
  unfold checkWrite
  simp only [↓reduceIte, required]
  constructor
  · intro passed
    by_cases free : state.blocked r changes = []
    · simp only [free, List.isEmpty_nil, Bool.not_true, Bool.false_eq_true, ↓reduceIte] at passed
      obtain ⟨_, same, passed⟩ := bind_eq_ok.mp passed
      obtain rfl := Except.ok.inj same
      obtain ⟨complaints, answered, passed⟩ := bind_eq_ok.mp passed
      by_cases nothing : state.emptied (r.withUpdates changes) ++ complaints = []
      · obtain ⟨full, rfl⟩ := List.append_eq_nil_iff.mp nothing
        exact ⟨blocked_eq_nil.mp free, emptied_eq_nil.mp full, values.mp answered⟩
      · rw [if_pos (by simpa using nothing)] at passed
        cases passed
    · rw [if_pos (by simpa using free)] at passed
      cases passed
  · rintro ⟨unlocked, filled, allowed⟩
    simp only [blocked_eq_nil.mpr unlocked, emptied_eq_nil.mpr filled, List.isEmpty_nil,
      Bool.not_true, Bool.false_eq_true, ↓reduceIte, List.nil_append]
    apply bind_eq_ok.mpr
    refine ⟨s, rfl, ?_⟩
    apply bind_eq_ok.mpr
    exact ⟨[], values.mpr allowed, rfl⟩

theorem known_of_checkWrite (passed : state.checkWrite c r changes = .ok ()) :
    ∃ s, c.get? r.schema = some s := by
  unfold checkWrite at passed
  simp only [↓reduceIte] at passed
  split at passed
  · cases passed
  · obtain ⟨s, required, -⟩ := bind_eq_ok.mp passed
    exact ⟨s, Catalog.get?_of_require required⟩

theorem load_yields (c : Catalog) (b : RuleBook) (r : Record) (s : Store) :
    ∃ outcome, Yields (Store.SameRows s) (load c b r) outcome := by
  have reads (direction : Direction) (extent : Extent) :
      ∃ outcome, Yields (Store.SameRows s) (Traversal.collect c direction r extent) outcome :=
    ⟨_, Traversal.reached_yields (fun r => Store.related_yields s c r direction.scope .null) r
      extent⟩
  obtain ⟨above, up⟩ := reads .up (b.stateReach r.schema).ancestors
  obtain ⟨below, down⟩ := reads .down (b.stateReach r.schema).descendants
  have related : ∃ outcome, Yields (Store.SameRows s) (loadRelated c b r) outcome :=
    ⟨_, yields_ite (yields_pure _)
      (yields_bind up fun _ => yields_bind down fun _ => yields_pure _)⟩
  obtain ⟨loaded, related⟩ := related
  exact ⟨_, yields_bind related fun _ => yields_ofExcept _⟩

end RecordState

theorem Engine.stateOf_of_sameRows (e : Engine) (r : Record) {s t : Store}
    (same : Store.SameRows s t) : (exec (e.stateOf r) t).1 = (exec (e.stateOf r) s).1 := by
  obtain ⟨outcome, yields⟩ := RecordState.load_yields e.catalog e.rules r s
  exact (yields t same).1.trans (yields s rfl).1.symm

end RecordRules
