import RecordRules.Proofs.Traversal

/-!
Reading: what an operation answers while the rows stay as they are. Looking up related records
only leaves a trace, so whatever was looked up before, a traversal answers the same.
-/
namespace RecordRules

namespace Step

variable {σ α β : Type} {P : σ → Prop}

/-- From every state of a kind, an operation has this outcome and leaves a state of that kind. -/
def Yields (P : σ → Prop) (step : Step σ α) (outcome : Except Failure α) : Prop :=
  ∀ s, P s → (exec step s).1 = outcome ∧ P (exec step s).2

theorem yields_pure (x : α) : Yields P (pure x : Step σ α) (pure x) := fun _ holds => ⟨rfl, holds⟩

theorem yields_ofExcept (outcome : Except Failure α) : Yields P (ofExcept outcome) outcome :=
  fun _ holds => ⟨rfl, holds⟩

theorem yields_bind {step : Step σ α} {next : α → Step σ β} {outcome : Except Failure α}
    {later : α → Except Failure β} (first : Yields P step outcome)
    (rest : ∀ x, Yields P (next x) (later x)) :
    Yields P (step >>= next) (outcome >>= later) := by
  intro s holds
  obtain ⟨rfl, kept⟩ := first s holds
  rw [exec_bind]
  cases ran : exec step s with
  | mk answer t =>
    rw [ran] at kept
    cases answer with
    | error failure => exact ⟨rfl, kept⟩
    | ok x => exact rest x t kept

theorem yields_ok_bind {step : Step σ α} {next : α → Step σ β} {x : α}
    {outcome : Except Failure β} (first : Yields P step (.ok x))
    (rest : Yields P (next x) outcome) : Yields P (step >>= next) outcome := by
  intro s holds
  obtain ⟨answered, kept⟩ := first s holds
  rw [exec_bind]
  cases ran : exec step s with
  | mk answer t =>
    rw [ran] at answered kept
    obtain rfl : answer = .ok x := answered
    exact rest t kept

theorem yields_ite {condition : Prop} [Decidable condition] {yes no : Step σ α}
    {ifYes ifNo : Except Failure α} (hy : Yields P yes ifYes) (hn : Yields P no ifNo) :
    Yields P (if condition then yes else no) (if condition then ifYes else ifNo) := by
  split
  · exact hy
  · exact hn

end Step

open Step

namespace Store

def SameRows (s t : Store) : Prop := t.tables = s.tables

theorem SameRows.ids {s t : Store} (same : SameRows s t) : t.ids = s.ids := by
  rw [Store.ids, Store.ids, show t.tables = s.tables from same]

theorem row?_of_sameRows {s t : Store} (same : SameRows s t) (schema id : Key) :
    t.row? schema id = s.row? schema id := by
  rw [row?, row?, table, table, show t.tables = s.tables from same]

theorem sameRows_enter (s : Store) : SameRows s s.enter := by
  rw [SameRows, enter]
  split <;> rfl

theorem sameRows_leave_false (t : Store) : SameRows t (t.leave false) := by
  rw [SameRows, leave]
  split <;> rfl

theorem relatedTo_of_sameRows {s t : Store} (same : SameRows s t) (c : Catalog) (r : Record)
    (scope : Scope) (only : Value) : t.relatedTo c r scope only = s.relatedTo c r scope only := by
  obtain ⟨⟩ := s
  obtain ⟨⟩ := t
  obtain rfl := same
  rfl

theorem related_yields (s : Store) (c : Catalog) (r : Record) (scope : Scope) (only : Value) :
    Yields (SameRows s) (related c r scope only) (s.relatedTo c r scope only) :=
  fun _ same => ⟨relatedTo_of_sameRows same c r scope only, same⟩

end Store

namespace Traversal

variable {P : Store → Prop} {look : Record → Step Store (List Record)}
  {view : Record → Except Failure (List Record)}

theorem expand_yields (h : ∀ r, Yields P (look r) (view r)) (start : Record) (limit : Nat)
    (level : List Record) (front : Front) :
    Yields P (expand look start limit level front) (expand view start limit level front) := by
  induction level generalizing front with
  | nil => exact yields_pure front
  | cons r rest ih => exact yields_bind (h r) fun _ => yields_ite (yields_pure _) (ih _)

theorem levels_yields (h : ∀ r, Yields P (look r) (view r)) (start : Record)
    (limit rounds : Nat) (level found : List Record) :
    Yields P (levels look start limit rounds level found)
      (levels view start limit rounds level found) := by
  induction rounds generalizing level found with
  | zero => exact yields_pure found
  | succ rounds ih =>
    cases level with
    | nil => exact yields_pure found
    | cons r rest =>
      refine yields_ite (yields_pure found) ?_
      exact yields_bind (expand_yields h start limit _ _) fun _ => ih _ _

theorem reached_yields (h : ∀ r, Yields P (look r) (view r)) (start : Record) (extent : Extent) :
    Yields P (reached look start extent) (reached view start extent) :=
  yields_ite (yields_pure _) (levels_yields h _ _ _ _ _)

/-- Where the complete list can be loaded, its part for any extent can be loaded, as long as the
rows stay the same. -/
theorem collect_yields {c : Catalog} {direction : Direction} {start : Record} {s : Store}
    {xs : List Record} (complete : (exec (collect c direction start .all) s).1 = .ok xs)
    (extent : Extent) :
    Yields (Store.SameRows s) (collect c direction start extent) (.ok (extent.part xs)) := by
  have reads (wanted : Extent) : Yields (Store.SameRows s) (collect c direction start wanted) _ :=
    reached_yields (fun r => Store.related_yields s c r direction.scope .null) start wanted
  rw [← reached_part ((reads .all s rfl).1.symm.trans complete)]
  exact reads extent

end Traversal

end RecordRules
