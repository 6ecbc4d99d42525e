import RecordRules.Engine.Change
import RecordRules.Proofs.Frame.Engine
import RecordRules.Proofs.StateCheck

/-!
The steps of an update. Between finding a row and the cascade, the row is overwritten: the state of
the record is loaded, the write is checked against it, the row that it leads to is validated, and
then it is stored.
-/
namespace RecordRules

open Step

namespace Record

variable {r : Record} {data : Entries}

theorem differs_of_mem_changes {entry : String × Value} (inside : entry ∈ r.changes data) :
    r.differs entry = true :=
  (List.mem_filter.mp inside).2

theorem nodup_changes (distinct : data.names.Nodup) : (r.changes data).names.Nodup :=
  Keyed.nodup_filter distinct _

end Record

namespace Store

instance : Looks SameRows where
  refl _ := rfl
  trans _ _ _ first later := Eq.trans later first
  note _ _ _ := rfl

theorem putRow_tables_of_sameRows {s t : Store} (same : SameRows s t) (schema id : Key)
    (data : Entries) : (t.putRow schema id data).tables = (s.putRow schema id data).tables := by
  unfold putRow table
  rw [show t.tables = s.tables from same]

theorem exec_transaction_eq_ok {α : Type} {step : Step Store α} {x : α} {s t : Store} :
    exec (transaction step) s = (.ok x, t) ↔
      ∃ after, exec step s.enter = (.ok x, after) ∧ t = after.leave false := by
  unfold transaction
  rw [exec_of]
  cases exec step s.enter with
  | mk outcome after =>
    cases outcome with
    | error failure => simp
    | ok y =>
      constructor
      · intro ended
        obtain ⟨answered, rfl⟩ := Prod.mk.inj ended
        exact ⟨after, by rw [Except.ok.inj answered], rfl⟩
      · rintro ⟨_, ⟨⟩, rfl⟩
        rfl

theorem of_require_ok {schema id : Key} {r : Record} {s t : Store}
    (ran : exec (require schema id) s = (.ok r, t)) :
    SameRows s t ∧ t.row? r.schema r.id = some r.data ∧ r.schema = schema ∧ r.id = id := by
  rw [exec_require] at ran
  obtain ⟨found, rfl⟩ := Prod.mk.inj ran
  split at found
  · rename_i data stored
    obtain rfl := Except.ok.inj found
    exact ⟨rfl, stored, rfl, rfl⟩
  · cases found

theorem leave_noted (s : Store) (access : Access) (schema : Key) :
    leave false { s.enter with trace := s.enter.trace ++ [(access, schema)] } =
      { s with trace := s.trace ++ [(access, schema)] } := by
  obtain ⟨tables, scope, issued, trace, invocations⟩ := s
  cases scope <;> rfl

end Store

namespace Engine

variable {e : Engine}

def overwrite (e : Engine) (s : Schema) (current : Record) (changes : Entries) :
    Step Store Record := do
  let state ← e.stateOf current
  Step.ofExcept (state.checkWrite e.catalog current changes)
  Step.ofExcept (s.validate (current.withUpdates changes).data)
  Store.write current changes

/-- What an update does with the record that it has found. -/
def revise (e : Engine) (s : Schema) (data : Entries) (current : Record) : Step Store Mutation := do
  if (current.changes data).isEmpty then return { record := current }
  let written ← e.overwrite s current (current.changes data)
  let cascade ← e.propagate [.modifiedOf written (current.changes data).names]
  return ⟨written, some cascade⟩

theorem update_eq (e : Engine) (schema id : Key) (updates : Value) :
    e.update schema id updates = (do
      let s ← Step.ofExcept (e.catalog.require schema)
      let data ← Step.ofExcept (e.readUpdates schema updates)
      Store.transaction do e.revise s data (← Store.require schema id)) := by
  simp only [update, revise, overwrite, bind_assoc]

theorem revise_of_isEmpty {s : Schema} {data : Entries} {current : Record}
    (nothing : (current.changes data).isEmpty = true) :
    e.revise s data current = pure { record := current } := if_pos nothing

theorem update_of_nothing {s : Store} {schema id : Key} {updates : Value} {definition : Schema}
    {data row : Entries}
    (known : e.catalog.require schema = .ok definition)
    (read : e.readUpdates schema updates = .ok data)
    (present : s.row? schema id = some row)
    (nothing : (⟨schema, id, row⟩ : Record).changes data = []) :
    exec (e.update schema id updates) s =
      (.ok { record := ⟨schema, id, row⟩ }, { s with trace := s.trace ++ [(.get, schema)] }) := by
  have found := Store.exec_require schema id s.enter
  rw [Store.row?_of_sameRows (Store.sameRows_enter s), present] at found
  rw [update_eq]
  refine exec_ofExcept_bind_eq_ok.mpr ⟨definition, known, ?_⟩
  refine exec_ofExcept_bind_eq_ok.mpr ⟨data, read, ?_⟩
  refine Store.exec_transaction_eq_ok.mpr ⟨_, ?_, (s.leave_noted .get schema).symm⟩
  refine exec_bind_eq_ok.mpr ⟨_, _, found, ?_⟩
  rw [revise_of_isEmpty (List.isEmpty_iff.mpr nothing)]
  rfl

theorem revise_of_not_isEmpty {s : Schema} {data : Entries} {current : Record}
    (something : ¬(current.changes data).isEmpty = true) :
    e.revise s data current = (do
      let written ← e.overwrite s current (current.changes data)
      let cascade ← e.propagate [.modifiedOf written (current.changes data).names]
      return ⟨written, some cascade⟩) := if_neg something

theorem of_overwrite_ok {s : Schema} {current written : Record} {changes : Entries}
    {before after : Store} (stored : before.row? current.schema current.id = some current.data)
    (ran : exec (e.overwrite s current changes) before = (.ok written, after)) :
    (∃ state, (exec (e.stateOf current) before).1 = .ok state ∧
      state.checkWrite e.catalog current changes = .ok ()) ∧
      s.validate (current.withUpdates changes).data = .ok () ∧
      written = current.withUpdates changes ∧ after.tables =
        (before.putRow current.schema current.id (current.withUpdates changes).data).tables := by
  unfold overwrite at ran
  obtain ⟨state, looked, loaded, ran⟩ := exec_bind_eq_ok.mp ran
  obtain ⟨_, checked, ran⟩ := exec_ofExcept_bind_eq_ok.mp ran
  obtain ⟨_, valid, ran⟩ := exec_ofExcept_bind_eq_ok.mp ran
  have same : Store.SameRows before looked := by
    have moved := e.stateOf_moves (R := Store.SameRows) current before
    rwa [loaded] at moved
  rw [Store.exec_write, Store.row?_of_sameRows same, stored] at ran
  obtain ⟨answered, rfl⟩ := Prod.mk.inj ran
  refine ⟨⟨state, by rw [loaded], checked⟩, valid, (Except.ok.inj answered).symm, ?_⟩
  exact Store.putRow_tables_of_sameRows same _ _ _

theorem overwrite_succeeds {s : Schema} {current : Record} {changes : Entries} {before : Store}
    {state : RecordState} (stored : before.row? current.schema current.id = some current.data)
    (loaded : (exec (e.stateOf current) before).1 = .ok state)
    (checked : state.checkWrite e.catalog current changes = .ok ())
    (valid : s.validate (current.withUpdates changes).data = .ok ()) :
    ∃ after, exec (e.overwrite s current changes) before =
      (.ok (current.withUpdates changes), after) := by
  have same : Store.SameRows before (exec (e.stateOf current) before).2 :=
    e.stateOf_moves (R := Store.SameRows) current before
  have wrote := Store.exec_write current changes (exec (e.stateOf current) before).2
  rw [Store.row?_of_sameRows same, stored] at wrote
  exact ⟨_, exec_bind_eq_ok.mpr ⟨state, _, Prod.ext loaded rfl,
    exec_ofExcept_bind_eq_ok.mpr ⟨(), checked,
      exec_ofExcept_bind_eq_ok.mpr ⟨(), valid, wrote⟩⟩⟩⟩

end Engine

end RecordRules
