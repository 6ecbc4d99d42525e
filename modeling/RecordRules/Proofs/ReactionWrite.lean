import RecordRules.Proofs.Frame.Engine

/-!
One write of a reaction: either nothing of it is left and it is dropped, or it is refused, or the
row is changed. Only in the last case does anything but the trace change, and then the row, the
chain and the events that follow change together.
-/
namespace RecordRules

open Step

namespace Store

def OnlyTrace (s t : Store) : Prop := ∃ trace, t = { s with trace }

theorem OnlyTrace.then {s t u : Store} (first : s.OnlyTrace t) (later : t.OnlyTrace u) :
    s.OnlyTrace u := by
  obtain ⟨_, rfl⟩ := first
  obtain ⟨trace, rfl⟩ := later
  exact ⟨trace, rfl⟩

instance : Looks OnlyTrace where
  refl s := ⟨s.trace, rfl⟩
  trans _ _ _ := OnlyTrace.then
  note _ _ _ := ⟨_, rfl⟩

end Store

def Turn.current (turn : Turn) (r : Record) : Record := (turn.store.peek? r.schema r.id).getD r

theorem Turn.current_of_stored {turn : Turn} {r : Record} {data : Entries}
    (stored : turn.store.row? r.schema r.id = some data) :
    turn.current r = ⟨r.schema, r.id, data⟩ := by
  rw [current, Store.peek?, stored]
  rfl

/-- The turn after a row was changed: the chain and the events that follow say so too. -/
def Turn.wrote (turn : Turn) (store : Store) (written : Record) (changes : Entries) : Turn where
  store := store.putRow written.schema written.id written.data
  chain :=
    { turn.chain.settle written changes with
      writes := turn.chain.writes ++ [⟨written, changes.names⟩] }
  followUps := turn.followUps ++ [.modifiedOf written changes.names]

namespace Engine

inductive Written (r : Record) (updates : Entries) (turn : Turn) :
    Except Failure Record × Turn → Prop where
  | dropped {store : Store} (looked : turn.store.OnlyTrace store)
      (nothing : effective turn.chain (turn.current r) updates = []) :
      Written r updates turn (.ok (turn.current r), { turn with store })
  | refused {store : Store} {failure : Failure} (looked : turn.store.OnlyTrace store) :
      Written r updates turn (.error failure, { turn with store })
  | changed {store : Store} {data changes : Entries} (looked : turn.store.OnlyTrace store)
      (stored : turn.store.row? r.schema r.id = some data)
      (left : changes = effective turn.chain ⟨r.schema, r.id, data⟩ updates)
      (something : changes ≠ []) :
      Written r updates turn
        (.ok ⟨r.schema, r.id, data.merge changes⟩,
          turn.wrote store ⟨r.schema, r.id, data.merge changes⟩ changes)

theorem applyWrite_written (e : Engine) (r : Record) (updates : Entries) (turn : Turn) :
    Written r updates turn (exec (e.applyWrite r updates) turn) := by
  have looked := Store.get_moves (R := Store.OnlyTrace) r.schema r.id turn.store
  have found : exec (Turn.onStore (Store.get r.schema r.id)) turn =
    (.ok (turn.store.peek? r.schema r.id),
      { turn with store := (exec (Store.get r.schema r.id) turn.store).2 }) := rfl
  generalize (exec (Store.get r.schema r.id) turn.store).2 = store at looked found
  rw [applyWrite, exec_bind, found]
  simp only [exec_bind, exec_get]
  change Written r updates turn
    (exec (if (effective turn.chain (turn.current r) updates).isEmpty then _ else _) _)
  split
  · rename_i nothing
    exact .dropped looked (List.isEmpty_iff.mp nothing)
  · rename_i something
    rw [List.isEmpty_iff] at something
    have guarded := e.guardWrite_moves (R := Store.OnlyTrace) (turn.current r)
      (effective turn.chain (turn.current r) updates) store
    have only (outcome : Except Failure Unit) (after : Turn)
        (ran : exec (Turn.onStore (e.guardWrite (turn.current r)
          (effective turn.chain (turn.current r) updates))) { turn with store } =
            (outcome, after)) :
        ∃ checked, turn.store.OnlyTrace checked ∧ after = { turn with store := checked } :=
      ⟨_, looked.then guarded, (Prod.mk.inj ran).2.symm⟩
    refine bind_ends (fun failure after ran => ?_) fun _ after ran => ?_
    · obtain ⟨checked, passed, rfl⟩ := only _ after ran
      exact .refused passed
    · obtain ⟨checked, passed, rfl⟩ := only _ after ran
      rw [exec_bind, Turn.exec_onStore, Store.exec_write]
      obtain ⟨trace, rfl⟩ := passed
      cases stored : turn.store.row? r.schema r.id with
      | none =>
        have given : (turn.store.peek? r.schema r.id).getD r = r := by
          rw [Store.peek?, stored]
          rfl
        have missing : { turn.store with trace }.row? r.schema r.id = none := stored
        simp only [given, missing]
        exact .refused ⟨_, rfl⟩
      | some data =>
        have given := Turn.current_of_stored stored
        have present : { turn.store with trace }.row? r.schema r.id = some data := stored
        rw [given] at something
        simp only [show (turn.store.peek? r.schema r.id).getD r = _ from given, present]
        exact .changed ⟨_, rfl⟩ stored rfl something

/-- A write of which nothing is left only looks at the record. -/
theorem exec_applyWrite_of_nothing (e : Engine) {r : Record} {updates : Entries} {turn : Turn}
    (nothing : effective turn.chain (turn.current r) updates = []) :
    exec (e.applyWrite r updates) turn =
      (.ok (turn.current r), { turn with store := { turn.store with
        trace := turn.store.trace ++ [(.get, r.schema)] } }) := by
  rw [applyWrite, exec_bind]
  change exec (if (effective turn.chain (turn.current r) updates).isEmpty then _ else _) _ = _
  rw [nothing]
  rfl

end Engine

end RecordRules
