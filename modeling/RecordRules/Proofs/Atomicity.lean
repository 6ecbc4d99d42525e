import RecordRules.Engine.Host
import RecordRules.Proofs.Frame.Engine

/-!
Atomicity: a host call that fails leaves all rows as they were. Nothing inside a call closes the
scope that the call opened or changes the rows that it saved, so that leaving it by a failure
restores them, wherever the failure came from.
-/
namespace RecordRules

open Step

namespace Store

def SameScope (s t : Store) : Prop := t.scope = s.scope

theorem leave_scope {s t : Store} (failed : Bool) (inside : SameScope s.enter t) :
    SameScope s (t.leave failed) := by
  unfold SameScope enter at inside
  unfold SameScope leave
  cases outer : s.scope with
  | none =>
    rw [outer] at inside
    rw [inside]
  | some scope =>
    rw [outer] at inside
    rw [inside]

instance : Frame SameScope where
  refl _ := rfl
  trans _ _ _ first later := later.trans first
  note _ _ _ := rfl
  invocation _ _ := rfl
  issue _ := rfl
  put _ _ _ _ := rfl
  remove _ _ _ := rfl
  inside _ _ failed := leave_scope failed

/-- From outside any scope, a failure of the operation leaves the rows as they were. -/
def Restores {α : Type} (step : Step Store α) : Prop :=
  ∀ (s t : Store) (failure : Failure), s.scope = none → exec step s = (.error failure, t) →
    t.tables = s.tables

variable {α β : Type}

theorem restores_transaction {step : Step Store α} (inside : Moves SameScope step) :
    Restores (transaction step) := by
  intro s t failure closed failed
  have saved : (exec step s.enter).2.scope = some ⟨0, s.tables⟩ := by
    rw [inside s.enter, enter, closed]
  rw [transaction, exec_of] at failed
  cases ran : exec step s.enter with
  | mk outcome after =>
    rw [ran] at failed saved
    cases outcome with
    | ok answer => cases failed
    | error _ =>
      cases failed
      rw [leave, show after.scope = _ from saved]
      rfl

theorem restores_ofExcept_bind {outcome : Except Failure α} {next : α → Step Store β}
    (later : ∀ x, Restores (next x)) : Restores (Step.ofExcept outcome >>= next) := by
  intro s t failure closed failed
  rw [exec_bind, exec_ofExcept] at failed
  cases outcome with
  | error _ => cases failed; rfl
  | ok x => exact later x s t failure closed failed

theorem restores_map {step : Step Store α} {f : α → β} (h : Restores step) :
    Restores (do return f (← step)) := by
  intro s t failure closed failed
  rw [exec_bind] at failed
  cases ran : exec step s with
  | mk outcome after =>
    rw [ran] at failed
    cases outcome with
    | ok _ => cases failed
    | error _ =>
      cases failed
      exact h s _ _ closed ran

end Store

namespace Engine

open Store

variable (e : Engine)

theorem create_restores (schema : Key) (payload : Value) (placement : Placement) :
    Restores (e.create schema payload placement) := by
  refine restores_ofExcept_bind fun _ => restores_ofExcept_bind fun tree => ?_
  apply restores_transaction
  exact moves_bind (e.insertTree_moves tree none) fun _ =>
    moves_bind (e.propagate_moves _) fun _ => moves_pure _

theorem update_restores (schema id : Key) (updates : Value) :
    Restores (e.update schema id updates) := by
  refine restores_ofExcept_bind fun _ => restores_ofExcept_bind fun _ => ?_
  apply restores_transaction
  refine moves_bind (require_moves schema id) fun _ => moves_ite (moves_pure _) ?_
  refine moves_bind (e.stateOf_moves _) fun _ => moves_bind (moves_ofExcept _) fun _ =>
    moves_bind (moves_ofExcept _) fun _ => moves_bind (write_moves _ _) fun _ => ?_
  exact moves_bind (e.propagate_moves _) fun _ => moves_pure _

theorem delete_restores (schema id : Key) : Restores (e.delete schema id) := by
  refine restores_ofExcept_bind fun _ => ?_
  apply restores_transaction
  refine moves_bind (require_moves schema id) fun _ => moves_bind (e.stateOf_moves _) fun _ =>
    moves_ite (moves_throw _) ?_
  exact moves_bind (delete_moves _) fun _ =>
    moves_bind (e.propagate_moves _) fun _ => moves_pure _

theorem run_restores (events : List Event) : Restores (e.run events) :=
  restores_transaction (e.propagate_moves events)

/-- A failed host call restores all rows, in their order. -/
theorem perform_error_tables (e : Engine) (call : HostCall) (s t : Store) (failure : Failure)
    (closed : s.scope = none) (failed : exec (e.perform call) s = (.error failure, t)) :
    t.tables = s.tables := by
  cases call with
  | create schema payload placement =>
    exact restores_map (e.create_restores schema payload placement) s t failure closed failed
  | update schema id updates =>
    exact restores_map (e.update_restores schema id updates) s t failure closed failed
  | delete schema id => exact restores_map (e.delete_restores schema id) s t failure closed failed
  | report events => exact restores_map (e.run_restores events) s t failure closed failed

theorem perform_report_error_tables :
    let e : Engine :=
      { catalog := { schemas := [(.text "Task", { name := .text "Task" })] }
        rules := { reactions :=
          [{ schema := .text "Task", event := .modified, action := .custom (.text "close") }] }
        actions := { actions := [(.text "close", fun call =>
          .rawWrite call.event.object [("done", .bool true)] fun _ =>
          .insert (.text "Task") [] (.text "next") fun _ =>
          .delete call.event.object fun _ => .fail (.raised "RuntimeError" "too late"))] } }
    let s : Store := { tables := [(.text "Task", [(.text "first", [("done", .bool false)])])] }
    let call : HostCall := .report [.modifiedOf ⟨.text "Task", .text "first", []⟩ ["done"]]
    let left := exec (e.perform call) s
    left.1 = .error (.action (.text "close") "too late") ∧ left.2.tables = s.tables := by
  intro e s call left
  have failed : left.1 = .error (.action (.text "close") "too late") := by
    simp only [left, call, perform, run, transaction, propagate, exec_bind, exec_of]
    rw [e.drain_cons rfl]
    rfl
  exact ⟨failed, e.perform_error_tables call s left.2 _ rfl (Prod.ext failed rfl)⟩

end Engine

end RecordRules
