import RecordRules.Engine.Host
import RecordRules.Proofs.Frame.Store

/-!
Frames of the engine: a frame of the store is one of every dispatch, whatever custom actions do in
it, of every cascade, and of everything that hosts do. What looks at the rows keep is kept by the
loading of states and of related records.
-/
namespace RecordRules

open Step

variable {α : Type} {R : Store → Store → Prop}

abbrev Turn.Across (R : Store → Store → Prop) : Turn → Turn → Prop := Order.Preimage Turn.store R

abbrev Course.Across (R : Store → Store → Prop) : Course → Course → Prop :=
  Order.Preimage Course.turn (Turn.Across R)

theorem Turn.onStore_moves {step : Step Store α} (h : Moves R step) :
    Moves (Turn.Across R) (Turn.onStore step) := moves_within (fun _ _ => rfl) h

namespace Engine

variable [Store.Looks R] (e : Engine)

theorem stateOf_moves (r : Record) : Moves R (e.stateOf r) := RecordState.load_moves _ _ _

theorem guardWrite_moves (r : Record) (updates : Entries) : Moves R (e.guardWrite r updates) :=
  moves_ite (moves_bind (e.stateOf_moves r) fun _ => moves_ofExcept _) (moves_pure _)

theorem relatedFor_moves (direction : Direction) (object : Record) (extent : Extent)
    (present : List Record) : Moves R (e.relatedFor direction object extent present) :=
  moves_ite (moves_pure _) (Traversal.collect_moves _ _ _ _)

theorem hydrate_moves (event : Event) : Moves R (e.hydrate event) :=
  moves_ite (moves_pure _) (moves_ite (moves_pure _)
    (moves_bind (e.relatedFor_moves _ _ _ _) fun _ =>
      moves_bind (e.relatedFor_moves _ _ _ _) fun _ => moves_pure _))

end Engine

variable [Store.Frame R]

theorem Turn.inScope_moves {step : Step Turn α} (h : Moves (Turn.Across R) step) :
    Moves (Turn.Across R) (Turn.inScope step) := by
  intro turn
  have inside := h { turn with store := turn.store.enter }
  rw [Turn.inScope, exec_of]
  cases ran : exec step { turn with store := turn.store.enter } with
  | mk outcome after =>
    rw [ran] at inside
    cases outcome with
    | ok answer => exact Store.Frame.inside _ _ false inside
    | error failure => exact Store.Frame.inside _ _ true inside

theorem Turn.modify_moves {f : Turn → Turn} (same : ∀ turn, (f turn).store = turn.store) :
    Moves (Turn.Across R) (modify f : Step Turn PUnit) := by
  apply moves_modify
  intro turn
  simpa only [Order.Preimage, same] using refl (r := R) turn.store

namespace Engine

variable (e : Engine)

theorem follow_moves (event : Event) : Moves (Turn.Across R) (Turn.follow event) :=
  Turn.modify_moves fun _ => rfl

theorem applyWrite_moves (r : Record) (updates : Entries) :
    Moves (Turn.Across R) (e.applyWrite r updates) := by
  refine moves_bind (Turn.onStore_moves (Store.get_moves _ _)) fun _ =>
    moves_bind moves_get fun _ => moves_ite (moves_pure _) ?_
  refine moves_bind (Turn.onStore_moves (e.guardWrite_moves _ _)) fun _ =>
    moves_bind (Turn.onStore_moves (Store.write_moves _ _)) fun _ => ?_
  exact moves_bind (Turn.modify_moves fun _ => rfl) fun _ =>
    moves_bind (follow_moves _) fun _ => moves_pure _

theorem carryOut_moves (p : Procedure) : Moves (Turn.Across R) (e.carryOut p) := by
  induction p with
  | done events => exact moves_pure events
  | fail failure => exact moves_throw failure
  | write r updates next ih =>
    exact moves_bind (moves_attempt (e.applyWrite_moves r updates)) ih
  | rawWrite r updates next ih =>
    exact moves_bind (moves_attempt (Turn.onStore_moves (Store.write_moves r updates))) ih
  | peek schema id next ih => exact moves_bind moves_get fun _ => ih _
  | get schema id next ih => exact moves_bind (Turn.onStore_moves (Store.get_moves _ _)) ih
  | related r scope only next ih =>
    exact moves_bind (moves_attempt (Turn.onStore_moves (Store.related_moves _ _ _ _))) ih
  | query schema filter next ih =>
    exact moves_bind (Turn.onStore_moves (Store.query_moves _ _)) ih
  | insert schema data id next ih =>
    exact moves_bind (moves_attempt (Turn.onStore_moves (Store.insert_moves _ _ _ _))) ih
  | delete r next ih => exact moves_bind (Turn.onStore_moves (Store.delete_moves r)) ih
  | emit event next ih => exact moves_bind (follow_moves event) fun _ => ih
  | inScope body next body_ih ih =>
    exact moves_bind (moves_attempt (Turn.inScope_moves body_ih)) ih

theorem invoke_moves (name : Value) (call : ActionCall) :
    Moves (Turn.Across R) (e.invoke name call) := by
  refine moves_bind (moves_ofExcept _) fun key => ?_
  cases e.actions.actions.find? key with
  | none => exact moves_throw _
  | some action =>
    refine moves_bind (moves_modify fun turn => Store.Frame.invocation _ _) fun _ =>
      moves_bind (moves_attempt (e.carryOut_moves _)) fun outcome => ?_
    cases outcome with
    | ok events => exact moves_pure events
    | error failure => exact moves_throw _

theorem setFields_moves (assignments : List (String × Operand)) (scene : Scene) (target : Record) :
    Moves (Turn.Across R) (e.setFields assignments scene target) :=
  moves_bind (moves_ofExcept _) fun _ =>
    moves_ite (moves_bind (e.applyWrite_moves _ _) fun _ => moves_pure _) (moves_pure _)

theorem react_moves (event : Event) (r : Reaction) : Moves (Turn.Across R) (e.react event r) := by
  refine moves_bind (Turn.onStore_moves (Store.related_moves _ _ _ _)) fun targets => ?_
  cases r.action with
  | set assignments => exact moves_forM (e.setFields_moves assignments _) targets
  | custom name => exact moves_bind (e.invoke_moves _ _) (moves_forM follow_moves)

theorem dispatch_moves (event : Event) : Moves (Turn.Across R) (e.dispatch event) :=
  moves_bind (Turn.modify_moves fun _ => rfl) fun _ =>
    moves_bind (moves_forM (e.react_moves event) _) fun _ =>
      moves_bind moves_get fun _ => moves_pure _

theorem dispatchLoaded_moves (event : Event) :
    Moves (Turn.Across R) (e.dispatchLoaded event) :=
  moves_bind (Turn.onStore_moves (e.hydrate_moves _)) e.dispatch_moves

theorem advance_moves (event : Event) (depth : Nat) :
    Moves (Course.Across R) (e.advance event depth) := by
  intro course
  have moved := e.dispatchLoaded_moves (R := R) (course.place event) course.turn
  rw [exec_advance]
  split
  · rename_i failure turn ran
    rw [ran] at moved
    exact moved
  · rename_i d turn ran
    rw [ran] at moved
    split <;> exact moved

theorem drain_moves (course : Course) : Course.Across R course (e.drain course).2 := by
  fun_induction Engine.drain e course with
  | case1 course waiting => exact refl course
  | case2 course event depth rest waiting failure stopped went =>
    have moved := e.advance_moves (R := R) event depth { course with queue := rest }
    rw [went] at moved
    exact moved
  | case3 course event depth rest waiting _ next went ih =>
    have moved := e.advance_moves (R := R) event depth { course with queue := rest }
    rw [went] at moved
    exact IsTrans.trans (r := R) _ _ _ moved ih

theorem propagate_moves (roots : List Event) : Moves R (e.propagate roots) := by
  intro s
  have moved := e.drain_moves (R := R) (.start s roots)
  rw [propagate, exec_of]
  split
  · rename_i course ran
    rw [ran] at moved
    exact moved
  · rename_i failure course ran
    rw [ran] at moved
    exact moved

theorem insertRecord_moves (p : Payload) (parent : Option Record) :
    Moves R (e.insertRecord p parent) :=
  moves_bind (moves_ofExcept _) fun _ => moves_bind (e.stateOf_moves _) fun _ =>
    moves_bind (moves_ofExcept _) fun _ => Store.insert_moves _ _ _ _

end Engine

namespace Engine

variable {e : Engine} {Q : Store → Store → Prop} [IsPreorder Store Q]

mutual

theorem insertTree_moves_of (each : ∀ p parent, Moves Q (e.insertRecord p parent)) :
    (p : Payload) → (parent : Option Record) → Moves Q (e.insertTree p parent)
  | .node _ _ _ children, parent =>
    moves_bind (each _ parent) fun r =>
      moves_bind (insertGroups_moves_of each children r) fun _ => moves_pure _

theorem insertGroups_moves_of (each : ∀ p parent, Moves Q (e.insertRecord p parent)) :
    (groups : List (String × List Payload)) → (parent : Record) →
      Moves Q (e.insertGroups groups parent)
  | [], _ => moves_pure _
  | (_, nodes) :: rest, parent =>
    moves_bind (insertAll_moves_of each nodes parent) fun _ =>
      moves_bind (insertGroups_moves_of each rest parent) fun _ => moves_pure _

theorem insertAll_moves_of (each : ∀ p parent, Moves Q (e.insertRecord p parent)) :
    (nodes : List Payload) → (parent : Record) → Moves Q (e.insertAll nodes parent)
  | [], _ => moves_pure _
  | p :: rest, parent =>
    moves_bind (insertTree_moves_of each p (some parent)) fun _ =>
      moves_bind (insertAll_moves_of each rest parent) fun _ => moves_pure _

end

theorem insertTree_moves (e : Engine) (p : Payload) (parent : Option Record) :
    Moves R (e.insertTree p parent) := insertTree_moves_of e.insertRecord_moves p parent

end Engine

namespace Engine

variable (e : Engine)

theorem create_moves (schema : Key) (payload : Value) (placement : Placement) :
    Moves R (e.create schema payload placement) := by
  refine moves_bind (moves_ofExcept _) fun _ => moves_bind (moves_ofExcept _) fun tree => ?_
  apply Store.transaction_moves
  refine moves_bind (e.insertTree_moves tree none) fun _ => ?_
  exact moves_bind (e.propagate_moves _) fun _ => moves_pure _

theorem update_moves (schema id : Key) (updates : Value) :
    Moves R (e.update schema id updates) := by
  refine moves_bind (moves_ofExcept _) fun _ => moves_bind (moves_ofExcept _) fun _ => ?_
  apply Store.transaction_moves
  refine moves_bind (Store.require_moves schema id) fun current => ?_
  refine moves_ite (moves_pure _) (moves_bind (e.stateOf_moves current) fun _ => ?_)
  refine moves_bind (moves_ofExcept _) fun _ => moves_bind (moves_ofExcept _) fun _ => ?_
  refine moves_bind (Store.write_moves _ _) fun _ => ?_
  exact moves_bind (e.propagate_moves _) fun _ => moves_pure _

protected theorem delete_moves (schema id : Key) : Moves R (e.delete schema id) := by
  refine moves_bind (moves_ofExcept _) fun _ => ?_
  apply Store.transaction_moves
  refine moves_bind (Store.require_moves schema id) fun current => ?_
  refine moves_bind (e.stateOf_moves current) fun _ => moves_ite (moves_throw _) ?_
  refine moves_bind (Store.delete_moves current) fun _ => ?_
  exact moves_bind (e.propagate_moves _) fun _ => moves_pure _

theorem perform_moves (call : HostCall) : Moves R (e.perform call) := by
  cases call with
  | create schema payload placement =>
    exact moves_bind (e.create_moves schema payload placement) fun _ => moves_pure _
  | update schema id updates =>
    exact moves_bind (e.update_moves schema id updates) fun _ => moves_pure _
  | delete schema id => exact moves_bind (e.delete_moves schema id) fun _ => moves_pure _
  | report events =>
    have ran := Store.transaction_moves (e.propagate_moves (R := R) events)
    exact moves_bind ran fun _ => moves_pure _

end Engine

end RecordRules
