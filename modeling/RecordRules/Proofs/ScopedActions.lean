import RecordRules.Proofs.Atomicity
import RecordRules.Proofs.CascadeRequests
import RecordRules.Proofs.Reading

/-!
Actions in an open scope. A cascade that starts in an open scope goes on in it: nothing that
actions ask for closes it. The scopes of the actions are inner ones then, and leaving them restores
no rows, so that rows are changed by the requests of the actions alone.
-/
namespace RecordRules

open Step

namespace Store

theorem sameRows_leave {s t : Store} (opened : s.scope.isSome = true)
    (inside : SameScope s.enter t) (failed : Bool) : SameRows t (t.leave failed) := by
  obtain ⟨outer, scope⟩ := Option.isSome_iff_exists.mp opened
  have inner : t.scope = some { outer with inner := outer.inner + 1 } := by
    rw [show t.scope = _ from inside, enter, scope]
  rw [SameRows, leave, inner]

theorem isSome_scope_enter (s : Store) : s.enter.scope.isSome = true := by
  unfold enter
  split <;> rfl

end Store

theorem Turn.sameRows_inScope {α : Type} {step : Step Turn α} {turn : Turn}
    (opened : turn.store.scope.isSome = true) (moves : Moves (Turn.Across Store.SameScope) step) :
    Store.SameRows (exec step { turn with store := turn.store.enter }).2.store
      (exec (Turn.inScope step) turn).2.store := by
  have inside := moves { turn with store := turn.store.enter }
  unfold Turn.inScope
  rw [exec_of]
  cases ran : exec step { turn with store := turn.store.enter } with
  | mk outcome after =>
    rw [ran] at inside
    cases outcome with
    | ok answer => exact Store.sameRows_leave opened inside false
    | error failure => exact Store.sameRows_leave opened inside true

namespace Engine

variable {e : Engine} {s : Store} {roots : List Event}

section

variable {R : Store → Store → Prop} [Store.Frame R]

theorem Reaches.across {course : Course} (reached : e.Reaches s roots course) :
    R s course.turn.store := by
  induction reached with
  | refl => exact refl s
  | @tail course _ before goes ih =>
    cases goes with
    | @dispatch event depth rest waiting went =>
      have moved := e.advance_moves (R := R) event depth { course with queue := rest }
      rw [went] at moved
      exact IsTrans.trans (r := R) _ _ _ ih moved

theorem Dispatches.across {event : Event} {turn : Turn}
    (dispatches : e.Dispatches s roots event turn) : R s turn.store := by
  obtain ⟨course, waiting, depth, rest, store, reached, -, loaded, rfl⟩ := dispatches
  have looked := e.hydrate_moves (R := R) (course.place waiting) course.turn.store
  rw [loaded] at looked
  exact IsTrans.trans (r := R) _ _ _ (Reaches.across reached) looked

theorem Reacts.across {event : Event} {r : Reaction} {turn : Turn}
    (reacts : e.Reacts s roots event r turn) : R s turn.store := by
  obtain ⟨first, before, later, dispatches, -, done⟩ := reacts
  have moved := moves_forM (e.react_moves (R := R) event) before first
  rw [done] at moved
  exact IsTrans.trans (r := R) _ _ _ dispatches.across moved

theorem Targets.across {event : Event} {r : Reaction} {targets : List Record} {turn : Turn}
    (found : e.Targets s roots event r targets turn) : R s turn.store := by
  obtain ⟨before, reacts, ran⟩ := found
  have looked : Moves (Turn.Across R) (e.targetsOf r event) :=
    Turn.onStore_moves (Store.related_moves _ _ _ _)
  have moved := looked before
  rw [ran] at moved
  exact IsTrans.trans (r := R) _ _ _ reacts.across moved

theorem answer?_across {p q : Procedure} {turn after : Turn}
    (answered : e.answer? p turn = some (q, after)) : R turn.store after.store := by
  have step {α : Type} {step : Step Turn α} {next : α → Procedure}
      (moves : Moves (Turn.Across R) step)
      (left : Procedure.after step next turn = some (q, after)) : R turn.store after.store := by
    rw [Procedure.eq_of_after left]
    exact moves turn
  unfold answer? at answered
  cases p with
  | done events => cases answered
  | fail failure => cases answered
  | write r updates next => exact step (moves_attempt (e.applyWrite_moves r updates)) answered
  | rawWrite r updates next =>
    exact step (moves_attempt (Turn.onStore_moves (Store.write_moves r updates))) answered
  | peek schema id next =>
    obtain ⟨-, rfl⟩ := Prod.mk.inj (Option.some.inj answered)
    exact refl (r := R) turn.store
  | get schema id next => exact step (Turn.onStore_moves (Store.get_moves schema id)) answered
  | related r scope only next =>
    exact step (moves_attempt (Turn.onStore_moves (Store.related_moves _ _ _ _))) answered
  | query schema filter next =>
    exact step (Turn.onStore_moves (Store.query_moves schema filter)) answered
  | insert schema data id next =>
    exact step (moves_attempt (Turn.onStore_moves (Store.insert_moves _ _ _ _))) answered
  | delete r next => exact step (Turn.onStore_moves (Store.delete_moves r)) answered
  | emit event next => exact step (follow_moves event) answered
  | inScope body next =>
    exact step (moves_attempt (Turn.inScope_moves (e.carryOut_moves body))) answered

end

/-- A cascade that starts in an open scope carries out its actions in an open scope. -/
theorem Acts.isSome_scope (opened : s.scope.isSome = true) {p : Procedure} {turn : Turn}
    (acts : e.Acts s roots p turn) : turn.store.scope.isSome = true := by
  induction acts with
  | @start name call turn key action called named known =>
    have kept : Store.SameScope s turn.store := called.1.across
    change turn.store.scope.isSome = true
    rw [show turn.store.scope = _ from kept]
    exact opened
  | @next p q turn after before answered ih =>
    have kept : Store.SameScope turn.store after.store := answer?_across answered
    rw [show after.store.scope = _ from kept]
    exact ih
  | enter before ih => exact Store.isSome_scope_enter _

end Engine

end RecordRules
