import RecordRules.Engine.Host

/-!
Engines that know all actions which their reactions name. Further actions make no difference to such
an engine: whatever a host asks of it has the same outcome and the same effect without them.
-/
namespace RecordRules

open Step

namespace Step

variable {σ α β : Type}

theorem ofExcept_ok_bind (x : α) (next : α → Step σ β) : (ofExcept (.ok x) >>= next) = next x := rfl

theorem forM_congr {step other : α → Step σ PUnit} {xs : List α}
    (each : ∀ x ∈ xs, step x = other x) : xs.forM step = xs.forM other := by
  induction xs with
  | nil => rfl
  | cons x rest ih =>
    change (step x >>= fun _ => rest.forM step) = other x >>= fun _ => rest.forM other
    rw [each x List.mem_cons_self, ih fun y listed => each y (List.mem_cons_of_mem x listed)]

end Step

namespace Engine

theorem carryOut_congr {e f : Engine} (writes : f.applyWrite = e.applyWrite)
    (catalog : f.catalog = e.catalog) (p : Procedure) : f.carryOut p = e.carryOut p := by
  induction p with
  | done events => rfl
  | fail failure => rfl
  | write r updates next ih => simp only [carryOut, ih, writes]
  | rawWrite r updates next ih => simp only [carryOut, ih]
  | peek schema id next ih => simp only [carryOut, ih]
  | get schema id next ih => simp only [carryOut, ih]
  | related r scope only next ih => simp only [carryOut, ih, catalog]
  | query schema filter next ih => simp only [carryOut, ih]
  | insert schema data id next ih => simp only [carryOut, ih, catalog]
  | delete r next ih => simp only [carryOut, ih]
  | emit event next ih => simp only [carryOut, ih]
  | inScope body next body_ih ih => simp only [carryOut, ih, body_ih]

/-- Each action that a reaction names is there. -/
def KnowsActions (e : Engine) : Prop :=
  ∀ r ∈ e.rules.reactions, ∀ name, r.action = .custom name →
    ∃ key action, Key.ofValue name = .ok key ∧ e.actions.actions.find? key = some action

def withActions (e : Engine) (more : Keyed Key ActionFn) : Engine :=
  { e with actions := { e.actions with actions := e.actions.actions ++ more } }

variable (e : Engine) (more : Keyed Key ActionFn)

theorem applyWrite_withActions : (e.withActions more).applyWrite = e.applyWrite := rfl

/-- A procedure is carried out without a look at the actions. -/
theorem carryOut_withActions (p : Procedure) : (e.withActions more).carryOut p = e.carryOut p := by
  have writes := applyWrite_withActions e more
  exact carryOut_congr writes rfl p

mutual

theorem insertTree_withActions : (p : Payload) → (parent : Option Record) →
    (e.withActions more).insertTree p parent = e.insertTree p parent
  | .node contract location data children, parent => by
    simp only [insertTree, insertGroups_withActions children]
    rfl

theorem insertGroups_withActions : (groups : List (String × List Payload)) → (parent : Record) →
    (e.withActions more).insertGroups groups parent = e.insertGroups groups parent
  | [], _ => rfl
  | (_, nodes) :: rest, parent => by
    simp only [insertGroups, insertAll_withActions nodes, insertGroups_withActions rest]

theorem insertAll_withActions : (nodes : List Payload) → (parent : Record) →
    (e.withActions more).insertAll nodes parent = e.insertAll nodes parent
  | [], _ => rfl
  | p :: rest, parent => by
    simp only [insertAll, insertTree_withActions p, insertAll_withActions rest]

end

variable {e}

theorem invoke_withActions {name : Value} {key : Key} {action : ActionFn}
    (named : Key.ofValue name = .ok key) (found : e.actions.actions.find? key = some action)
    (call : ActionCall) : (e.withActions more).invoke name call = e.invoke name call := by
  have still : (e.withActions more).actions.actions.find? key = some action := by
    rw [withActions, Keyed.find?_append, found]
    rfl
  simp only [invoke, named, ofExcept_ok_bind, found, still, carryOut_withActions]

variable (knows : e.KnowsActions)

include knows

theorem react_withActions {r : Reaction} (listed : r ∈ e.rules.reactions) (event : Event) :
    (e.withActions more).react event r = e.react event r := by
  unfold react
  cases act : r.action with
  | set assignments => rfl
  | custom name =>
    obtain ⟨key, action, named, found⟩ := knows r listed name act
    simp only [invoke_withActions more named found]
    rfl

theorem dispatch_withActions : (e.withActions more).dispatch = e.dispatch := by
  funext event
  have reacted : (e.matching event).2.forM ((e.withActions more).react event) =
      (e.matching event).2.forM (e.react event) := by
    refine forM_congr fun r matched => react_withActions more knows ?_ event
    exact (List.mem_filter.mp (List.mem_filter.mp matched).1).1
  unfold dispatch
  change (modify fun turn : Turn => { turn with followUps := [] }) >>= (fun _ =>
    (e.matching event).2.forM ((e.withActions more).react event) >>= _) = _
  rw [reacted]
  rfl

theorem advance_withActions : (e.withActions more).advance = e.advance := by
  unfold advance dispatchLoaded
  rw [dispatch_withActions more knows]
  rfl

theorem drain_withActions (course : Course) :
    (e.withActions more).drain course = e.drain course := by
  fun_induction Engine.drain e course with
  | case1 course waiting => exact drain_nil _ waiting
  | case2 course event depth rest waiting failure stopped went =>
    rw [drain_cons _ waiting, advance_withActions more knows, went]
  | case3 course event depth rest waiting _ next went ih =>
    rw [drain_cons _ waiting, advance_withActions more knows, went]
    exact ih

theorem propagate_withActions : (e.withActions more).propagate = e.propagate := by
  unfold propagate
  simp only [drain_withActions more knows]

theorem perform_withActions : (e.withActions more).perform = e.perform := by
  have propagated := propagate_withActions more knows
  funext call
  cases call with
  | create schema payload placement =>
    unfold perform create
    simp only [propagated, insertTree_withActions]
    rfl
  | update schema id updates =>
    unfold perform update
    rw [propagated]
    rfl
  | delete schema id =>
    unfold perform delete
    rw [propagated]
    rfl
  | report events =>
    unfold perform run
    rw [propagated]

end Engine

end RecordRules
