import RecordRules.Engine.Host
import RecordRules.Proofs.UnscopedActions

/-!
Nested scopes. A task opens scopes within scopes, and in them changes the store, itself or through
host calls; when something fails in a scope, the task may stop or go on. The outermost scope decides
what becomes of it all: left by a failure, it restores the rows as they were when it was entered;
left normally, it keeps what the same operations do without any scope, those of failed inner scopes
among them.
-/
namespace RecordRules

open Step

namespace Engine

section

variable (e : Engine) (enclose : {α : Type} → Step Store α → Step Store α)

def createIn (schema : Key) (payload : Value) (placement : Placement) : Step Store Mutation := do
  let contract ← Step.ofExcept (e.compose schema .create placement)
  let tree ← Step.ofExcept (e.contracts.validate e.catalog contract payload)
  enclose do
    let records ← e.insertTree tree none
    let cascade ← e.propagate (records.map Event.created)
    return ⟨records.headD ⟨schema, .text "", []⟩, some cascade⟩

def updateIn (schema id : Key) (updates : Value) : Step Store Mutation := do
  let s ← Step.ofExcept (e.catalog.require schema)
  let data ← Step.ofExcept (e.readUpdates schema updates)
  enclose do
    let current ← Store.require schema id
    let changes := current.changes data
    if changes.isEmpty then return { record := current }
    let state ← e.stateOf current
    Step.ofExcept (state.checkWrite e.catalog current changes)
    Step.ofExcept (s.validate (current.withUpdates changes).data)
    let written ← Store.write current changes
    let cascade ← e.propagate [.modifiedOf written changes.names]
    return ⟨written, some cascade⟩

def deleteIn (schema id : Key) : Step Store Mutation := do
  let s ← Step.ofExcept (e.catalog.require schema)
  enclose do
    let current ← Store.require schema id
    let state ← e.stateOf current
    let names := s.fieldNames
    if !names.isEmpty && names.all state.immutableFields.contains then
      throw (.immutable schema id names)
    let _ ← Store.delete current
    let cascade ← e.propagate [.deleted current]
    return ⟨current, some cascade⟩

def performIn : HostCall → Step Store HostAnswer
  | .create schema payload placement =>
    return .mutation (← e.createIn enclose schema payload placement)
  | .update schema id updates => return .mutation (← e.updateIn enclose schema id updates)
  | .delete schema id => return .mutation (← e.deleteIn enclose schema id)
  | .report events => return .cascade (← enclose (e.propagate events))

end

theorem perform_eq_performIn (e : Engine) : e.perform = e.performIn Store.transaction := by
  funext call
  cases call <;> rfl

end Engine

/-- What one task does to a store, one operation after another. It may use every answer to decide
how to go on, also how a scope ended or that an operation failed; it always comes to an end. -/
inductive Task where
  | done (answer : Value)
  | fail (failure : Failure)
  | get (schema id : Key) (next : Option Record → Task)
  | query (schema : Key) (filter : Entries) (next : List Record → Task)
  | insert (schema : Key) (data : Entries) (id : Value) (next : Except Failure Record → Task)
  | write (r : Record) (updates : Entries) (next : Except Failure Record → Task)
  | delete (r : Record) (next : Bool → Task)
  | perform (call : HostCall) (next : Except Failure HostAnswer → Task)
  | inScope (body : Task) (next : Except Failure Value → Task)

namespace Task

def runIn (c : Catalog) (enclose : {α : Type} → Step Store α → Step Store α)
    (host : HostCall → Step Store HostAnswer) : Task → Step Store Value
  | .done answer => pure answer
  | .fail failure => throw failure
  | .get schema id next => do runIn c enclose host (next (← Store.get schema id))
  | .query schema filter next => do runIn c enclose host (next (← Store.query schema filter))
  | .insert schema data id next => do
    runIn c enclose host (next (← attempt (Store.insert c schema data id)))
  | .write r updates next => do runIn c enclose host (next (← attempt (Store.write r updates)))
  | .delete r next => do runIn c enclose host (next (← Store.delete r))
  | .perform call next => do runIn c enclose host (next (← attempt (host call)))
  | .inScope body next => do
    runIn c enclose host (next (← attempt (enclose (runIn c enclose host body))))

def run (e : Engine) : Task → Step Store Value := runIn e.catalog Store.transaction e.perform

/-- The same operations in the same order without any scopes: neither those of the task nor those
of the host calls and of the actions in them. -/
def runPlain (e : Engine) : Task → Step Store Value :=
  runIn e.catalog (fun step => step) (e.unscoped.performIn fun step => step)

end Task

variable {scope : OpenScope}

namespace Engine

variable (e : Engine)

theorem createIn_pairs (schema : Key) (payload : Value) (placement : Placement) :
    Pairs (Store.Beside scope) Eq (e.createIn Store.transaction schema payload placement)
      (e.unscoped.createIn (fun step => step) schema payload placement) := by
  refine pairs_bind_eq (pairs_ofExcept (.refl _)) fun _ =>
    pairs_bind_eq (pairs_ofExcept (.refl _)) fun tree =>
      Store.transaction_pairs (fun scope => ?_) scope
  exact pairs_bind_eq (e.insertTree_pairs tree none) fun _ =>
    pairs_bind_eq (e.propagate_pairs _) fun _ => pairs_pure rfl

theorem updateIn_pairs (schema id : Key) (updates : Value) :
    Pairs (Store.Beside scope) Eq (e.updateIn Store.transaction schema id updates)
      (e.unscoped.updateIn (fun step => step) schema id updates) := by
  refine pairs_bind_eq (pairs_ofExcept (.refl _)) fun _ =>
    pairs_bind_eq (pairs_ofExcept (.refl _)) fun _ =>
      Store.transaction_pairs (fun scope => ?_) scope
  refine pairs_bind_eq (Store.require_pairs schema id) fun _ => pairs_ite (pairs_pure rfl) ?_
  refine pairs_bind_eq (e.stateOf_pairs _) fun _ =>
    pairs_bind_eq (pairs_ofExcept (.refl _)) fun _ =>
      pairs_bind_eq (pairs_ofExcept (.refl _)) fun _ =>
        pairs_bind_eq (Store.write_pairs _ _) fun _ => ?_
  exact pairs_bind_eq (e.propagate_pairs _) fun _ => pairs_pure rfl

theorem deleteIn_pairs (schema id : Key) :
    Pairs (Store.Beside scope) Eq (e.deleteIn Store.transaction schema id)
      (e.unscoped.deleteIn (fun step => step) schema id) := by
  refine pairs_bind_eq (pairs_ofExcept (.refl _)) fun _ =>
    Store.transaction_pairs (fun scope => ?_) scope
  refine pairs_bind_eq (Store.require_pairs schema id) fun _ =>
    pairs_bind_eq (e.stateOf_pairs _) fun _ => pairs_ite (pairs_throw _) ?_
  exact pairs_bind_eq (Store.delete_pairs _) fun _ =>
    pairs_bind_eq (e.propagate_pairs _) fun _ => pairs_pure rfl

theorem perform_pairs (call : HostCall) :
    Pairs (Store.Beside scope) Eq (e.perform call)
      (e.unscoped.performIn (fun step => step) call) := by
  rw [perform_eq_performIn]
  cases call with
  | create schema payload placement =>
    exact pairs_bind_eq (e.createIn_pairs schema payload placement) fun _ => pairs_pure rfl
  | update schema id updates =>
    exact pairs_bind_eq (e.updateIn_pairs schema id updates) fun _ => pairs_pure rfl
  | delete schema id => exact pairs_bind_eq (e.deleteIn_pairs schema id) fun _ => pairs_pure rfl
  | report events =>
    exact pairs_bind_eq (Store.transaction_pairs (fun _ => e.propagate_pairs events) scope) fun _ =>
      pairs_pure rfl

end Engine

namespace Task

theorem run_pairs (e : Engine) (task : Task) (scope : OpenScope) :
    Pairs (Store.Beside scope) Eq (task.run e) (task.runPlain e) := by
  induction task generalizing scope with
  | done answer => exact pairs_pure rfl
  | fail failure => exact pairs_throw failure
  | get schema id next ih => exact pairs_bind_eq (Store.get_pairs _ _) fun _ => ih _ scope
  | query schema filter next ih => exact pairs_bind_eq (Store.query_pairs _ _) fun _ => ih _ scope
  | insert schema data id next ih =>
    exact pairs_bind_eq (pairs_attempt (Store.insert_pairs _ _ _ _)) fun _ => ih _ scope
  | write r updates next ih =>
    exact pairs_bind_eq (pairs_attempt (Store.write_pairs _ _)) fun _ => ih _ scope
  | delete r next ih => exact pairs_bind_eq (Store.delete_pairs _) fun _ => ih _ scope
  | perform call next ih =>
    exact pairs_bind_eq (pairs_attempt (e.perform_pairs call)) fun _ => ih _ scope
  | inScope body next body_ih ih =>
    exact pairs_bind_eq (pairs_attempt (Store.transaction_pairs body_ih scope)) fun _ => ih _ scope

/-- The outermost scope of a task undoes everything or keeps everything that was done in it, however
the scopes in it ended, and afterwards no scope is open: the next one starts with these rows. -/
theorem exec_outermost (e : Engine) (task : Task) {s : Store} (outside : s.scope = none) :
    let left := exec (Store.transaction (task.run e)) s
    let plain := exec (task.runPlain e) s
    left.1 = plain.1 ∧
      (∀ failure, left.1 = .error failure → left.2.tables = s.tables) ∧
      (∀ answer, left.1 = .ok answer → left.2 = plain.2) ∧
      left.2.scope = none ∧ left.2.enter.scope = some ⟨0, left.2.tables⟩ := by
  have entered : Store.Beside ⟨0, s.tables⟩ s.enter s := by
    obtain ⟨tables, scope, issued, trace, invocations⟩ := s
    obtain rfl : scope = none := outside
    exact ⟨rfl, rfl⟩
  obtain ⟨alike, opened, same⟩ := task.run_pairs e _ _ _ entered
  rw [Store.exec_transaction]
  refine ⟨alike.eq, fun failure failed => ?_, fun answer answered => ?_, ?_⟩
  · change (exec (task.run e) s.enter).1 = _ at failed
    rw [failed, Store.leave, opened]
    rfl
  · change (exec (task.run e) s.enter).1 = _ at answered
    rw [answered, Store.leave, opened, same]
    rfl
  · rw [Store.leave, opened]
    exact ⟨rfl, rfl⟩

/-- A row is written, and in an inner scope that fails another one is inserted. Both changes stay if
the task goes on and ends well, and both are undone if it fails after all. -/
theorem exec_outermost_of_caught :
    let e : Engine := { catalog := { schemas := [(.text "Task", { name := .text "Task" })] } }
    let first : Record := ⟨.text "Task", .text "first", [("done", .bool false)]⟩
    let s : Store := { tables := [(.text "Task", [(first.id, first.data)])] }
    let task (last : Task) : Task :=
      .write first [("done", .bool true)] fun _ =>
        .inScope (.insert (.text "Task") [] (.text "second") fun _ =>
          .fail (.raised "RuntimeError" "no more")) fun _ => last
    let after (last : Task) := exec (Store.transaction ((task last).run e)) s
    (after (.done .null)).2.tables =
        [(.text "Task", [(.text "first", [("done", .bool true)]), (.text "second", [])])] ∧
      (after (.fail (.raised "RuntimeError" "too late"))).2.tables = s.tables := by
  intro e first s task after
  obtain ⟨-, -, kept, -⟩ := (task (.done .null)).exec_outermost e (s := s) rfl
  obtain ⟨-, undone, -⟩ :=
    (task (.fail (.raised "RuntimeError" "too late"))).exec_outermost e (s := s) rfl
  refine ⟨?_, undone _ rfl⟩
  rw [show (after (.done .null)).2 = _ from kept .null rfl]
  rfl

end Task

end RecordRules
