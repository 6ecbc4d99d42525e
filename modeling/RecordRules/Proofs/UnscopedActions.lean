import RecordRules.Proofs.Frame.Engine
import RecordRules.Proofs.Frame.Pairs

/-!
Engines whose actions open no scopes. Where a procedure opens a scope, its unscoped form just goes
on with what is in it, and with what comes after, whether that failed or not. In an open scope it
makes no difference: all engine operations have the same outcome, and the same effect on the store,
as they have without any scope.
-/
namespace RecordRules

open Step

namespace Procedure

/-- Go on with another procedure, which is given how this one ended. -/
def andThen : Procedure → (Except Failure (List Event) → Procedure) → Procedure
  | .done events, later => later (.ok events)
  | .fail failure, later => later (.error failure)
  | .write r updates next, later => .write r updates fun answer => (next answer).andThen later
  | .rawWrite r updates next, later =>
    .rawWrite r updates fun answer => (next answer).andThen later
  | .peek schema id next, later => .peek schema id fun answer => (next answer).andThen later
  | .get schema id next, later => .get schema id fun answer => (next answer).andThen later
  | .related r scope only next, later =>
    .related r scope only fun answer => (next answer).andThen later
  | .query schema filter next, later =>
    .query schema filter fun answer => (next answer).andThen later
  | .insert schema data id next, later =>
    .insert schema data id fun answer => (next answer).andThen later
  | .delete r next, later => .delete r fun answer => (next answer).andThen later
  | .emit event next, later => .emit event (next.andThen later)
  | .inScope body next, later => .inScope body fun ended => (next ended).andThen later

def unscoped : Procedure → Procedure
  | .done events => .done events
  | .fail failure => .fail failure
  | .write r updates next => .write r updates fun answer => (next answer).unscoped
  | .rawWrite r updates next => .rawWrite r updates fun answer => (next answer).unscoped
  | .peek schema id next => .peek schema id fun answer => (next answer).unscoped
  | .get schema id next => .get schema id fun answer => (next answer).unscoped
  | .related r scope only next => .related r scope only fun answer => (next answer).unscoped
  | .query schema filter next => .query schema filter fun answer => (next answer).unscoped
  | .insert schema data id next => .insert schema data id fun answer => (next answer).unscoped
  | .delete r next => .delete r fun answer => (next answer).unscoped
  | .emit event next => .emit event next.unscoped
  | .inScope body next => body.unscoped.andThen fun ended => (next ended).unscoped

end Procedure

def ActionBook.unscoped (b : ActionBook) : ActionBook :=
  { b with
    actions := b.actions.map fun (name, action) => (name, fun call => (action call).unscoped) }

def Engine.unscoped (e : Engine) : Engine := { e with actions := e.actions.unscoped }

theorem ActionBook.find?_unscoped (b : ActionBook) (name : Key) :
    b.unscoped.actions.find? name =
      (b.actions.find? name).map fun action call => (action call).unscoped := by
  change Keyed.find? (b.actions.map _) name = _
  induction b.actions with
  | nil => rfl
  | cons entry rest ih =>
    rw [List.map_cons, Keyed.find?_cons, Keyed.find?_cons, ih]
    split <;> rfl

theorem Store.exists_exec_delete (r : Record) (s : Store) :
    ∃ removed t, exec (Store.delete r) s = (.ok removed, t) := by
  rw [Store.delete, exec_bind, Store.note, exec_modify]
  simp only [exec_bind, exec_get]
  split <;> exact ⟨_, _, rfl⟩

theorem Engine.carryOut_andThen (e : Engine) (p : Procedure)
    (later : Except Failure (List Event) → Procedure) :
    e.carryOut (p.andThen later) =
      attempt (e.carryOut p) >>= fun ended => e.carryOut (later ended) := by
  funext turn
  change exec (e.carryOut (p.andThen later)) turn =
    exec (e.carryOut (later (exec (e.carryOut p) turn).1)) (exec (e.carryOut p) turn).2
  induction p generalizing turn with
  | done events => rfl
  | fail failure => rfl
  | write r updates next ih => exact ih _ _
  | rawWrite r updates next ih => exact ih _ _
  | peek schema id next ih => exact ih _ _
  | get schema id next ih => exact ih _ _
  | related r scope only next ih => exact ih _ _
  | query schema filter next ih => exact ih _ _
  | insert schema data id next ih => exact ih _ _
  | delete r next ih =>
    obtain ⟨removed, t, ran⟩ := Store.exists_exec_delete r turn.store
    simp only [Procedure.andThen, carryOut, exec_bind, Turn.exec_onStore, ran]
    exact ih _ _
  | emit event next ih => exact ih _
  | inScope body next _ ih => exact ih _ _

namespace Store

def closed (s : Store) : Store := { s with scope := none }

theorem row?_closed (s : Store) (schema id : Key) :
    s.closed.row? schema id = s.row? schema id := rfl

/-- The stores of two runs: in the first a scope is open, and the second is the same without any. -/
def Beside (scope : OpenScope) (s t : Store) : Prop := s.scope = some scope ∧ t = s.closed

variable {scope : OpenScope} {α : Type}

theorem beside_enter {s t : Store} (beside : Beside scope s t) :
    Beside { scope with inner := scope.inner + 1 } s.enter t := by
  obtain ⟨opened, rfl⟩ := beside
  rw [enter, opened]
  exact ⟨rfl, rfl⟩

/-- Leaving an inner scope changes no row, whether it failed or not. -/
theorem beside_leave {s t : Store} (beside : Beside { scope with inner := scope.inner + 1 } s t)
    (failed : Bool) : Beside scope (s.leave failed) t := by
  obtain ⟨opened, rfl⟩ := beside
  rw [leave, opened]
  exact ⟨rfl, rfl⟩

theorem exec_transaction (step : Step Store α) (s : Store) :
    exec (transaction step) s =
      ((exec step s.enter).1, (exec step s.enter).2.leave !(exec step s.enter).1.isOk) := by
  rw [transaction, exec_of]
  rcases exec step s.enter with ⟨outcome | outcome, after⟩ <;> rfl

theorem transaction_pairs {step other : Step Store α}
    (pairs : ∀ scope, Pairs (Beside scope) Eq step other) (scope : OpenScope) :
    Pairs (Beside scope) Eq (transaction step) other := by
  intro s t beside
  obtain ⟨alike, after⟩ := pairs _ _ _ (beside_enter beside)
  rw [exec_transaction]
  exact ⟨alike, beside_leave after _⟩

theorem note_pairs (access : Access) (schema : Key) :
    Pairs (Beside scope) Eq (note access schema) (note access schema) := by
  refine pairs_modify fun s t beside => ?_
  obtain ⟨opened, rfl⟩ := beside
  exact ⟨opened, rfl⟩

theorem look_pairs {next : Store → Step Store α}
    (each : ∀ s, s.scope = some scope →
      Alike Eq (exec (next s) s).1 (exec (next s.closed) s.closed).1 ∧
        Beside scope (exec (next s) s).2 (exec (next s.closed) s.closed).2) :
    Pairs (Beside scope) Eq (MonadState.get >>= next) (MonadState.get >>= next) := by
  refine pairs_get_bind fun s t beside => ?_
  obtain ⟨opened, rfl⟩ := beside
  exact each s opened

theorem get_pairs (schema id : Key) : Pairs (Beside scope) Eq (get schema id) (get schema id) :=
  pairs_bind_eq (note_pairs _ _) fun _ => look_pairs fun _ opened => ⟨.ok rfl, opened, rfl⟩

theorem require_pairs (schema id : Key) :
    Pairs (Beside scope) Eq (require schema id) (require schema id) := by
  refine pairs_bind_eq (get_pairs schema id) fun found => ?_
  cases found with
  | some r => exact pairs_pure rfl
  | none => exact pairs_throw _

theorem query_pairs (schema : Key) (filter : Entries) :
    Pairs (Beside scope) Eq (query schema filter) (query schema filter) :=
  pairs_bind_eq (note_pairs _ _) fun _ => look_pairs fun _ opened => ⟨.ok rfl, opened, rfl⟩

theorem related_pairs (c : Catalog) (r : Record) (which : Scope) (only : Value) :
    Pairs (Beside scope) Eq (related c r which only) (related c r which only) :=
  pairs_bind_eq (note_pairs _ _) fun _ => look_pairs fun _ opened => ⟨.refl _, opened, rfl⟩

theorem write_pairs (r : Record) (updates : Entries) :
    Pairs (Beside scope) Eq (write r updates) (write r updates) := by
  refine pairs_bind_eq (note_pairs _ _) fun _ => look_pairs fun s opened => ?_
  rw [row?_closed]
  cases s.row? r.schema r.id with
  | none => exact ⟨.error _, opened, rfl⟩
  | some data => exact ⟨.ok rfl, opened, rfl⟩

theorem chooseId_pairs (schema : Key) (id : Value) :
    Pairs (Beside scope) Eq (chooseId schema id) (chooseId schema id) := by
  refine pairs_ite (pairs_ofExcept (.refl _)) ?_
  cases schema with
  | text schema => exact look_pairs fun _ opened => ⟨.ok rfl, opened, rfl⟩
  | _ => exact pairs_throw _

theorem insert_pairs (c : Catalog) (schema : Key) (data : Entries) (id : Value) :
    Pairs (Beside scope) Eq (insert c schema data id) (insert c schema data id) := by
  refine pairs_bind_eq (note_pairs _ _) fun _ => pairs_bind_eq (pairs_ofExcept (.refl _)) fun _ =>
    pairs_bind_eq (chooseId_pairs schema id) fun id => look_pairs fun s opened => ?_
  rw [row?_closed]
  cases (s.row? schema id).isSome with
  | true => exact ⟨.error _, opened, rfl⟩
  | false => exact ⟨.ok rfl, opened, rfl⟩

theorem delete_pairs (r : Record) : Pairs (Beside scope) Eq (delete r) (delete r) := by
  refine pairs_bind_eq (note_pairs _ _) fun _ => look_pairs fun s opened => ?_
  rw [row?_closed]
  cases s.row? r.schema r.id with
  | none => exact ⟨.ok rfl, opened, rfl⟩
  | some data => exact ⟨.ok rfl, opened, rfl⟩

end Store

variable {scope : OpenScope} {α : Type}

theorem Traversal.collect_pairs (c : Catalog) (direction : Direction) (start : Record)
    (extent : Extent) :
    Pairs (Store.Beside scope) Eq (collect c direction start extent)
      (collect c direction start extent) := by
  have each (r q : Record) (same : r = q) :
      Pairs (Store.Beside scope) (List.Forall₂ Eq) (Store.related c r direction.scope)
        (Store.related c q direction.scope) := by
    rw [List.forall₂_eq_eq_eq, same]
    exact Store.related_pairs c q direction.scope .null
  have reached := reached_pairs (fun _ _ => congrArg Record.key) (rfl : start = start) each extent
  rwa [List.forall₂_eq_eq_eq] at reached

theorem RecordState.load_pairs (c : Catalog) (b : RuleBook) (r : Record) :
    Pairs (Store.Beside scope) Eq (load c b r) (load c b r) := by
  refine pairs_bind_eq (pairs_ite (pairs_pure rfl) ?_) fun _ => pairs_ofExcept (.refl _)
  exact pairs_bind_eq (Traversal.collect_pairs _ _ _ _) fun _ =>
    pairs_bind_eq (Traversal.collect_pairs _ _ _ _) fun _ => pairs_pure rfl

def Turn.Beside (scope : OpenScope) (turn other : Turn) : Prop :=
  turn.store.scope = some scope ∧ other = { turn with store := turn.store.closed }

namespace Turn

theorem onStore_pairs {step other : Step Store α}
    (pairs : Pairs (Store.Beside scope) Eq step other) :
    Pairs (Beside scope) Eq (onStore step) (onStore other) := by
  rintro turn _ ⟨opened, rfl⟩
  obtain ⟨alike, opened, same⟩ := pairs _ _ ⟨opened, rfl⟩
  refine ⟨alike, opened, ?_⟩
  rw [exec_onStore, same]
  rfl

theorem modify_pairs {f : Turn → Turn}
    (same : ∀ turn store, f { turn with store := store } = { f turn with store := store }) :
    Pairs (Beside scope) Eq (modify f) (modify f) := by
  refine pairs_modify fun turn other beside => ?_
  obtain ⟨opened, rfl⟩ := beside
  have kept := congrArg Turn.store (same turn turn.store)
  change (f turn).store = turn.store at kept
  exact ⟨by rw [kept]; exact opened, by rw [same, kept]⟩

theorem inScope_pairs {step other : Step Turn α}
    (pairs : ∀ scope, Pairs (Beside scope) Eq step other) (scope : OpenScope) :
    Pairs (Beside scope) Eq (inScope step) other := by
  rintro turn _ ⟨opened, rfl⟩
  obtain ⟨inside, same⟩ := Store.beside_enter ⟨opened, rfl⟩
  obtain ⟨alike, still, after⟩ :=
    pairs _ { turn with store := turn.store.enter } { turn with store := turn.store.closed }
      ⟨inside, by rw [same]⟩
  have left (failed : Bool) := Store.beside_leave ⟨still, rfl⟩ failed
  rw [inScope, exec_of]
  cases ran : exec step { turn with store := turn.store.enter } with
  | mk outcome u =>
    rw [ran] at alike left after
    cases outcome with
    | ok x => exact ⟨alike, (left false).1, by rw [after, (left false).2]⟩
    | error failure => exact ⟨alike, (left true).1, by rw [after, (left true).2]⟩

end Turn

namespace Engine

variable (e : Engine)

theorem stateOf_pairs (r : Record) : Pairs (Store.Beside scope) Eq (e.stateOf r) (e.stateOf r) :=
  RecordState.load_pairs _ _ _

theorem guardWrite_pairs (r : Record) (updates : Entries) :
    Pairs (Store.Beside scope) Eq (e.guardWrite r updates) (e.guardWrite r updates) :=
  pairs_ite (pairs_bind_eq (e.stateOf_pairs r) fun _ => pairs_ofExcept (.refl _)) (pairs_pure rfl)

theorem relatedFor_pairs (direction : Direction) (object : Record) (extent : Extent)
    (present : List Record) :
    Pairs (Store.Beside scope) Eq (e.relatedFor direction object extent present)
      (e.relatedFor direction object extent present) :=
  pairs_ite (pairs_pure rfl) (Traversal.collect_pairs _ _ _ _)

theorem hydrate_pairs (event : Event) :
    Pairs (Store.Beside scope) Eq (e.hydrate event) (e.hydrate event) :=
  pairs_ite (pairs_pure rfl) (pairs_ite (pairs_pure rfl)
    (pairs_bind_eq (e.relatedFor_pairs _ _ _ _) fun _ =>
      pairs_bind_eq (e.relatedFor_pairs _ _ _ _) fun _ => pairs_pure rfl))

theorem follow_pairs (event : Event) :
    Pairs (Turn.Beside scope) Eq (Turn.follow event) (Turn.follow event) :=
  Turn.modify_pairs fun _ _ => rfl

theorem turn_pairs {next other : Turn → Step Turn α}
    (each : ∀ turn, Pairs (Turn.Beside scope) Eq (next turn)
      (other { turn with store := turn.store.closed })) :
    Pairs (Turn.Beside scope) Eq (get >>= next) (get >>= other) := by
  refine pairs_get_bind fun turn _ beside => ?_
  obtain ⟨opened, rfl⟩ := beside
  exact each turn turn _ ⟨opened, rfl⟩

theorem applyWrite_pairs (r : Record) (updates : Entries) :
    Pairs (Turn.Beside scope) Eq (e.applyWrite r updates) (e.applyWrite r updates) := by
  refine pairs_bind_eq (Turn.onStore_pairs (Store.get_pairs _ _)) fun _ =>
    turn_pairs fun turn => pairs_ite (pairs_pure rfl) ?_
  refine pairs_bind_eq (Turn.onStore_pairs (e.guardWrite_pairs _ _)) fun _ =>
    pairs_bind_eq (Turn.onStore_pairs (Store.write_pairs _ _)) fun _ => ?_
  exact pairs_bind_eq (Turn.modify_pairs fun _ _ => rfl) fun _ =>
    pairs_bind_eq (follow_pairs _) fun _ => pairs_pure rfl

theorem carryOut_pairs (p : Procedure) (scope : OpenScope) :
    Pairs (Turn.Beside scope) Eq (e.carryOut p) (e.unscoped.carryOut p.unscoped) := by
  induction p generalizing scope with
  | done events => exact pairs_pure rfl
  | fail failure => exact pairs_throw failure
  | write r updates next ih =>
    exact pairs_bind_eq (pairs_attempt (e.applyWrite_pairs r updates)) fun _ => ih _ scope
  | rawWrite r updates next ih =>
    exact pairs_bind_eq (pairs_attempt (Turn.onStore_pairs (Store.write_pairs r updates)))
      fun _ => ih _ scope
  | peek schema id next ih => exact turn_pairs fun _ => ih _ scope
  | get schema id next ih =>
    exact pairs_bind_eq (Turn.onStore_pairs (Store.get_pairs _ _)) fun _ => ih _ scope
  | related r which only next ih =>
    exact pairs_bind_eq (pairs_attempt (Turn.onStore_pairs (Store.related_pairs _ _ _ _)))
      fun _ => ih _ scope
  | query schema filter next ih =>
    exact pairs_bind_eq (Turn.onStore_pairs (Store.query_pairs _ _)) fun _ => ih _ scope
  | insert schema data id next ih =>
    exact pairs_bind_eq (pairs_attempt (Turn.onStore_pairs (Store.insert_pairs _ _ _ _)))
      fun _ => ih _ scope
  | delete r next ih =>
    exact pairs_bind_eq (Turn.onStore_pairs (Store.delete_pairs r)) fun _ => ih _ scope
  | emit event next ih => exact pairs_bind_eq (follow_pairs event) fun _ => ih scope
  | inScope body next body_ih ih =>
    change Pairs _ _ _ (e.unscoped.carryOut (body.unscoped.andThen _))
    rw [carryOut_andThen]
    exact pairs_bind_eq (pairs_attempt (Turn.inScope_pairs body_ih scope)) fun _ => ih _ scope

theorem invoke_pairs (name : Value) (call : ActionCall) :
    Pairs (Turn.Beside scope) Eq (e.invoke name call) (e.unscoped.invoke name call) := by
  refine pairs_bind_eq (pairs_ofExcept (.refl _)) fun key => ?_
  rw [show e.unscoped.actions.actions.find? key = _ from e.actions.find?_unscoped key]
  cases e.actions.actions.find? key with
  | none => exact pairs_throw _
  | some action =>
    refine pairs_bind_eq (pairs_modify ?_) fun _ =>
      pairs_bind_eq (pairs_attempt (e.carryOut_pairs _ scope)) fun ended => ?_
    · rintro turn _ ⟨opened, rfl⟩
      exact ⟨opened, rfl⟩
    · cases ended with
      | ok events => exact pairs_pure rfl
      | error failure => exact pairs_throw _

theorem setFields_pairs (assignments : List (String × Operand)) (scene : Scene) (target : Record) :
    Pairs (Turn.Beside scope) Eq (e.setFields assignments scene target)
      (e.unscoped.setFields assignments scene target) :=
  pairs_bind_eq (pairs_ofExcept (.refl _)) fun _ =>
    pairs_ite (pairs_bind_eq (e.applyWrite_pairs _ _) fun _ => pairs_pure rfl) (pairs_pure rfl)

theorem react_pairs (event : Event) (r : Reaction) :
    Pairs (Turn.Beside scope) Eq (e.react event r) (e.unscoped.react event r) := by
  refine pairs_bind_eq (Turn.onStore_pairs (Store.related_pairs _ _ _ _)) fun targets => ?_
  cases r.action with
  | set assignments => exact pairs_forM (e.setFields_pairs assignments _) targets
  | custom name =>
    exact pairs_bind_eq (e.invoke_pairs _ _) fun events => pairs_forM follow_pairs events

theorem dispatch_pairs (event : Event) :
    Pairs (Turn.Beside scope) Eq (e.dispatch event) (e.unscoped.dispatch event) :=
  pairs_bind_eq (Turn.modify_pairs fun _ _ => rfl) fun _ =>
    pairs_bind_eq (pairs_forM (e.react_pairs event) _) fun _ =>
      turn_pairs fun _ => pairs_pure rfl

theorem dispatchLoaded_pairs (event : Event) :
    Pairs (Turn.Beside scope) Eq (e.dispatchLoaded event) (e.unscoped.dispatchLoaded event) :=
  pairs_bind_eq (Turn.onStore_pairs (e.hydrate_pairs _)) e.dispatch_pairs

end Engine

def Course.Beside (scope : OpenScope) (course other : Course) : Prop :=
  ∃ turn, Turn.Beside scope course.turn turn ∧ other = { course with turn }

theorem Course.Beside.queue_eq {course other : Course} (beside : course.Beside scope other) :
    other.queue = course.queue := by
  obtain ⟨turn, _, rfl⟩ := beside
  rfl

theorem Course.Beside.take {course other : Course} (beside : course.Beside scope other)
    (rest : Waiting) :
    Course.Beside scope { course with queue := rest } { other with queue := rest } := by
  obtain ⟨turn, together, rfl⟩ := beside
  exact ⟨turn, together, rfl⟩

namespace Engine

variable (e : Engine)

theorem advance_pairs (event : Event) (depth : Nat) :
    Pairs (Course.Beside scope) Eq (e.advance event depth) (e.unscoped.advance event depth) := by
  rintro course _ ⟨turn, beside, rfl⟩
  obtain ⟨alike, after⟩ := e.dispatchLoaded_pairs (course.place event) _ _ beside
  have placed : Course.place { course with turn } event = course.place event := rfl
  rw [exec_advance, exec_advance, placed]
  dsimp only
  cases ran : exec (e.dispatchLoaded (course.place event)) course.turn with
  | mk outcome left =>
    cases other : exec (e.unscoped.dispatchLoaded (course.place event)) turn with
    | mk answer right =>
      rw [ran, other] at alike after
      cases alike with
      | error failure => exact ⟨.error failure, right, after, rfl⟩
      | @ok d _ same =>
        subst same
        dsimp only
        rw [show e.unscoped.overruns depth d = e.overruns depth d from rfl]
        split
        · exact ⟨.error _, right, after, rfl⟩
        · exact ⟨.ok rfl, right, after, rfl⟩

theorem drain_pairs (course : Course) {other : Course} (beside : Course.Beside scope course other) :
    Alike Eq (e.drain course).1 (e.unscoped.drain other).1 ∧
      Course.Beside scope (e.drain course).2 (e.unscoped.drain other).2 := by
  fun_induction Engine.drain e course generalizing other with
  | case1 course waiting =>
    rw [drain_nil _ (beside.queue_eq.trans waiting)]
    exact ⟨.ok rfl, beside⟩
  | case2 course event depth rest waiting failure stopped went =>
    obtain ⟨alike, after⟩ := e.advance_pairs event depth _ _ (beside.take rest)
    rw [went] at alike after
    rw [drain_cons _ (beside.queue_eq.trans waiting)]
    cases ran : exec (e.unscoped.advance event depth) { other with queue := rest } with
    | mk outcome left =>
      rw [ran] at alike after
      cases alike
      exact ⟨.error failure, after⟩
  | case3 course event depth rest waiting _ next went ih =>
    obtain ⟨alike, after⟩ := e.advance_pairs event depth _ _ (beside.take rest)
    rw [went] at alike after
    rw [drain_cons _ (beside.queue_eq.trans waiting)]
    cases ran : exec (e.unscoped.advance event depth) { other with queue := rest } with
    | mk outcome left =>
      rw [ran] at alike after
      cases alike
      exact ih after

theorem propagate_pairs (roots : List Event) :
    Pairs (Store.Beside scope) Eq (e.propagate roots) (e.unscoped.propagate roots) := by
  rintro s t ⟨opened, rfl⟩
  have started : Course.Beside scope (.start s roots) (.start s.closed roots) :=
    ⟨{ store := s.closed }, ⟨opened, rfl⟩, rfl⟩
  obtain ⟨alike, turn, ⟨still, rfl⟩, after⟩ := e.drain_pairs _ started
  rw [propagate, propagate, exec_of, exec_of]
  cases ran : e.drain (.start s roots) with
  | mk outcome left =>
    cases other : e.unscoped.drain (.start s.closed roots) with
    | mk answer right =>
      rw [ran] at alike still after
      rw [other] at alike after
      obtain rfl : right = _ := after
      cases alike with
      | error failure => exact ⟨.error failure, still, rfl⟩
      | ok same => exact ⟨.ok rfl, still, rfl⟩

theorem insertRecord_pairs (p : Payload) (parent : Option Record) :
    Pairs (Store.Beside scope) Eq (e.insertRecord p parent) (e.unscoped.insertRecord p parent) :=
  pairs_bind_eq (pairs_ofExcept (.refl _)) fun _ => pairs_bind_eq (e.stateOf_pairs _) fun _ =>
    pairs_bind_eq (pairs_ofExcept (.refl _)) fun _ => Store.insert_pairs _ _ _ _

mutual

theorem insertTree_pairs : (p : Payload) → (parent : Option Record) →
    Pairs (Store.Beside scope) Eq (e.insertTree p parent) (e.unscoped.insertTree p parent)
  | .node _ _ _ children, parent =>
    pairs_bind_eq (e.insertRecord_pairs _ parent) fun r =>
      pairs_bind_eq (insertGroups_pairs children r) fun _ => pairs_pure rfl

theorem insertGroups_pairs : (groups : List (String × List Payload)) → (parent : Record) →
    Pairs (Store.Beside scope) Eq (e.insertGroups groups parent)
      (e.unscoped.insertGroups groups parent)
  | [], _ => pairs_pure rfl
  | (_, nodes) :: rest, parent =>
    pairs_bind_eq (insertAll_pairs nodes parent) fun _ =>
      pairs_bind_eq (insertGroups_pairs rest parent) fun _ => pairs_pure rfl

theorem insertAll_pairs : (nodes : List Payload) → (parent : Record) →
    Pairs (Store.Beside scope) Eq (e.insertAll nodes parent) (e.unscoped.insertAll nodes parent)
  | [], _ => pairs_pure rfl
  | p :: rest, parent =>
    pairs_bind_eq (insertTree_pairs p (some parent)) fun _ =>
      pairs_bind_eq (insertAll_pairs rest parent) fun _ => pairs_pure rfl

end

end Engine

end RecordRules
