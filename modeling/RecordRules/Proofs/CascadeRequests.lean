import RecordRules.Proofs.CascadeLoop
import RecordRules.Proofs.ReactionWrite

/-!
What is asked for in a cascade: which events are dispatched and which reactions act, in which turn,
and what custom actions come to on their way. Main statement: a relation between turns that every
request of a cascade keeps is kept by all its reactions, failures included.
-/
namespace RecordRules

open Step

def Procedure.change? (c : Catalog) : Procedure → Option (Store → Store)
  | .rawWrite r updates _ => some fun s => (exec (Store.write r updates) s).2
  | .insert schema data id _ => some fun s => (exec (Store.insert c schema data id) s).2
  | .delete r _ => some fun s => (exec (Store.delete r) s).2
  | _ => none

def Procedure.after {α : Type} (step : Step Turn α) (next : α → Procedure) (turn : Turn) :
    Option (Procedure × Turn) :=
  match exec step turn with
  | (.ok answer, after) => some (next answer, after)
  | (.error _, _) => none

theorem Procedure.eq_of_after {α : Type} {step : Step Turn α} {next : α → Procedure}
    {turn after : Turn} {q : Procedure} (left : Procedure.after step next turn = some (q, after)) :
    after = (exec step turn).2 := by
  rw [Procedure.after] at left
  split at left
  · rename_i ran
    rw [ran]
    exact (Prod.mk.inj (Option.some.inj left)).2.symm
  · cases left

def Engine.answer? (e : Engine) : Procedure → Turn → Option (Procedure × Turn)
  | .done _ | .fail _ => fun _ => none
  | .write r updates next => Procedure.after (attempt (e.applyWrite r updates)) next
  | .rawWrite r updates next =>
    Procedure.after (attempt (Turn.onStore (Store.write r updates))) next
  | .peek schema id next => fun turn => some (next (turn.store.peek? schema id), turn)
  | .get schema id next => Procedure.after (Turn.onStore (Store.get schema id)) next
  | .related r scope only next =>
    Procedure.after (attempt (Turn.onStore (Store.related e.catalog r scope only))) next
  | .query schema filter next => Procedure.after (Turn.onStore (Store.query schema filter)) next
  | .insert schema data id next =>
    Procedure.after (attempt (Turn.onStore (Store.insert e.catalog schema data id))) next
  | .delete r next => Procedure.after (Turn.onStore (Store.delete r)) next
  | .emit event next => Procedure.after (Turn.follow event) fun _ => next
  | .inScope body next => Procedure.after (attempt (Turn.inScope (e.carryOut body))) next

def Turn.ran (turn : Turn) (action : Key) (call : ActionCall) : Turn :=
  { turn with store := { turn.store with
      invocations := turn.store.invocations ++
        [⟨action, call.rule.label, call.event, call.targets⟩] } }

theorem Turn.exists_of_inScope {α : Type} (step : Step Turn α) (turn : Turn) :
    ∃ store, (exec (Turn.inScope step) turn).2 =
      { (exec step { turn with store := turn.store.enter }).2 with store } := by
  rw [Turn.inScope, exec_of]
  cases exec step { turn with store := turn.store.enter } with
  | mk outcome after =>
    cases outcome with
    | ok answer => exact ⟨_, rfl⟩
    | error failure => exact ⟨_, rfl⟩

theorem Turn.exec_follows (events : List Event) (turn : Turn) :
    exec (events.forM Turn.follow) turn =
      (.ok (), { turn with followUps := turn.followUps ++ events }) := by
  induction events generalizing turn with
  | nil =>
    rw [List.append_nil]
    rfl
  | cons event rest ih =>
    change exec (Turn.follow event >>= fun _ => rest.forM Turn.follow) turn = _
    rw [exec_bind, Turn.follow, exec_modify]
    simp only [ih, List.append_assoc, List.singleton_append]

namespace Engine

variable (e : Engine) (s : Store) (roots : List Event)

/-- In a cascade, an event is dispatched with its related records, from this turn on. -/
def Dispatches (event : Event) (turn : Turn) : Prop :=
  ∃ course waiting depth rest store, e.Reaches s roots course ∧
    course.queue = (waiting, depth) :: rest ∧
    exec (e.hydrate (course.place waiting)) course.turn.store =
      (.ok event, store) ∧
    turn = { course.turn with store, followUps := [] }

def Reacts (event : Event) (r : Reaction) (turn : Turn) : Prop :=
  ∃ first before later, e.Dispatches s roots event first ∧
    (e.matching event).2 = before ++ r :: later ∧
    exec (before.forM (e.react event)) first = (.ok (), turn)

def Targets (event : Event) (r : Reaction) (targets : List Record) (turn : Turn) : Prop :=
  ∃ before, e.Reacts s roots event r before ∧
    exec (e.targetsOf r event) before = (.ok targets, turn)

def Calls (name : Value) (call : ActionCall) (turn : Turn) : Prop :=
  e.Targets s roots call.event call.rule call.targets turn ∧ call.rule.action = .custom name

/-- In a cascade, a custom action has come so far that this procedure is left of it. The body of a
scope is carried out as a procedure of its own. -/
inductive Acts : Procedure → Turn → Prop where
  | start {name : Value} {call : ActionCall} {turn : Turn} {key : Key} {action : ActionFn}
      (called : e.Calls s roots name call turn) (named : Key.ofValue name = .ok key)
      (known : e.actions.actions.find? key = some action) :
      Acts (action call) (turn.ran key call)
  | next {p q : Procedure} {turn after : Turn} (before : Acts p turn)
      (answered : e.answer? p turn = some (q, after)) : Acts q after
  | enter {body : Procedure} {next : Except Failure (List Event) → Procedure} {turn : Turn}
      (before : Acts (.inScope body next) turn) :
      Acts body { turn with store := turn.store.enter }

/-- In a cascade, a write to a record is asked for, by a reaction that sets fields or by a custom
action. -/
inductive Requests : Record → Entries → Turn → Prop where
  | set {event : Event} {r : Reaction} {before later : List Record} {target : Record}
      {first turn : Turn} {assignments : List (String × Operand)} {schema : Schema}
      (targets : e.Targets s roots event r (before ++ target :: later) first)
      (sets : r.action = .set assignments)
      (done : exec (before.forM (e.setFields assignments (Scene.ofEvent event))) first =
        (.ok (), turn))
      (known : e.catalog.require target.schema = .ok schema)
      (something : updatesFor schema assignments (Scene.ofEvent event) ≠ []) :
      Requests target (updatesFor schema assignments (Scene.ofEvent event)) turn
  | custom {r : Record} {updates : Entries} {next : Except Failure Record → Procedure}
      {turn : Turn} (acts : e.Acts s roots (.write r updates next) turn) : Requests r updates turn

/-- A relation between an earlier and a later turn that all requests of a cascade keep. -/
structure Keeps (R : Turn → Turn → Prop) : Prop extends IsPreorder Turn R where
  look : ∀ turn trace invocations,
    R turn { turn with store := { turn.store with trace, invocations } }
  write : ∀ r updates turn, e.Requests s roots r updates turn →
    R turn (exec (e.applyWrite r updates) turn).2
  change : ∀ p turn change, e.Acts s roots p turn → p.change? e.catalog = some change →
    R turn { turn with store := change turn.store }
  emit : ∀ event next turn, e.Acts s roots (.emit event next) turn →
    R turn { turn with followUps := turn.followUps ++ [event] }
  enter : ∀ turn, R turn { turn with store := turn.store.enter }
  leave : ∀ body next turn, e.Acts s roots (.inScope body next) turn →
    R (exec (e.carryOut body) { turn with store := turn.store.enter }).2
      (exec (Turn.inScope (e.carryOut body)) turn).2
  answer : ∀ name call turn events after, e.Calls s roots name call turn →
    exec (e.invoke name call) turn = (.ok events, after) →
    R after { after with followUps := after.followUps ++ events }

variable {e s roots} {R : Turn → Turn → Prop}

theorem Reacts.mem {event : Event} {r : Reaction} {turn : Turn}
    (reacts : e.Reacts s roots event r turn) :
    r ∈ e.rules.reactions ∧ r.schema.names event.schema = true := by
  obtain ⟨_, before, later, -, split, -⟩ := reacts
  have matched : r ∈ (e.matching event).2 := by simp [split]
  obtain ⟨listed, applies⟩ := List.mem_filter.mp (List.mem_filter.mp matched).1
  exact ⟨listed, (Bool.and_eq_true_iff.mp applies).1⟩

theorem Calls.exists_custom {name : Value} {call : ActionCall} {turn : Turn}
    (calls : e.Calls s roots name call turn) :
    ∃ r ∈ e.rules.reactions, r.action = .custom name := by
  obtain ⟨⟨before, reacts, -⟩, custom⟩ := calls
  exact ⟨call.rule, reacts.mem.1, custom⟩

theorem Acts.exists_calls {p : Procedure} {turn : Turn} (acts : e.Acts s roots p turn) :
    ∃ name call first, e.Calls s roots name call first := by
  induction acts with
  | start called _ _ => exact ⟨_, _, _, called⟩
  | next _ _ ih => exact ih
  | enter _ ih => exact ih

theorem Acts.exists_custom {p : Procedure} {turn : Turn} (acts : e.Acts s roots p turn) :
    ∃ r ∈ e.rules.reactions, ∃ name, r.action = .custom name := by
  obtain ⟨name, call, first, called⟩ := acts.exists_calls
  obtain ⟨r, listed, custom⟩ := called.exists_custom
  exact ⟨r, listed, name, custom⟩

namespace Keeps

theorem onStore (keeps : e.Keeps s roots R) {α : Type} {step : Step Store α}
    (looks : Moves Store.OnlyTrace step) (turn : Turn) :
    R turn (exec (Turn.onStore step) turn).2 := by
  obtain ⟨trace, same⟩ := looks turn.store
  rw [Turn.exec_onStore, same]
  exact keeps.look turn trace turn.store.invocations

theorem andThen (keeps : e.Keeps s roots R) {α β : Type} {step : Step Turn α}
    {next : α → Step Turn β} {turn : Turn} (first : R turn (exec step turn).2)
    (later : ∀ x after, exec step turn = (.ok x, after) → R after (exec (next x) after).2) :
    R turn (exec (step >>= next) turn).2 := by
  refine bind_ends (P := fun ended => R turn ended.2) (fun failure after ran => ?_)
    fun x after ran => ?_
  · rwa [ran] at first
  · rw [ran] at first
    exact keeps.trans _ _ _ first (later x after ran)

theorem inScope (keeps : e.Keeps s roots R) {body : Procedure}
    {next : Except Failure (List Event) → Procedure} {turn : Turn}
    (acts : e.Acts s roots (.inScope body next) turn)
    (inside : R { turn with store := turn.store.enter }
      (exec (e.carryOut body) { turn with store := turn.store.enter }).2) :
    R turn (exec (Turn.inScope (e.carryOut body)) turn).2 :=
  keeps.trans _ _ _ (keeps.enter turn) (keeps.trans _ _ _ inside (keeps.leave body next turn acts))

theorem carryOut (keeps : e.Keeps s roots R) (p : Procedure) (turn : Turn)
    (acts : e.Acts s roots p turn) : R turn (exec (e.carryOut p) turn).2 := by
  induction p generalizing turn with
  | done events => exact keeps.refl turn
  | fail failure => exact keeps.refl turn
  | write r updates next ih =>
    refine keeps.andThen (keeps.write r updates turn (.custom acts)) fun x after ran => ?_
    exact ih x after (acts.next (by rw [answer?, Procedure.after, ran]))
  | rawWrite r updates next ih =>
    refine keeps.andThen (keeps.change _ turn _ acts rfl) fun x after ran => ?_
    exact ih x after (acts.next (by rw [answer?, Procedure.after, ran]))
  | peek schema id next ih => exact ih _ turn (acts.next rfl)
  | get schema id next ih =>
    refine keeps.andThen (keeps.onStore (Store.get_moves _ _) turn) fun x after ran => ?_
    exact ih x after (acts.next (by rw [answer?, Procedure.after, ran]))
  | related r scope only next ih =>
    have looked := keeps.onStore (Store.related_moves e.catalog r scope only) turn
    refine keeps.andThen looked fun x after ran => ?_
    exact ih x after (acts.next (by rw [answer?, Procedure.after, ran]))
  | query schema filter next ih =>
    refine keeps.andThen (keeps.onStore (Store.query_moves _ _) turn) fun x after ran => ?_
    exact ih x after (acts.next (by rw [answer?, Procedure.after, ran]))
  | insert schema data id next ih =>
    refine keeps.andThen (keeps.change _ turn _ acts rfl) fun x after ran => ?_
    exact ih x after (acts.next (by rw [answer?, Procedure.after, ran]))
  | delete r next ih =>
    refine keeps.andThen (keeps.change _ turn _ acts rfl) fun x after ran => ?_
    exact ih x after (acts.next (by rw [answer?, Procedure.after, ran]))
  | emit event next ih =>
    refine keeps.andThen (keeps.emit event next turn acts) fun _ after ran => ?_
    exact ih after (acts.next (by rw [answer?, Procedure.after, ran]))
  | inScope body next body_ih ih =>
    have inside := body_ih { turn with store := turn.store.enter } acts.enter
    refine keeps.andThen (keeps.inScope acts inside) fun x after ran => ?_
    exact ih x after (acts.next (by rw [answer?, Procedure.after, ran]))

theorem answered (keeps : e.Keeps s roots R) {p q : Procedure} {turn after : Turn}
    (acts : e.Acts s roots p turn) (answered : e.answer? p turn = some (q, after)) :
    R turn after := by
  cases p with
  | done events => cases answered
  | fail failure => cases answered
  | peek schema id next =>
    cases answered
    exact keeps.refl turn
  | write r updates next =>
    rw [answer?] at answered
    rw [Procedure.eq_of_after answered]
    exact keeps.write r updates turn (.custom acts)
  | rawWrite r updates next =>
    rw [answer?] at answered
    rw [Procedure.eq_of_after answered]
    exact keeps.change _ turn _ acts rfl
  | get schema id next =>
    rw [answer?] at answered
    rw [Procedure.eq_of_after answered]
    exact keeps.onStore (Store.get_moves schema id) turn
  | related r scope only next =>
    rw [answer?] at answered
    rw [Procedure.eq_of_after answered]
    exact keeps.onStore (Store.related_moves e.catalog r scope only) turn
  | query schema filter next =>
    rw [answer?] at answered
    rw [Procedure.eq_of_after answered]
    exact keeps.onStore (Store.query_moves schema filter) turn
  | insert schema data id next =>
    rw [answer?] at answered
    rw [Procedure.eq_of_after answered]
    exact keeps.change _ turn _ acts rfl
  | delete r next =>
    rw [answer?] at answered
    rw [Procedure.eq_of_after answered]
    exact keeps.change _ turn _ acts rfl
  | emit event next =>
    rw [answer?] at answered
    rw [Procedure.eq_of_after answered]
    exact keeps.emit event next turn acts
  | inScope body next =>
    rw [answer?] at answered
    rw [Procedure.eq_of_after answered]
    exact keeps.inScope acts (keeps.carryOut body _ acts.enter)

theorem invoke (keeps : e.Keeps s roots R) {name : Value} {call : ActionCall} {turn : Turn}
    (calls : e.Calls s roots name call turn) : R turn (exec (e.invoke name call) turn).2 := by
  rw [Engine.invoke]
  refine keeps.andThen (keeps.refl turn) fun key after ran => ?_
  obtain ⟨named, rfl⟩ := Prod.mk.inj ran
  cases known : e.actions.actions.find? key with
  | none => exact keeps.refl turn
  | some action =>
    refine keeps.andThen (keeps.look turn _ _) fun _ after noted => ?_
    obtain ⟨-, rfl⟩ := Prod.mk.inj noted
    have acts : e.Acts s roots (action call) (turn.ran key call) := .start calls named known
    refine keeps.andThen (keeps.carryOut _ _ acts) fun outcome after _ => ?_
    cases outcome with
    | ok events => exact keeps.refl after
    | error failure => exact keeps.refl after

theorem forM (keeps : e.Keeps s roots R) {α : Type} {step : α → Step Turn Unit} (xs : List α)
    (first : Turn)
    (each : ∀ before x later turn, xs = before ++ x :: later →
      exec (before.forM step) first = (.ok (), turn) → R turn (exec (step x) turn).2) :
    R first (exec (xs.forM step) first).2 := by
  induction xs generalizing first with
  | nil => exact keeps.refl first
  | cons x rest ih =>
    refine keeps.andThen (each [] x rest first rfl rfl) fun _ after ran => ?_
    refine ih after fun before y later turn split done => ?_
    refine each (x :: before) y later turn (congrArg _ split) ?_
    change exec (step x >>= fun _ => before.forM step) first = (.ok (), turn)
    rw [exec_bind, ran]
    exact done

theorem setFields (keeps : e.Keeps s roots R) {event : Event} {r : Reaction}
    {before later : List Record} {target : Record} {first turn : Turn}
    {assignments : List (String × Operand)}
    (targets : e.Targets s roots event r (before ++ target :: later) first)
    (sets : r.action = .set assignments)
    (done : exec (before.forM (e.setFields assignments (Scene.ofEvent event))) first =
      (.ok (), turn)) :
    R turn (exec (e.setFields assignments (Scene.ofEvent event) target) turn).2 := by
  rw [Engine.setFields]
  refine keeps.andThen (keeps.refl turn) fun schema after ran => ?_
  obtain ⟨known, rfl⟩ := Prod.mk.inj ran
  dsimp only
  split
  · rename_i something
    simp only [Bool.not_eq_true', List.isEmpty_eq_false_iff] at something
    have asked := Requests.set targets sets done known something
    exact keeps.andThen (keeps.write _ _ turn asked) fun _ after _ => keeps.refl after
  · exact keeps.refl turn

theorem react (keeps : e.Keeps s roots R) {event : Event} {r : Reaction} {turn : Turn}
    (reacts : e.Reacts s roots event r turn) : R turn (exec (e.react event r) turn).2 := by
  rw [Engine.react]
  have found := keeps.onStore (Store.related_moves e.catalog event.object r.scope
    (if r.scope = .self then .null else r.targetSchema)) turn
  refine keeps.andThen found fun targets after ran => ?_
  have targets : e.Targets s roots event r targets after := ⟨turn, reacts, ran⟩
  cases acts : r.action with
  | set assignments =>
    refine keeps.forM _ after fun before target later first split done => ?_
    exact keeps.setFields (split ▸ targets) acts done
  | custom name =>
    have calls : e.Calls s roots name ⟨event, _, r⟩ after := ⟨targets, acts⟩
    refine keeps.andThen (keeps.invoke calls) fun events later answered => ?_
    rw [Turn.exec_follows]
    exact keeps.answer name _ after events later calls answered

theorem reactions (keeps : e.Keeps s roots R) {event : Event} {turn : Turn}
    (dispatches : e.Dispatches s roots event turn) :
    R turn (exec ((e.matching event).2.forM (e.react event)) turn).2 := by
  refine keeps.forM _ turn fun before r later first split done => ?_
  exact keeps.react ⟨turn, before, later, dispatches, split, done⟩

theorem dispatchLoaded (keeps : e.Keeps s roots R) {course : Course} {event : Event} {depth : Nat}
    {rest : Waiting} (reached : e.Reaches s roots course)
    (waiting : course.queue = (event, depth) :: rest) :
    ∃ store, course.turn.store.OnlyTrace store ∧
      ((exec (e.dispatchLoaded (course.place event)) course.turn).2 = { course.turn with store } ∨
        R { course.turn with store, followUps := [] }
          (exec (e.dispatchLoaded (course.place event)) course.turn).2) ∧
      ∀ d after, exec (e.dispatchLoaded (course.place event)) course.turn = (.ok d, after) →
        R { course.turn with store, followUps := [] } after ∧ d.followUps = after.followUps := by
  have looked := e.hydrate_moves (R := Store.OnlyTrace) (course.place event) course.turn.store
  rw [Engine.dispatchLoaded, exec_bind, Turn.exec_onStore]
  cases loaded : exec (e.hydrate (course.place event)) course.turn.store with
  | mk outcome store =>
    rw [loaded] at looked
    refine ⟨store, looked, ?_⟩
    cases outcome with
    | error failure => exact ⟨.inl rfl, fun _ _ ran => by cases ran⟩
    | ok hydrated =>
      have dispatches : e.Dispatches s roots hydrated { course.turn with store, followUps := [] } :=
        ⟨course, event, depth, rest, store, reached, waiting, loaded, rfl⟩
      have kept := keeps.reactions dispatches
      simp only [Engine.dispatch, exec_bind, exec_modify]
      cases ran : exec ((e.matching hydrated).2.forM (e.react hydrated))
          { course.turn with store, followUps := [] } with
      | mk outcome after =>
        rw [ran] at kept
        cases outcome with
        | error failure => exact ⟨.inr kept, fun _ _ ran => by cases ran⟩
        | ok _ =>
          refine ⟨.inr kept, fun d last ended => ?_⟩
          cases ended
          exact ⟨kept, rfl⟩

section

variable (keeps : e.Keeps s roots R) (fresh : ∀ turn, R turn { turn with followUps := [] })

include keeps fresh

theorem dispatchLoaded_fresh {course : Course} {event : Event} {depth : Nat} {rest : Waiting}
    (reached : e.Reaches s roots course) (waiting : course.queue = (event, depth) :: rest) :
    R course.turn (exec (e.dispatchLoaded (course.place event)) course.turn).2 := by
  obtain ⟨store, ⟨trace, rfl⟩, moved, -⟩ := keeps.dispatchLoaded reached waiting
  have looked := keeps.look course.turn trace course.turn.store.invocations
  rcases moved with same | moved
  · rw [same]
    exact looked
  · exact keeps.trans _ _ _ looked (keeps.trans _ _ _ (fresh _) moved)

theorem advance {course : Course} {event : Event} {depth : Nat} {rest : Waiting}
    {outcome : Except Failure Unit} {next : Course} (reached : e.Reaches s roots course)
    (waiting : course.queue = (event, depth) :: rest)
    (went : exec (e.advance event depth) { course with queue := rest } = (outcome, next)) :
    R course.turn next.turn := by
  have left := advance_turn e event depth { course with queue := rest }
  rw [went] at left
  rw [left]
  exact keeps.dispatchLoaded_fresh fresh reached waiting

/-- What all requests of a cascade keep holds between its start and all that its loop comes to. -/
theorem reaches {course : Course} (reached : e.Reaches s roots course) :
    R { store := s } course.turn := by
  induction reached with
  | refl => exact keeps.refl _
  | tail before goes ih =>
    obtain ⟨waiting, went⟩ := goes
    exact keeps.trans _ _ _ ih (keeps.advance fresh before waiting went)

theorem drain : R { store := s } (e.drain (.start s roots)).2.turn := by
  obtain ⟨last, reached, stops⟩ := e.exists_stops (.start s roots)
  have before := keeps.reaches fresh reached
  cases ended : e.drain (.start s roots) with
  | mk outcome stopped =>
    rw [ended] at stops
    cases stops with
    | done empty => exact before
    | failed waiting went =>
      exact keeps.trans _ _ _ before (keeps.advance fresh reached waiting went)

theorem dispatches {event : Event} {turn : Turn} (dispatches : e.Dispatches s roots event turn) :
    R { store := s } turn := by
  obtain ⟨course, waiting, depth, rest, store, reached, -, loaded, rfl⟩ := dispatches
  have looked := e.hydrate_moves (R := Store.OnlyTrace) (course.place waiting) course.turn.store
  rw [loaded] at looked
  obtain ⟨trace, rfl⟩ := looked
  have before := keeps.reaches fresh reached
  have noted := keeps.look course.turn trace course.turn.store.invocations
  exact keeps.trans _ _ _ before (keeps.trans _ _ _ noted (fresh _))

theorem reacts {event : Event} {r : Reaction} {turn : Turn}
    (reacts : e.Reacts s roots event r turn) : R { store := s } turn := by
  obtain ⟨first, before, later, dispatches, split, done⟩ := reacts
  have earlier : R first (exec (before.forM (e.react event)) first).2 := by
    refine keeps.forM _ first fun others other rest turn inside done => ?_
    rw [inside, List.append_assoc, List.cons_append] at split
    exact keeps.react ⟨first, others, _, dispatches, split, done⟩
  rw [done] at earlier
  exact keeps.trans _ _ _ (keeps.dispatches fresh dispatches) earlier

theorem targets {event : Event} {r : Reaction} {targets : List Record} {turn : Turn}
    (found : e.Targets s roots event r targets turn) : R { store := s } turn := by
  obtain ⟨before, reacts, ran⟩ := found
  have looked := keeps.onStore (Store.related_moves e.catalog event.object r.scope
    (if r.scope = .self then .null else r.targetSchema)) before
  rw [show exec (Turn.onStore _) before = _ from ran] at looked
  exact keeps.trans _ _ _ (keeps.reacts fresh reacts) looked

theorem acts {p : Procedure} {turn : Turn} (acts : e.Acts s roots p turn) :
    R { store := s } turn := by
  induction acts with
  | start called named known =>
    exact keeps.trans _ _ _ (keeps.targets fresh called.1) (keeps.look _ _ _)
  | next before answered ih => exact keeps.trans _ _ _ ih (keeps.answered before answered)
  | enter before ih => exact keeps.trans _ _ _ ih (keeps.enter _)

theorem requests {r : Record} {updates : Entries} {turn : Turn}
    (asked : e.Requests s roots r updates turn) : R { store := s } turn := by
  cases asked with
  | custom acts => exact keeps.acts fresh acts
  | @set event r before later target first turn assignments schema found sets done =>
    have earlier : R first (exec (before.forM (e.setFields assignments (Scene.ofEvent event)))
        first).2 := by
      refine keeps.forM _ first fun others target rest turn inside done => ?_
      rw [inside, List.append_assoc, List.cons_append] at found
      exact keeps.setFields found sets done
    rw [done] at earlier
    exact keeps.trans _ _ _ (keeps.targets fresh found) earlier

end

end Keeps

end Engine

end RecordRules
