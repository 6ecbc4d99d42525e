import RecordRules.Reaction.Dispatch
import RecordRules.Reaction.Waiting

/-!
Cascades: events are dispatched in a queue, with everything that follows from them. What follows
from an event waits one level deeper than it, and no event waits deeper than the limit.
-/
namespace RecordRules

structure Cascade where
  dispatched : List Dispatched
  writes : List Write
  /-- The deepest level with events; the first events are at level zero. -/
  maxDepth : Nat
deriving Repr

def Cascade.matched (c : Cascade) : List Value := c.dispatched.flatMap Dispatched.matched

structure Course where
  turn : Turn
  queue : Waiting
  sequence : Nat := 0
  dispatched : List Dispatched := []
  maxDepth : Nat := 0

namespace Course

def start (store : Store) (roots : List Event) : Course where
  turn := { store }
  queue := .ofRoots roots

def onTurn {α : Type} (step : Step Turn α) : Step Course α :=
  Step.within Course.turn (fun course turn => { course with turn }) step

def next (course : Course) (turn : Turn) : Course :=
  { course with turn, sequence := course.sequence + 1 }

def note (course : Course) (depth : Nat) (d : Dispatched) : Course :=
  { course with
    dispatched := course.dispatched ++ [d]
    maxDepth := max course.maxDepth depth }

def await (course : Course) (depth : Nat) (d : Dispatched) : Course :=
  { course with queue := course.queue.behind depth d.followUps }

/-- An event as it is by now: one that was dispatched before has its place and its related records
from then. -/
def revisit (course : Course) (event : Event) : Event :=
  match (course.dispatched.filter fun d => d.event.isSame event).getLast? with
  | some d =>
    { event with
      sequence := d.event.sequence
      ancestry := d.event.ancestry
      descendants := d.event.descendants }
  | none => event

def place (course : Course) (event : Event) : Event :=
  (course.revisit event).numbered course.sequence

/-- Where the same event is dispatched again, the report of its first dispatch changes with it. -/
def report (course : Course) (d : Dispatched) : Dispatched :=
  { d with event := course.revisit d.event }

def cascade (course : Course) : Cascade where
  dispatched := course.dispatched.map course.report
  writes := course.turn.chain.writes
  maxDepth := course.maxDepth

end Course

namespace Engine

def possible (e : Engine) (event : Event) : List Reaction :=
  (e.rules.reactionsFor event.schema event.kind).filter fun r =>
    Condition.allHold (r.conditions.filter fun c => !c.isRelational) (Scene.ofEvent event)

def localReach (e : Engine) (event : Event) : Reach :=
  Reach.ofPaths ((e.possible event).flatMap Reaction.paths)

/-- The related records of an event: those it has, or more if more are looked at. -/
def relatedFor (e : Engine) (direction : Direction) (object : Record) (extent : Extent)
    (present : List Record) : Step Store (List Record) :=
  if extent.isNone || extent.coveredBy present.length then return present
  else Traversal.collect e.catalog direction object extent

def hydrate (e : Engine) (event : Event) : Step Store Event := do
  if (e.rules.reactionReach event.schema event.kind).isNone then return event
  let reach := e.localReach event
  if reach.isNone then return event
  let ancestry ← e.relatedFor .up event.object reach.ancestors event.ancestry
  let descendants ← e.relatedFor .down event.object reach.descendants event.descendants
  return event.withRelated ancestry descendants

def dispatchLoaded (e : Engine) (event : Event) : Step Turn Dispatched := do
  let event ← Turn.onStore (e.hydrate event)
  e.dispatch event

def overruns (e : Engine) (depth : Nat) (d : Dispatched) : Bool :=
  !d.followUps.isEmpty && e.depthLimit < depth + 1

/-- Dispatch an event that was taken from the queue. What follows from it waits behind; at the depth
limit nothing may follow. -/
def advance (e : Engine) (event : Event) (depth : Nat) : Step Course Unit := do
  let event := (← get).place event
  modify fun course => { course with sequence := course.sequence + 1 }
  let d ← Course.onTurn (e.dispatchLoaded event)
  modify fun course => course.note depth d
  if e.overruns depth d then throw (.cascadeLimit (depth + 1) e.depthLimit)
  modify fun course => course.await depth d

theorem exec_advance (e : Engine) (event : Event) (depth : Nat) (course : Course) :
    Step.exec (e.advance event depth) course =
      match Step.exec (e.dispatchLoaded (course.place event)) course.turn with
      | (.error failure, turn) => (.error failure, course.next turn)
      | (.ok d, turn) =>
        if e.overruns depth d then
          (.error (.cascadeLimit (depth + 1) e.depthLimit), (course.next turn).note depth d)
        else (.ok (), ((course.next turn).note depth d).await depth d) := by
  simp only [advance, Step.exec_bind, Step.exec_get, Step.exec_modify, Course.onTurn,
    Step.exec_within]
  cases ran : Step.exec (e.dispatchLoaded (course.place event)) course.turn with
  | mk outcome turn =>
    cases outcome with
    | error failure => rfl
    | ok d => cases beyond : e.overruns depth d <;> simp [beyond, Course.next]

theorem follows_of_advance {e : Engine} {event : Event} {depth : Nat} {course next : Course}
    (went : Step.exec (e.advance event depth) course = (.ok (), next)) :
    Waiting.Follows e.depthLimit next.queue ((event, depth) :: course.queue) := by
  rw [exec_advance] at went
  split at went
  · cases went
  · split at went
    · cases went
    · rename_i d turn _ fits
      cases went
      refine .take ?_
      simp only [overruns, Bool.and_eq_true, Bool.not_eq_true', decide_eq_true_eq, not_and,
        Nat.not_lt] at fits
      cases empty : d.followUps with
      | nil => exact .inl rfl
      | cons first rest => exact .inr (fits (by simp [empty]))

/-- Dispatch what waits, first come first served, until nothing waits any more. -/
def drain (e : Engine) (course : Course) : Except Failure Unit × Course :=
  match _ : course.queue with
  | [] => (.ok (), course)
  | (event, depth) :: rest =>
    match _ : Step.exec (e.advance event depth) { course with queue := rest } with
    | (.error failure, stopped) => (.error failure, stopped)
    | (.ok _, next) => e.drain next
termination_by (Waiting.follows_wellFounded e.depthLimit).wrap course.queue
decreasing_by
  rename_i waiting _ went
  rw [waiting]
  exact follows_of_advance went

theorem drain_nil (e : Engine) {course : Course} (waiting : course.queue = []) :
    e.drain course = (.ok (), course) := by
  rw [drain]
  split
  · rfl
  · simp_all

theorem drain_cons (e : Engine) {course : Course} {event : Event} {depth : Nat} {rest : Waiting}
    (waiting : course.queue = (event, depth) :: rest) :
    e.drain course =
      match Step.exec (e.advance event depth) { course with queue := rest } with
      | (.error failure, stopped) => (.error failure, stopped)
      | (.ok _, next) => e.drain next := by
  rw [drain]
  split
  · simp_all
  · rename_i first deep others found
    obtain ⟨⟨rfl, rfl⟩, rfl⟩ : (first = event ∧ deep = depth) ∧ others = rest := by
      simpa [found] using waiting
    split <;> simp_all

def propagate (e : Engine) (roots : List Event) : Step Store Cascade :=
  Step.of fun store =>
    match e.drain (.start store roots) with
    | (.ok _, course) => (.ok course.cascade, course.turn.store)
    | (.error failure, course) => (.error failure, course.turn.store)

def run (e : Engine) (roots : List Event) : Step Store Cascade :=
  Store.transaction (e.propagate roots)

end Engine

end RecordRules
