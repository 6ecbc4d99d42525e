import RecordRules.Proofs.CascadeLoop
import RecordRules.Proofs.Reach

/-!
Events at which nothing happens. An event is idle when each reaction to it is ruled out by a
condition on the record of the event itself; whatever the reactions say of related records, none of
these is then loaded. Main statement: a cascade of idle events dispatches them without any access to
the store, and in every cascade the related records of an event are loaded only for a reaction that
is not ruled out and that reads some of them.
-/
namespace RecordRules

open Step

namespace Reaction

variable {r : Reaction} {event : Event}

/-- A condition on the record of the event is false. -/
def RuledOut (r : Reaction) (event : Event) : Prop :=
  ∃ c ∈ r.conditions, c.isRelational = false ∧ c.holds (Scene.ofEvent event) = false

def Admits (r : Reaction) (event : Event) : Prop :=
  ∀ c ∈ r.conditions, c.isRelational = false → c.holds (Scene.ofEvent event) = true

theorem not_admits_iff : ¬ r.Admits event ↔ r.RuledOut event := by
  unfold Admits RuledOut
  push Not
  simp only [Bool.not_eq_true]

def ReadsRelated (r : Reaction) : Prop :=
  (∃ c ∈ r.conditions, c.isRelational = true) ∨
    ∃ assignments field p, r.action = .set assignments ∧ (field, .path p) ∈ assignments ∧
      p.isRelational = true

theorem readsRelated_of_mem {p : Path} (read : p ∈ r.paths) (related : p.isRelational = true) :
    r.ReadsRelated := by
  rcases List.mem_append.mp read with compared | written
  · obtain ⟨c, listed, used⟩ := List.mem_flatMap.mp compared
    exact .inl ⟨c, listed, List.any_eq_true.mpr ⟨p, used, related⟩⟩
  · cases action : r.action with
    | custom name =>
      rw [action] at written
      cases written
    | set assignments =>
      rw [action] at written
      obtain ⟨⟨field, operand⟩, listed, used⟩ := List.mem_filterMap.mp written
      cases operand with
      | value v => cases used
      | path q =>
        obtain rfl := Option.some.inj used
        exact .inr ⟨assignments, field, q, action, listed, related⟩

end Reaction

theorem Store.leave_enter (s : Store) : s.enter.leave false = s := by
  obtain ⟨tables, scope, issued, trace, invocations⟩ := s
  cases scope <;> rfl

namespace Engine

variable {e : Engine} {event : Event}

/-- No reaction to the event is left, by what the record of the event itself says. -/
def Idle (e : Engine) (event : Event) : Prop :=
  ∀ r ∈ e.rules.reactionsFor event.schema event.kind, r.RuledOut event

theorem mem_possible {r : Reaction} :
    r ∈ e.possible event ↔
      r ∈ e.rules.reactionsFor event.schema event.kind ∧ r.Admits event := by
  rw [possible, List.mem_filter, Condition.allHold, List.all_eq_true]
  refine and_congr_right fun _ => forall_congr' fun c => ?_
  simp [List.mem_filter]

theorem hydrate_of_unread (unread : ∀ r ∈ e.possible event, ¬ r.ReadsRelated) :
    e.hydrate event = pure event := by
  have none : (e.localReach event).isNone = true := by
    rw [Reach.isNone_iff, localReach]
    refine le_antisymm (Reach.ofPaths_le_iff.mpr fun p read => ?_) (bot_le (α := Reach))
    obtain ⟨r, possible, read⟩ := List.mem_flatMap.mp read
    have own : p.isRelational = false := by
      rw [← Bool.not_eq_true]
      exact fun related => unread r possible (Reaction.readsRelated_of_mem read related)
    rw [Reach.ofPath_of_isRelational own]
  unfold hydrate
  simp only [none, ↓reduceIte, ite_self]

namespace Idle

theorem possible (idle : e.Idle event) : e.possible event = [] := by
  refine List.eq_nil_iff_forall_not_mem.mpr fun r possible => ?_
  obtain ⟨candidate, admits⟩ := mem_possible.mp possible
  exact Reaction.not_admits_iff.mpr (idle r candidate) admits

theorem matching (idle : e.Idle event) :
    e.matching event = (e.rules.reactionsFor event.schema event.kind, []) := by
  refine Prod.ext rfl (List.filter_eq_nil_iff.mpr fun r candidate holds => ?_)
  obtain ⟨c, listed, -, fails⟩ := idle r candidate
  rw [List.all_eq_true.mp holds c listed] at fails
  cases fails

theorem hydrate (idle : e.Idle event) : e.hydrate event = pure event := by
  refine hydrate_of_unread fun r possible => ?_
  rw [idle.possible] at possible
  cases possible

def noted (e : Engine) (event : Event) : Dispatched where
  event
  candidates := (e.rules.reactionsFor event.schema event.kind).map Reaction.label
  matched := []
  followUps := []

theorem exec_dispatchLoaded (idle : e.Idle event) (turn : Turn) :
    exec (e.dispatchLoaded event) turn = (.ok (noted e event), { turn with followUps := [] }) := by
  unfold dispatchLoaded
  rw [idle.hydrate, exec_bind, Turn.exec_onStore, exec_pure]
  simp only [dispatch, idle.matching]
  rfl

theorem place (idle : e.Idle event) (course : Course) : e.Idle (course.place event) := by
  obtain ⟨up, down, placed⟩ := course.place_eq event
  rw [placed]
  intro r candidate
  obtain ⟨c, listed, own, fails⟩ := idle r candidate
  have same := c.holds_of_isRelational (a := (event.withRelated up down).numbered course.sequence)
    (b := event) rfl rfl own
  exact ⟨c, listed, own, same.trans fails⟩

theorem exec_advance (idle : e.Idle event) (depth : Nat) (course : Course) :
    exec (e.advance event depth) course =
      (.ok (), { course with
        turn := { course.turn with followUps := [] }
        sequence := course.sequence + 1
        dispatched := course.dispatched ++ [noted e (course.place event)]
        maxDepth := max course.maxDepth depth }) := by
  rw [Engine.exec_advance, (idle.place course).exec_dispatchLoaded]
  simp [overruns, noted, Course.await, Course.note, Course.next, Waiting.behind]

end Idle

/-- All that waits is idle, and no deeper than what came before: it is dispatched, one event after
another, and nothing waits behind. -/
theorem drain_idle (course : Course) (idle : ∀ item ∈ course.queue, e.Idle item.1)
    (shallow : ∀ item ∈ course.queue, item.2 ≤ course.maxDepth) :
    ∃ last, e.drain course = (.ok (), last) ∧ last.turn.store = course.turn.store ∧
      last.turn.chain = course.turn.chain ∧ last.maxDepth = course.maxDepth := by
  induction waiting : course.queue generalizing course with
  | nil => exact ⟨course, e.drain_nil waiting, rfl, rfl, rfl⟩
  | cons item rest ih =>
    obtain ⟨event, depth⟩ := item
    rw [waiting, List.forall_mem_cons] at idle shallow
    have deepest : max course.maxDepth depth = course.maxDepth := max_eq_left shallow.1
    rw [e.drain_cons waiting, idle.1.exec_advance]
    dsimp only
    obtain ⟨last, ended, store, chain, kept⟩ :=
      ih { course with
        turn := { course.turn with followUps := [] }
        queue := rest
        sequence := course.sequence + 1
        dispatched := course.dispatched ++ [Idle.noted e (course.place event)]
        maxDepth := max course.maxDepth depth } idle.2
        (fun item inside => (shallow.2 item inside).trans (le_max_left _ _)) rfl
    exact ⟨last, ended, store, chain, kept.trans deepest⟩

theorem propagate_idle {roots : List Event} (idle : ∀ event ∈ roots, e.Idle event) (s : Store) :
    ∃ c, exec (e.propagate roots) s = (.ok c, s) ∧ c.writes = [] ∧ c.maxDepth = 0 := by
  obtain ⟨last, ended, store, chain, deepest⟩ := drain_idle (e := e) (.start s roots)
    (by simpa [Course.start, Waiting.ofRoots] using idle)
    (by simp [Course.start, Waiting.ofRoots])
  refine ⟨last.cascade, ?_, congrArg Chain.writes chain, deepest⟩
  rw [exec_propagate, ended]
  exact Prod.ext rfl store

theorem propagate_idle_single (idle : e.Idle event) (s : Store) :
    ∃ c, exec (e.propagate [event]) s = (.ok c, s) ∧ c.writes = [] ∧ c.maxDepth = 0 ∧
      c.dispatched = [Idle.noted e (event.numbered 0)] := by
  have went := idle.exec_advance 0 { Course.start s [event] with queue := [] }
  have drained := e.drain_cons (show (Course.start s [event]).queue = [(event, 0)] from rfl)
  rw [went] at drained
  replace drained := drained.trans (e.drain_nil rfl)
  refine ⟨_, by rw [exec_propagate, drained]; rfl, rfl, rfl, ?_⟩
  have known := event.numbered_isSame 0
  simp [Course.cascade, Course.start, Course.place, Course.revisit, Course.report, Idle.noted, known]

theorem propagate_idle_twice (idle : e.Idle event) (known : event.identity.isSome = true)
    (s : Store) : ∃ c, exec (e.propagate [event, event]) s = (.ok c, s) ∧
      c.dispatched.map (fun d => d.event.sequence) = [1, 1] := by
  obtain ⟨id, known⟩ := Option.isSome_iff_exists.mp known
  have first := idle.exec_advance 0 { Course.start s [event, event] with queue := [(event, 0)] }
  obtain ⟨middle, went, waiting, dispatched, place, store⟩ : ∃ middle,
      e.Goes (.start s [event, event]) middle ∧ middle.queue = [(event, 0)] ∧
        middle.dispatched = [Idle.noted e (event.numbered 0)] ∧ middle.sequence = 1 ∧
        middle.turn.store = s :=
    ⟨_, .dispatch rfl first, rfl, rfl, rfl, rfl⟩
  have second := idle.exec_advance 0 { middle with queue := [] }
  have drained : e.drain (.start s [event, event]) = _ :=
    (drain_of_goes went).trans ((drain_of_goes (.dispatch waiting second)).trans (e.drain_nil rfl))
  refine ⟨_, by rw [exec_propagate, drained]; exact Prod.ext rfl store, ?_⟩
  simp [Course.cascade, Course.report, Course.place, Course.revisit, Idle.noted, Event.isSame,
    Event.numbered, Event.idAt, dispatched, place, known]

theorem admits_of_hydrate {s : Store} (loads : exec (e.hydrate event) s ≠ (.ok event, s)) :
    ∃ r ∈ e.rules.reactionsFor event.schema event.kind, r.Admits event ∧ r.ReadsRelated := by
  by_contra none
  refine loads ?_
  rw [hydrate_of_unread, exec_pure]
  intro r possible related
  obtain ⟨candidate, admits⟩ := mem_possible.mp possible
  exact none ⟨r, candidate, admits, related⟩

/-- What cannot react costs nothing: if each reaction to an event is ruled out by a condition on the
record of the event, its cascade is this one dispatch, in which nothing matches, and the store is
left as it is, without a trace of any access. In every cascade, when an event is about to be
dispatched, something is loaded for it only if a reaction to it reads a related record, in a
condition or in a value to set, and all its conditions on the record of the event are true. -/
theorem run_idle_and_loads_for_admitted (e : Engine) :
    (∀ (event : Event) (s : Store),
      (∀ r ∈ e.rules.reactionsFor event.schema event.kind, r.RuledOut event) →
      ∃ c, exec (e.run [event]) s = (.ok c, s) ∧ c.writes = [] ∧ c.maxDepth = 0 ∧
        c.dispatched = [{
          event := event.numbered 0
          candidates := (e.rules.reactionsFor event.schema event.kind).map Reaction.label
          matched := []
          followUps := [] }]) ∧
    ∀ (s : Store) (roots : List Event) (course : Course) (event : Event) (depth : Nat)
      (rest : Waiting),
      e.Reaches s roots course → course.queue = (event, depth) :: rest →
      exec (e.hydrate (course.place event)) course.turn.store ≠
        (.ok (course.place event), course.turn.store) →
      ∃ r ∈ e.rules.reactionsFor event.schema event.kind, r.Admits event ∧ r.ReadsRelated := by
  constructor
  case left =>
    intro event s idle
    obtain ⟨c, ran, unwritten, shallow, dispatched⟩ :=
      propagate_idle_single (e := e) idle s.enter
    refine ⟨c, ?_, unwritten, shallow, dispatched⟩
    rw [run, Store.transaction, exec_of, ran]
    exact Prod.ext rfl s.leave_enter
  case right =>
    intro s roots course event depth rest _ _ loads
    obtain ⟨r, candidate, admits, reads⟩ := admits_of_hydrate loads
    obtain ⟨up, down, placed⟩ := course.place_eq event
    rw [placed] at candidate admits
    refine ⟨r, candidate, fun c listed own => ?_, reads⟩
    have same := c.holds_of_isRelational (a := event)
      (b := (event.withRelated up down).numbered course.sequence) rfl rfl own
    exact same.trans (admits c listed own)

/-- A folder that is called "Plans" takes over the title of the folder above it. To find that one, a
renamed folder is looked at first: for another title, nothing is loaded. -/
theorem run_renamed_folder :
    let within : Field := { name := "within", kind := .known .reference, refer := .text "Folder" }
    let title : Field := { name := "title", kind := .known .text }
    let folder : Schema := { name := .text "Folder", fields := [title, within] }
    let c : Catalog :=
      { schemas := [(.text "Folder", folder)]
        edges := [⟨.text "Folder", .text "Folder", within⟩] }
    let own : Path := { origin := .object, tail := ["title"], source := "" }
    let above : Path := { origin := .parent, tail := ["title"], source := "" }
    let copies : Reaction :=
      { schema := .text "Folder", event := .modified, action := .set [("title", .path above)]
        conditions := [⟨own, .eq, .value (.text "Plans")⟩, ⟨above, .neq, .value .null⟩] }
    let b : RuleBook :=
      { reactions := [copies]
        reactionReaches := [((.text "Folder", .modified), { ancestors := .upTo 1 })] }
    let e : Engine := { catalog := c, rules := b }
    let outer : Record := ⟨.text "Folder", .text "outer", [("title", .text "Home")]⟩
    let inner (given : String) : Record :=
      ⟨.text "Folder", .text "inner", [("title", .text given), ("within", .text "outer")]⟩
    let stored (given : String) : Store :=
      { tables := [(.text "Folder", [outer, inner given].map fun r => (r.id, r.data))] }
    let renamed (given : String) : Event := .modifiedOf (inner given) ["title"]
    (∃ c, exec (e.run [renamed "Notes"]) (stored "Notes") = (.ok c, stored "Notes") ∧
      c.dispatched.map Dispatched.candidates = [[copies.label]] ∧ c.matched = []) ∧
    ∃ r ∈ [copies], r.Admits (renamed "Plans") ∧ r.ReadsRelated := by
  intro within title folder c own above copies b e outer inner stored renamed
  obtain ⟨quiet, loading⟩ := e.run_idle_and_loads_for_admitted
  constructor
  case left =>
    obtain ⟨cascade, ran, -, -, dispatched⟩ := quiet (renamed "Notes") (stored "Notes") <| by
      refine List.forall_mem_singleton.mpr ?_
      exact ⟨⟨own, .eq, .value (.text "Plans")⟩, List.mem_cons_self, rfl, by decide +kernel⟩
    refine ⟨cascade, ran, ?_, ?_⟩
    · rw [dispatched]
      rfl
    · rw [Cascade.matched, dispatched]
      rfl
  case right =>
    refine loading (stored "Plans") [renamed "Plans"] (.start (stored "Plans") [renamed "Plans"])
      (renamed "Plans") 0 [] .refl rfl fun unread => ?_
    have traces := congrArg (fun answer => answer.2.trace.length) unread
    revert traces
    decide +kernel

end Engine

end RecordRules
