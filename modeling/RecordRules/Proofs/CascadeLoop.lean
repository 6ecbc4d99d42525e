import Mathlib.Logic.Relation
import Mathlib.Order.WellFounded
import RecordRules.Reaction.Cascade

/-!
The loop of a cascade, one dispatch after another. It goes on only while dispatches succeed, it
cannot go on for ever, and where it stops decides how the cascade ends.
-/
namespace RecordRules

open Step

namespace Event

theorem numbered_isSame (event : Event) (sequence : Nat) :
    (event.numbered sequence).isSame (event.numbered sequence) = true := by
  simp [isSame, numbered]

end Event

namespace Course

theorem revisit_eq (course : Course) (event : Event) :
    ∃ up down sequence,
      course.revisit event = { event.withRelated up down with sequence } := by
  unfold revisit
  split
  · rename_i d _
    exact ⟨d.event.ancestry, d.event.descendants, d.event.sequence, rfl⟩
  · exact ⟨event.ancestry, event.descendants, event.sequence, rfl⟩

theorem place_of_new (course : Course) {event : Event} (new : event.identity = none) :
    course.place event = event.numbered course.sequence := by
  have unknown : (course.dispatched.filter fun d => d.event.isSame event) = [] := by
    refine List.filter_eq_nil_iff.mpr fun d _ => ?_
    rw [Event.isSame, new]
    cases d.event.identity <;> simp
  rw [place, revisit, unknown]
  rfl

theorem place_eq (course : Course) (event : Event) :
    ∃ up down, course.place event = (event.withRelated up down).numbered course.sequence := by
  obtain ⟨up, down, sequence, known⟩ := course.revisit_eq event
  exact ⟨up, down, by rw [place, known]; rfl⟩

end Course

namespace Engine

theorem advance_ok {e : Engine} {event : Event} {depth : Nat} {course next : Course}
    (went : exec (e.advance event depth) course = (.ok (), next)) :
    ∃ d turn, exec (e.dispatchLoaded (course.place event)) course.turn = (.ok d, turn) ∧
      (d.followUps = [] ∨ depth < e.depthLimit) ∧
      next =
        { turn
          queue := course.queue.behind depth d.followUps
          sequence := course.sequence + 1
          dispatched := course.dispatched ++ [d]
          maxDepth := max course.maxDepth depth } := by
  rw [exec_advance] at went
  split at went
  · cases went
  · rename_i d turn ran
    split at went
    · cases went
    · rename_i fits
      refine ⟨d, turn, ran, ?_, (Prod.mk.inj went).2.symm⟩
      simp only [overruns, Bool.and_eq_true, Bool.not_eq_true', decide_eq_true_eq, not_and,
        Nat.not_lt, List.isEmpty_eq_false_iff] at fits
      exact (em (d.followUps = [])).imp_right fits

theorem advance_turn (e : Engine) (event : Event) (depth : Nat) (course : Course) :
    (exec (e.advance event depth) course).2.turn =
      (exec (e.dispatchLoaded (course.place event)) course.turn).2 := by
  rw [exec_advance]
  cases ran : exec (e.dispatchLoaded (course.place event)) course.turn with
  | mk outcome turn =>
    cases outcome with
    | error failure => rfl
    | ok d =>
      dsimp only
      split <;> rfl

theorem advance_error {e : Engine} {event : Event} {depth : Nat} {course stopped : Course}
    {failure : Failure} (went : exec (e.advance event depth) course = (.error failure, stopped)) :
    (exec (e.dispatchLoaded (course.place event)) course.turn).1 = .error failure ∨
      ∃ d turn, exec (e.dispatchLoaded (course.place event)) course.turn = (.ok d, turn) ∧
        d.followUps ≠ [] ∧ e.depthLimit ≤ depth ∧
        failure = .cascadeLimit (depth + 1) e.depthLimit := by
  rw [exec_advance] at went
  split at went
  · rename_i other turn ran
    obtain rfl : other = failure := Except.error.inj (Prod.mk.inj went).1
    exact .inl (congrArg Prod.fst ran)
  · rename_i d turn ran
    split at went
    · rename_i beyond
      simp only [overruns, Bool.and_eq_true, Bool.not_eq_true', decide_eq_true_eq,
        List.isEmpty_eq_false_iff] at beyond
      refine .inr ⟨d, turn, ran, beyond.1, Nat.le_of_lt_succ beyond.2, ?_⟩
      exact (Except.error.inj (Prod.mk.inj went).1).symm
    · cases went

theorem advance_of_overruns {e : Engine} {event : Event} {depth : Nat} {course : Course}
    {d : Dispatched} {turn : Turn}
    (ran : exec (e.dispatchLoaded (course.place event)) course.turn = (.ok d, turn))
    (follows : d.followUps ≠ []) (beyond : e.depthLimit ≤ depth) :
    exec (e.advance event depth) course =
      (.error (.cascadeLimit (depth + 1) e.depthLimit), (course.next turn).note depth d) := by
  have overruns : e.overruns depth d = true := by
    simp only [overruns, Bool.and_eq_true, Bool.not_eq_true', List.isEmpty_eq_false_iff,
      decide_eq_true_eq]
    exact ⟨follows, Nat.lt_succ_of_le beyond⟩
  rw [exec_advance, ran]
  exact if_pos overruns

inductive Goes (e : Engine) : Course → Course → Prop where
  | dispatch {course next : Course} {event : Event} {depth : Nat} {rest : Waiting}
      (waiting : course.queue = (event, depth) :: rest)
      (went : exec (e.advance event depth) { course with queue := rest } = (.ok (), next)) :
      Goes e course next

def Reaches (e : Engine) (s : Store) (roots : List Event) : Course → Prop :=
  Relation.ReflTransGen e.Goes (.start s roots)

/-- Where the loop stops, and with which outcome: when nothing waits, or by a failure. -/
inductive Stops (e : Engine) : Course → Except Failure Unit × Course → Prop where
  | done {course : Course} (empty : course.queue = []) : Stops e course (.ok (), course)
  | failed {course stopped : Course} {event : Event} {depth : Nat} {rest : Waiting}
      {failure : Failure} (waiting : course.queue = (event, depth) :: rest)
      (went : exec (e.advance event depth) { course with queue := rest } =
        (.error failure, stopped)) : Stops e course (.error failure, stopped)

variable {e : Engine}

theorem Goes.follows {course next : Course} (goes : e.Goes course next) :
    Waiting.Follows e.depthLimit next.queue course.queue := by
  obtain ⟨waiting, went⟩ := goes
  rw [waiting]
  exact follows_of_advance went

theorem drain_of_goes {course next : Course} (goes : e.Goes course next) :
    e.drain course = e.drain next := by
  obtain ⟨waiting, went⟩ := goes
  rw [e.drain_cons waiting, went]

theorem drain_of_reflTransGen {course next : Course}
    (reached : Relation.ReflTransGen e.Goes course next) : e.drain course = e.drain next := by
  induction reached with
  | refl => rfl
  | tail _ goes ih => rw [ih, drain_of_goes goes]

theorem drain_of_stops {course : Course} {outcome : Except Failure Unit × Course}
    (stops : e.Stops course outcome) : e.drain course = outcome := by
  cases stops with
  | done empty => rw [e.drain_nil empty]
  | failed waiting went => rw [e.drain_cons waiting, went]

theorem exists_stops (e : Engine) (course : Course) :
    ∃ last, Relation.ReflTransGen e.Goes course last ∧ e.Stops last (e.drain course) := by
  fun_induction Engine.drain e course with
  | case1 course empty => exact ⟨course, .refl, .done empty⟩
  | case2 course event depth rest waiting failure stopped went =>
    exact ⟨course, .refl, .failed waiting went⟩
  | case3 course event depth rest waiting _ next went ih =>
    obtain ⟨last, reached, stops⟩ := ih
    exact ⟨last, .head (.dispatch waiting went) reached, stops⟩

theorem Stops.empty {course last : Course} (stops : e.Stops course (.ok (), last)) :
    course.queue = [] ∧ last = course := by
  cases stops with
  | done empty => exact ⟨empty, rfl⟩

theorem Stops.waits {course stopped : Course} {failure : Failure}
    (stops : e.Stops course (.error failure, stopped)) :
    ∃ event depth rest, course.queue = (event, depth) :: rest ∧
      exec (e.advance event depth) { course with queue := rest } = (.error failure, stopped) := by
  cases stops with
  | failed waiting went => exact ⟨_, _, _, waiting, went⟩

section

variable {roots : List Event} {s t : Store}

theorem exec_propagate (e : Engine) (roots : List Event) (s : Store) :
    exec (e.propagate roots) s =
      ((e.drain (.start s roots)).1.map fun _ => (e.drain (.start s roots)).2.cascade,
        (e.drain (.start s roots)).2.turn.store) := by
  rw [propagate, exec_of]
  cases e.drain (.start s roots) with
  | mk outcome course => cases outcome <;> rfl

theorem eq_of_propagate_ok {c : Cascade} (ended : exec (e.propagate roots) s = (.ok c, t)) :
    c = (e.drain (.start s roots)).2.cascade ∧ t = (e.drain (.start s roots)).2.turn.store := by
  rw [exec_propagate] at ended
  obtain ⟨succeeded, left⟩ := Prod.mk.inj ended
  cases outcome : (e.drain (.start s roots)).1 with
  | error failure =>
    rw [outcome] at succeeded
    cases succeeded
  | ok _ =>
    rw [outcome] at succeeded
    exact ⟨(Except.ok.inj succeeded).symm, left.symm⟩

theorem exists_last_of_propagate_ok {c : Cascade}
    (ended : exec (e.propagate roots) s = (.ok c, t)) :
    ∃ last, e.Reaches s roots last ∧ last.queue = [] ∧ c = last.cascade := by
  obtain ⟨last, reached, stops⟩ := e.exists_stops (.start s roots)
  rw [exec_propagate] at ended
  cases drained : e.drain (.start s roots) with
  | mk outcome course =>
    rw [drained] at ended stops
    cases outcome with
    | error failure => cases ended
    | ok _ =>
      obtain ⟨empty, rfl⟩ := stops.empty
      exact ⟨course, reached, empty, (Except.ok.inj (Prod.mk.inj ended).1).symm⟩

theorem propagate_error_iff {failure : Failure} :
    (exec (e.propagate roots) s).1 = .error failure ↔
      ∃ last stopped, e.Reaches s roots last ∧ e.Stops last (.error failure, stopped) := by
  rw [exec_propagate]
  constructor
  · intro ended
    obtain ⟨last, reached, stops⟩ := e.exists_stops (.start s roots)
    cases drained : e.drain (.start s roots) with
    | mk outcome course =>
      rw [drained] at ended stops
      cases outcome with
      | error other =>
        obtain rfl : other = failure := Except.error.inj ended
        exact ⟨last, course, reached, stops⟩
      | ok _ => cases ended
  · rintro ⟨last, stopped, reached, stops⟩
    rw [drain_of_reflTransGen reached, drain_of_stops stops]
    rfl

end

end Engine

end RecordRules
