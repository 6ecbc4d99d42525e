import RecordRules.Proofs.CascadeOrder
import RecordRules.Proofs.DispatchFailures
import RecordRules.Proofs.IdleEvents
import RecordRules.Proofs.KnownActions

/-!
Cascades of one engine under two depth limits. No dispatch asks for the limit, so the loop under the
smaller one goes the way of the other, until nothing waits or the smaller limit is exceeded. A
cascade that fits under a limit is the same under every larger one.
-/
namespace RecordRules

open Step

namespace Engine

def withLimit (e : Engine) (limit : Int) : Engine :=
  { e with settings := { e.settings with maxCascadeDepth := limit } }

section

variable (e : Engine) (limit : Int)

theorem depthLimit_withLimit : (e.withLimit limit).depthLimit = limit.toNat := rfl

theorem carryOut_withLimit (p : Procedure) :
    (e.withLimit limit).carryOut p = e.carryOut p := by
  have writes : (e.withLimit limit).applyWrite = e.applyWrite := rfl
  exact carryOut_congr writes rfl p

theorem invoke_withLimit (name : Value) (call : ActionCall) :
    (e.withLimit limit).invoke name call = e.invoke name call := by
  simp only [invoke, carryOut_withLimit]
  rfl

theorem react_withLimit (event : Event) (r : Reaction) :
    (e.withLimit limit).react event r = e.react event r := by
  simp only [react, invoke_withLimit]
  rfl

theorem dispatchLoaded_withLimit (event : Event) :
    (e.withLimit limit).dispatchLoaded event = e.dispatchLoaded event := by
  have reacted (event : Event) : (e.withLimit limit).react event = e.react event := by
    funext r
    exact e.react_withLimit limit event r
  simp only [dispatchLoaded, dispatch, reacted]
  rfl

theorem overruns_withLimit (depth : Nat) (d : Dispatched) :
    (e.withLimit limit).overruns depth d = true ↔ d.followUps ≠ [] ∧ limit.toNat ≤ depth := by
  have bound : (e.withLimit limit).depthLimit < depth + 1 ↔ limit.toNat ≤ depth := by
    rw [depthLimit_withLimit]
    omega
  simp only [overruns, Bool.and_eq_true, Bool.not_eq_true', List.isEmpty_eq_false_iff,
    decide_eq_true_eq, bound]

end

variable {e : Engine} {few many : Int}

section

variable {event : Event} {level : Nat} {course next : Course}

theorem advance_raise (le : few ≤ many)
    (went : exec ((e.withLimit few).advance event level) course = (.ok (), next)) :
    exec ((e.withLimit many).advance event level) course = (.ok (), next) := by
  obtain ⟨d, turn, ran, fits, rfl⟩ := advance_ok went
  rw [dispatchLoaded_withLimit] at ran
  rw [depthLimit_withLimit] at fits
  have within : ¬(e.withLimit many).overruns level d = true := by
    rw [overruns_withLimit]
    intro beyond
    have below := fits.resolve_left beyond.1
    omega
  rw [exec_advance, dispatchLoaded_withLimit, ran]
  simp [within, Course.next, Course.note, Course.await]

variable (few) in
/-- An event that is dispatched under a limit is dispatched in the same way under a smaller one,
unless what follows from it exceeds that. -/
theorem advance_lower
    (went : exec ((e.withLimit many).advance event level) course = (.ok (), next)) :
    exec ((e.withLimit few).advance event level) course = (.ok (), next) ∨
      ∃ stopped, exec ((e.withLimit few).advance event level) course =
        (.error (.cascadeLimit (level + 1) few.toNat), stopped) := by
  obtain ⟨d, turn, ran, -, rfl⟩ := advance_ok went
  rw [dispatchLoaded_withLimit] at ran
  rw [exec_advance, dispatchLoaded_withLimit, ran]
  by_cases beyond : (e.withLimit few).overruns level d = true
  · right
    simp [beyond, depthLimit_withLimit]
  · left
    simp [beyond, Course.next, Course.note, Course.await]

theorem advance_lower_exceeds (le : few ≤ many) {depth limit : Nat}
    (went : exec ((e.withLimit many).advance event level) course =
      (.error (.cascadeLimit depth limit), next)) :
    ∃ stopped, exec ((e.withLimit few).advance event level) course =
      (.error (.cascadeLimit (level + 1) few.toNat), stopped) := by
  rcases advance_error went with failed | ⟨d, turn, ran, follows, beyond, -⟩
  · exact absurd rfl (dispatchLoaded_fails _ _ _ _ failed depth limit)
  · rw [dispatchLoaded_withLimit, ← dispatchLoaded_withLimit e few] at ran
    rw [depthLimit_withLimit] at beyond
    have exceeds : (e.withLimit few).depthLimit ≤ level := by
      rw [depthLimit_withLimit]
      omega
    exact ⟨_, advance_of_overruns ran follows exceeds⟩

end

theorem Goes.raise (le : few ≤ many) {course next : Course}
    (goes : (e.withLimit few).Goes course next) : (e.withLimit many).Goes course next := by
  obtain ⟨waiting, went⟩ := goes
  exact .dispatch waiting (advance_raise le went)

theorem drain_raise (le : few ≤ many) {course last : Course}
    (ended : (e.withLimit few).drain course = (.ok (), last)) :
    (e.withLimit many).drain course = (.ok (), last) := by
  fun_induction Engine.drain (e.withLimit few) course with
  | case1 course empty =>
    rw [drain_nil _ empty]
    exact ended
  | case2 course event level rest waiting failure stopped went => cases ended
  | case3 course event level rest waiting _ next went ih =>
    rw [drain_cons _ waiting, advance_raise le went]
    exact ih ended

theorem drain_lower (le : few ≤ many) {course stopped : Course} {depth limit : Nat}
    (ended : (e.withLimit many).drain course = (.error (.cascadeLimit depth limit), stopped)) :
    ∃ level, ((e.withLimit few).drain course).1 = .error (.cascadeLimit level few.toNat) := by
  fun_induction Engine.drain (e.withLimit many) course with
  | case1 course empty => cases ended
  | case2 course event level rest waiting failure last went =>
    obtain rfl : failure = .cascadeLimit depth limit := Except.error.inj (Prod.mk.inj ended).1
    obtain ⟨left, exceeds⟩ := advance_lower_exceeds le went
    rw [drain_cons _ waiting, exceeds]
    exact ⟨_, rfl⟩
  | case3 course event level rest waiting _ next went ih =>
    rw [drain_cons _ waiting]
    rcases advance_lower few went with goes | ⟨left, exceeds⟩
    · rw [goes]
      exact ih ended
    · rw [exceeds]
      exact ⟨_, rfl⟩

variable {s t : Store} {roots : List Event}

theorem propagate_raise (le : few ≤ many) {c : Cascade}
    (ended : exec ((e.withLimit few).propagate roots) s = (.ok c, t)) :
    exec ((e.withLimit many).propagate roots) s = (.ok c, t) := by
  rw [exec_propagate] at ended ⊢
  cases drained : (e.withLimit few).drain (.start s roots) with
  | mk outcome last =>
    rw [drained] at ended
    cases outcome with
    | error failure => cases ended
    | ok _ =>
      rw [drain_raise le drained]
      exact ended

theorem depth_of_propagate_exceeds {depth limit : Nat}
    (failed : (exec (e.propagate roots) s).1 = .error (.cascadeLimit depth limit)) :
    depth = e.depthLimit + 1 := by
  obtain ⟨last, stopped, reached, stops⟩ := propagate_error_iff.mp failed
  obtain ⟨event, level, rest, waiting, went⟩ := stops.waits
  rcases advance_error went with inside | ⟨d, turn, -, -, beyond, same⟩
  · exact absurd rfl (dispatchLoaded_fails _ _ _ _ inside depth limit)
  · obtain ⟨rfl, -⟩ := Failure.cascadeLimit.inj same
    obtain ⟨levels, inv⟩ := Course.BreadthFirst.reaches reached
    have bounded : level ≤ e.depthLimit := by
      apply inv.layered.bounded
      simp [waiting]
    omega

theorem propagate_lower (le : few ≤ many) {depth limit : Nat}
    (failed : (exec ((e.withLimit many).propagate roots) s).1 =
      .error (.cascadeLimit depth limit)) :
    (exec ((e.withLimit few).propagate roots) s).1 =
      .error (.cascadeLimit (few.toNat + 1) few.toNat) := by
  have exceeded : ∃ level, (exec ((e.withLimit few).propagate roots) s).1 =
      .error (.cascadeLimit level few.toNat) := by
    rw [exec_propagate] at failed ⊢
    cases drained : (e.withLimit many).drain (.start s roots) with
    | mk outcome stopped =>
      rw [drained] at failed
      cases outcome with
      | ok _ => cases failed
      | error failure =>
        obtain rfl : failure = .cascadeLimit depth limit := Except.error.inj failed
        obtain ⟨level, ended⟩ := drain_lower le drained
        rw [ended]
        exact ⟨level, rfl⟩
  obtain ⟨level, ended⟩ := exceeded
  rw [ended, depth_of_propagate_exceeds ended, depthLimit_withLimit]

/-- Raising the depth limit changes no cascade that fits: all that the loop comes to under a limit
it comes to under a larger one; a cascade that succeeds gives the same dispatches, writes, deepest
level and store; and a cascade that exceeds the larger limit exceeds the smaller one. -/
theorem propagate_limits (e : Engine) (roots : List Event) (s : Store) {few many : Int}
    (le : few ≤ many) :
    (∀ course, (e.withLimit few).Reaches s roots course →
      (e.withLimit many).Reaches s roots course) ∧
    (∀ c t, exec ((e.withLimit few).propagate roots) s = (.ok c, t) →
      exec ((e.withLimit many).propagate roots) s = (.ok c, t)) ∧
    ∀ depth limit, (exec ((e.withLimit many).propagate roots) s).1 =
        .error (.cascadeLimit depth limit) →
      (exec ((e.withLimit few).propagate roots) s).1 =
        .error (.cascadeLimit (few.toNat + 1) few.toNat) := by
  refine ⟨?reaches, ?fits, ?exceeds⟩
  case reaches =>
    intro course reached
    induction reached with
    | refl => exact .refl
    | tail _ last ih => exact ih.tail (last.raise le)
  case fits =>
    intro c t ended
    exact propagate_raise le ended
  case exceeds =>
    intro depth limit failed
    exact propagate_lower le failed

def bells : Engine where
  rules := { reactions := [
    { schema := .text "Bell", event := .created, action := .custom (.text "chime") },
    { schema := .text "Bell", event := .modified, action := .custom (.text "echo") }] }
  actions := { actions := [
    (.text "chime", fun call => .done [.deleted call.event.object]),
    (.text "echo", fun call => .done [.modifiedOf call.event.object ["rung"]])] }

theorem propagate_limits_bells :
    let bell : Record := ⟨.text "Bell", .text "big", []⟩
    let rung := Event.modifiedOf bell ["rung"]
    (1 : Int) ≤ 2 ∧
      (∃ c t, c.maxDepth = 1 ∧
        exec ((bells.withLimit 1).propagate [.created bell]) {} = (.ok c, t) ∧
        exec ((bells.withLimit 2).propagate [.created bell]) {} = (.ok c, t)) ∧
      (exec ((bells.withLimit 2).propagate [rung]) {}).1 = .error (.cascadeLimit 3 2) ∧
      (exec ((bells.withLimit 1).propagate [rung]) {}).1 = .error (.cascadeLimit 2 1) := by
  intro bell rung
  have le : (1 : Int) ≤ 2 := by decide
  let low := bells.withLimit 1
  let high := bells.withLimit 2
  -- The chime is the only event that follows when the bell is hung.
  let hung := Course.start {} [.created bell]
  obtain ⟨chime, went, waiting, deepest⟩ : ∃ chime,
      exec (low.advance (.created bell) 0) { hung with queue := [] } = (.ok (), chime) ∧
        chime.queue = [(.deleted bell, 1)] ∧ chime.maxDepth = 0 := ⟨_, rfl, rfl, rfl⟩
  have idle : low.Idle (.deleted bell) := fun r candidate => by cases candidate
  have first : low.Goes hung chime := .dispatch rfl went
  obtain ⟨silence, second, ended, deep⟩ : ∃ silence, low.Goes chime silence ∧
      silence.queue = [] ∧ silence.maxDepth = 1 :=
    ⟨_, .dispatch waiting (idle.exec_advance 1 _), rfl, by rw [deepest]; rfl⟩
  have drained : low.drain hung = (.ok (), silence) := by
    rw [drain_of_goes first, drain_of_goes second]
    exact drain_nil _ ended
  have fits : exec (low.propagate [.created bell]) {} =
      (.ok silence.cascade, silence.turn.store) := by
    rw [exec_propagate, drained]
    rfl
  -- The echo comes back on each level, the last one included.
  have rings (course : Course) : ∃ d turn,
      exec (high.dispatchLoaded (course.place rung)) course.turn = (.ok d, turn) ∧
        d.followUps = [rung] := by
    rw [course.place_of_new rfl]
    exact ⟨_, _, rfl, rfl⟩
  have echoes {course : Course} {depth : Nat} (waiting : course.queue = [(rung, depth)])
      (shallow : depth < 2) :
      ∃ next, high.Goes course next ∧ next.queue = [(rung, depth + 1)] := by
    obtain ⟨d, turn, ran, followed⟩ := rings { course with queue := [] }
    have within : ¬high.overruns depth d = true := by
      rw [overruns_withLimit]
      exact fun beyond => Nat.not_lt.mpr beyond.2 shallow
    refine ⟨((Course.next { course with queue := [] } turn).note depth d).await depth d,
      .dispatch waiting ?_, ?_⟩
    · rw [exec_advance, ran]
      exact if_neg within
    · change List.map _ d.followUps = _
      rw [followed]
      rfl
  have exceeds : (exec (high.propagate [rung]) {}).1 = .error (.cascadeLimit 3 2) := by
    have struck : (Course.start {} [rung]).queue = [(rung, 0)] := rfl
    obtain ⟨echo, once, waiting⟩ := echoes struck (by decide)
    obtain ⟨again, twice, waiting⟩ := echoes waiting (by decide)
    obtain ⟨d, turn, ran, followed⟩ := rings { again with queue := [] }
    have follows : d.followUps ≠ [] := by
      rw [followed]
      exact List.cons_ne_nil _ _
    exact propagate_error_iff.mpr ⟨again, _, .tail (.single once) twice,
      .failed waiting (advance_of_overruns ran follows (Nat.le_refl 2))⟩
  obtain ⟨-, raised, -⟩ := bells.propagate_limits [.created bell] {} le
  obtain ⟨-, -, lowered⟩ := bells.propagate_limits [rung] {} le
  exact ⟨le, ⟨_, _, deep, fits, raised _ _ fits⟩, exceeds, lowered _ _ exceeds⟩

end Engine

end RecordRules
