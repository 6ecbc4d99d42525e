import RecordRules.Proofs.IdleEvents

/-!
Engines without reactions. Every event is idle in them: their cascades dispatch the events that they
start from, and nothing follows: no cascade fails, and each leaves the store just as it was, without
a trace.
-/
namespace RecordRules

open Step

namespace Engine

variable {e : Engine}

section

variable (quiet : e.rules.reactions = [])

include quiet

theorem reactionsFor_quiet (schema : Key) (kind : EventKind) :
    e.rules.reactionsFor schema kind = [] := by
  unfold RuleBook.reactionsFor
  rw [quiet, List.filter_nil]

theorem idle_of_quiet (event : Event) : e.Idle event := by
  intro r candidate
  rw [reactionsFor_quiet quiet] at candidate
  cases candidate

theorem exec_dispatchLoaded_quiet (event : Event) (turn : Turn) :
    exec (e.dispatchLoaded event) turn =
      (.ok ⟨event, [], [], []⟩, { turn with followUps := [] }) := by
  rw [(idle_of_quiet quiet event).exec_dispatchLoaded, Idle.noted, reactionsFor_quiet quiet]
  rfl

/-- Without reactions, a cascade succeeds and leaves the store as it is. -/
theorem propagate_quiet (roots : List Event) (s : Store) :
    ∃ c, exec (e.propagate roots) s = (.ok c, s) := by
  obtain ⟨c, ended, -⟩ := propagate_idle (fun event _ => idle_of_quiet quiet event) s
  exact ⟨c, ended⟩

end

end Engine

end RecordRules
