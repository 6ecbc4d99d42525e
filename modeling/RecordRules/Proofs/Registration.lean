import RecordRules.Proofs.Reach
import RecordRules.Engine.Basic

/-!
Registration: what holds of every rule book that was filled by adding rules. Main statement: the
reach noted for a kind of event, or for a schema, is at all times the reach of all paths of the
rules that are there for it. The books of engines are filled in this way.
-/
namespace RecordRules

namespace Value

theorem same_toValue (a b : Key) : a.toValue.same b.toValue = (a == b) := by
  cases a <;> cases b <;> simp [Key.toValue, same, number?, BEq.beq, Key.same, Key.number?]

theorem names_of_key {v : Value} {key : Key} (h : Key.ofValue v = .ok key) (other : Key) :
    v.names other = (key == other) := by
  rw [Key.ofValue] at h
  cases found : v.key? with
  | none => simp [found] at h
  | some given =>
    obtain rfl : given = key := by simpa [found] using h
    rw [names, ← toValue_of_key? found, same_toValue]

end Value

namespace RuleBook

inductive Registered : RuleBook → Prop where
  | empty : Registered {}
  | reaction {b next : RuleBook} {c : Catalog} {r : Reaction} (before : Registered b)
      (added : b.addReaction c r = .ok next) : Registered next
  | stateRule {b next : RuleBook} {c : Catalog} {r : StateRule} (before : Registered b)
      (added : b.addStateRule c r = .ok next) : Registered next
  | freeze {b : RuleBook} (before : Registered b) : Registered { b with frozen := true }

theorem addReaction_ok {b next : RuleBook} {c : Catalog} {r : Reaction}
    (added : b.addReaction c r = .ok next) :
    ∃ schema, Key.ofValue r.schema = .ok schema ∧
      next = { b with
        reactions := b.reactions ++ [r]
        reactionReaches := b.reactionReaches.widen (schema, r.event) r.paths } := by
  rw [addReaction] at added
  split at added
  · cases added
  · obtain ⟨_, -, added⟩ := bind_eq_ok.mp added
    obtain ⟨schema, named, added⟩ := bind_eq_ok.mp added
    exact ⟨schema, named, (Except.ok.inj added).symm⟩

theorem addStateRule_ok {b next : RuleBook} {c : Catalog} {r : StateRule}
    (added : b.addStateRule c r = .ok next) :
    ∃ schema, Key.ofValue r.schema = .ok schema ∧
      next = { b with
        stateRules := b.stateRules ++ [r]
        stateReaches := b.stateReaches.widen schema r.paths } := by
  rw [addStateRule] at added
  split at added
  · cases added
  · obtain ⟨_, -, added⟩ := bind_eq_ok.mp added
    obtain ⟨schema, named, added⟩ := bind_eq_ok.mp added
    exact ⟨schema, named, (Except.ok.inj added).symm⟩

/-- What is noted about the reach of rules is the reach of all their paths. -/
structure Summarized (b : RuleBook) : Prop where
  reactions : ∀ schema kind, b.reactionReach schema kind =
    Reach.ofPaths ((b.reactionsFor schema kind).flatMap Reaction.paths)
  stateRules : ∀ schema, b.stateReach schema =
    Reach.ofPaths ((b.stateRulesFor schema).flatMap StateRule.paths)

theorem reachOf_widen_paths {ρ κ : Type} [BEq κ] [EquivBEq κ] {table : ReachTable κ}
    {rules : List ρ} {r : ρ} {isFor : ρ → Bool} {paths : ρ → List Path} {key other : κ}
    (same : isFor r = (key == other))
    (before : table.reachOf other = Reach.ofPaths ((rules.filter isFor).flatMap paths)) :
    (table.widen key (paths r)).reachOf other =
      Reach.ofPaths (((rules ++ [r]).filter isFor).flatMap paths) := by
  rw [ReachTable.reachOf_widen, before, ← same, List.filter_append, List.flatMap_append,
    Reach.ofPaths_append]
  cases wanted : isFor r with
  | true => simp [wanted]
  | false => simp [wanted, Reach.join_empty]

theorem Summarized.addReaction {b next : RuleBook} {c : Catalog} {r : Reaction}
    (summarized : b.Summarized) (added : b.addReaction c r = .ok next) : next.Summarized := by
  obtain ⟨name, named, rfl⟩ := addReaction_ok added
  refine ⟨fun schema kind => ?_, summarized.stateRules⟩
  refine reachOf_widen_paths ?_ (summarized.reactions schema kind)
  rw [Value.names_of_key named]
  rfl

theorem Summarized.addStateRule {b next : RuleBook} {c : Catalog} {r : StateRule}
    (summarized : b.Summarized) (added : b.addStateRule c r = .ok next) : next.Summarized := by
  obtain ⟨name, named, rfl⟩ := addStateRule_ok added
  refine ⟨summarized.reactions, fun schema => ?_⟩
  exact reachOf_widen_paths (Value.names_of_key named schema) (summarized.stateRules schema)

theorem Registered.summarized {b : RuleBook} (registered : b.Registered) : b.Summarized := by
  induction registered with
  | empty => exact ⟨fun _ _ => rfl, fun _ => rfl⟩
  | reaction _ added ih => exact ih.addReaction added
  | stateRule _ added ih => exact ih.addStateRule added
  | freeze _ ih => exact ⟨ih.reactions, ih.stateRules⟩

end RuleBook

namespace Engine

open Step

variable {e : Engine}

theorem addReaction_registered (registered : e.rules.Registered) (definition : Value) :
    (exec (addReaction definition) e).2.rules.Registered := by
  rw [addReaction, exec_bind, exec_ofExcept]
  cases onObject Reaction.ofValue definition with
  | error failure => exact registered
  | ok r =>
    simp only [exec_bind, exec_get, exec_ofExcept]
    cases added : e.rules.addReaction e.catalog r with
    | error failure => exact registered
    | ok rules => exact .reaction registered added

theorem addStateRule_registered (registered : e.rules.Registered) (definition : Value) :
    (exec (addStateRule definition) e).2.rules.Registered := by
  rw [addStateRule, exec_bind, exec_ofExcept]
  cases StateRule.ofValue definition with
  | error failure => exact registered
  | ok r =>
    simp only [exec_bind, exec_get, exec_ofExcept]
    split
    · rename_i rules after ran
      obtain ⟨accepted, rfl⟩ := Prod.mk.inj ran
      obtain ⟨s, -, accepted⟩ := bind_eq_ok.mp accepted
      obtain ⟨key, -, accepted⟩ := bind_eq_ok.mp accepted
      obtain ⟨_, -, added⟩ := bind_eq_ok.mp accepted
      exact .stateRule registered added
    · rename_i failure after refused
      obtain ⟨-, rfl⟩ := Prod.mk.inj refused
      exact registered

end Engine

end RecordRules
