import Mathlib.Data.List.Forall2
import RecordRules.Proofs.TargetSchemas

/-!
Acceptance of state rules: when an engine takes a rule in, and what it then is. Main statements: a
rule is accepted if it is admitted on its own and agrees with every rule that is there; a list of
rules is accepted if each is admitted, each agrees with those that were there, and any two agree.
-/
namespace RecordRules

open Step

namespace StateRule

/-- Two rules can stand beside each other: they do not contradict each other on any of the fields,
or they never hold together. -/
def Compatible (fields : List String) (r other : StateRule) : Prop :=
  r.effect.conflict? other.effect fields = none ∨
    Condition.exclusive r.conditions other.conditions = true

theorem checkContradictions_eq_ok {s : Schema} {others : List StateRule} {r : StateRule} :
    r.checkContradictions s others = .ok () ↔
      (r.effect.required && r.effect.hidden) = false ∧
        ∀ other ∈ others, Compatible s.fieldNames r other := by
  unfold checkContradictions
  by_cases own : (r.effect.required && r.effect.hidden) = true
  · simp only [own, ↓reduceIte, reduceCtorEq, Bool.true_eq_false, false_and]
  · rw [if_neg own, forM_eq_ok, Bool.not_eq_true] at *
    simp only [own, true_and]
    apply forall₂_congr
    intro other _
    unfold Compatible
    cases r.effect.conflict? other.effect s.fieldNames with
    | none => simp
    | some field =>
      by_cases exclusive : Condition.exclusive r.conditions other.conditions = true
      · simp [exclusive]
      · simp [exclusive]

theorem check_eq_ok {s : Schema} {others : List StateRule} {reject : Bool} {r : StateRule} :
    r.check s others reject = .ok () ↔ r.checkSubset s = .ok () ∧
      (reject = true → (r.effect.required && r.effect.hidden) = false ∧
        ∀ other ∈ others, Compatible s.fieldNames r other) := by
  rw [check, bind_eq_ok]
  constructor
  · rintro ⟨_, fitting, rest⟩
    refine ⟨fitting, fun wanted => ?_⟩
    rw [if_pos wanted] at rest
    exact checkContradictions_eq_ok.mp rest
  · rintro ⟨fitting, rest⟩
    refine ⟨(), fitting, ?_⟩
    split
    · rename_i wanted
      exact checkContradictions_eq_ok.mpr (rest wanted)
    · rfl

end StateRule

theorem RuleBook.addStateRule_eq_ok {b next : RuleBook} {c : Catalog} {r : StateRule} :
    b.addStateRule c r = .ok next ↔ b.frozen = false ∧ checkStateRule c r = .ok () ∧
      ∃ key, Key.ofValue r.schema = .ok key ∧ next = { b with
        stateRules := b.stateRules ++ [r]
        stateReaches := b.stateReaches.widen key r.paths } := by
  constructor
  · intro added
    obtain ⟨key, named, same⟩ := addStateRule_ok added
    rw [addStateRule] at added
    split at added
    · cases added
    · rename_i unfrozen
      obtain ⟨_, checked, -⟩ := bind_eq_ok.mp added
      exact ⟨Bool.not_eq_true _ ▸ unfrozen, checked, key, named, same⟩
  · rintro ⟨unfrozen, checked, key, named, rfl⟩
    simp only [addStateRule, unfrozen, checked, named, bind, Except.bind, pure, Except.pure,
      Bool.false_eq_true, ↓reduceIte]

namespace Engine

structure Admits (e : Engine) (definition : Value) (r : StateRule) : Prop where
  read : StateRule.ofValue definition = .ok r
  unfrozen : e.rules.frozen = false
  checked : RuleBook.checkStateRule e.catalog r = .ok ()
  fitting : ∃ key s, Key.ofValue r.schema = .ok key ∧ e.catalog.get? key = some s ∧
    r.checkSubset s = .ok ()
  consistent : e.settings.rejectContradictoryState = true →
    (r.effect.required && r.effect.hidden) = false

def Agree (e : Engine) (r other : StateRule) : Prop :=
  e.settings.rejectContradictoryState = true → ∀ key s, Key.ofValue r.schema = .ok key →
    e.catalog.get? key = some s → other.schema.names key = true → r.Compatible s.fieldNames other

structure Extends (e : Engine) (added : List StateRule) (next : Engine) : Prop where
  settings : next.settings = e.settings
  catalog : next.catalog = e.catalog
  frozen : next.rules.frozen = e.rules.frozen
  stateRules : next.rules.stateRules = e.rules.stateRules ++ added

variable {e next last : Engine} {definition : Value} {r other : StateRule}

theorem Extends.refl (e : Engine) : e.Extends [] e := ⟨rfl, rfl, rfl, (List.append_nil _).symm⟩

theorem Extends.trans {rs ts : List StateRule} (first : e.Extends rs next)
    (later : next.Extends ts last) : e.Extends (rs ++ ts) last where
  settings := later.settings.trans first.settings
  catalog := later.catalog.trans first.catalog
  frozen := later.frozen.trans first.frozen
  stateRules := by rw [later.stateRules, first.stateRules, List.append_assoc]

theorem Extends.admits_iff {rs : List StateRule} (step : e.Extends rs next) :
    next.Admits definition r ↔ e.Admits definition r := by
  constructor
  · rintro ⟨read, unfrozen, checked, fitting, consistent⟩
    rw [step.frozen] at unfrozen
    rw [step.catalog] at checked fitting
    rw [step.settings] at consistent
    exact ⟨read, unfrozen, checked, fitting, consistent⟩
  · rintro ⟨read, unfrozen, checked, fitting, consistent⟩
    rw [← step.frozen] at unfrozen
    rw [← step.catalog] at checked fitting
    rw [← step.settings] at consistent
    exact ⟨read, unfrozen, checked, fitting, consistent⟩

theorem Extends.agree_iff {rs : List StateRule} (step : e.Extends rs next) :
    next.Agree r other ↔ e.Agree r other := by
  unfold Agree
  rw [step.settings, step.catalog]

theorem requireSchema_eq_ok {c : Catalog} {name : Value} {s : Schema} :
    RuleBook.requireSchema c name = .ok s ↔
      ∃ key, Key.ofValue name = .ok key ∧ c.get? key = some s := by
  unfold RuleBook.requireSchema Catalog.named?
  cases Key.ofValue name with
  | error failure => simp [bind, Except.bind]
  | ok key =>
    cases found : c.get? key with
    | none =>
      simp [bind, Except.bind, pure, Except.pure, found, throw, throwThe, MonadExceptOf.throw]
    | some t => simp [bind, Except.bind, pure, Except.pure, found]

theorem addStateRule_eq_ok : exec (addStateRule definition) e = (.ok r, next) ↔
    StateRule.ofValue definition = .ok r ∧ ∃ s key rules,
      Key.ofValue r.schema = .ok key ∧ e.catalog.get? key = some s ∧
      r.check s (e.rules.stateRulesFor key) e.settings.rejectContradictoryState = .ok () ∧
      e.rules.addStateRule e.catalog r = .ok rules ∧ next = { e with rules } := by
  unfold addStateRule
  constructor
  · intro ran
    obtain ⟨given, _, read, ran⟩ := exec_bind_eq_ok.mp ran
    rw [exec_ofExcept, Prod.mk.injEq] at read
    obtain ⟨read, rfl⟩ := read
    obtain ⟨_, _, got, ran⟩ := exec_bind_eq_ok.mp ran
    cases got
    obtain ⟨rules, _, decided, ran⟩ := exec_bind_eq_ok.mp ran
    rw [exec_ofExcept, Prod.mk.injEq] at decided
    obtain ⟨decided, rfl⟩ := decided
    cases ran
    obtain ⟨s, found, decided⟩ := bind_eq_ok.mp decided
    obtain ⟨key, named, found⟩ := requireSchema_eq_ok.mp found
    obtain ⟨_, named', decided⟩ := bind_eq_ok.mp decided
    obtain rfl := Except.ok.inj (named.symm.trans named')
    obtain ⟨_, compatible, added⟩ := bind_eq_ok.mp decided
    exact ⟨read, s, key, rules, named, found, compatible, added, rfl⟩
  · rintro ⟨read, s, key, rules, named, found, compatible, added, rfl⟩
    rw [exec_bind, exec_ofExcept, read]
    simp only [exec_bind, exec_get, exec_ofExcept, exec_set, exec_pure]
    rw [requireSchema_eq_ok.mpr ⟨key, named, found⟩, named]
    simp only [bind, Except.bind, compatible, added]

/-- What is accepted was admitted and agrees with every rule that is there. -/
theorem addStateRule_accepted (ran : exec (addStateRule definition) e = (.ok r, next)) :
    e.Admits definition r ∧ (∀ other ∈ e.rules.stateRules, e.Agree r other) ∧
      e.Extends [r] next := by
  obtain ⟨read, s, key, rules, named, found, compatible, added, rfl⟩ := addStateRule_eq_ok.mp ran
  obtain ⟨fitting, compatible⟩ := StateRule.check_eq_ok.mp compatible
  obtain ⟨unfrozen, checked, _, -, rfl⟩ := RuleBook.addStateRule_eq_ok.mp added
  refine ⟨⟨read, unfrozen, checked, ⟨key, s, named, found, fitting⟩, ?_⟩, ?_, rfl, rfl, rfl, rfl⟩
  · exact fun wanted => (compatible wanted).1
  · intro other listed wanted key' s' named' found' sameSchema
    obtain rfl : key = key' := Except.ok.inj (named.symm.trans named')
    obtain rfl : s = s' := Option.some.inj (found.symm.trans found')
    exact (compatible wanted).2 other (List.mem_filter.mpr ⟨listed, sameSchema⟩)

theorem addStateRule_accepts (admitted : e.Admits definition r)
    (agreed : ∀ other ∈ e.rules.stateRules, e.Agree r other) :
    ∃ next, exec (addStateRule definition) e = (.ok r, next) := by
  obtain ⟨key, s, named, found, fitting⟩ := admitted.fitting
  have compatible : r.check s (e.rules.stateRulesFor key)
      e.settings.rejectContradictoryState = .ok () := by
    apply StateRule.check_eq_ok.mpr
    refine ⟨fitting, fun wanted => ⟨admitted.consistent wanted, ?_⟩⟩
    intro other listed
    obtain ⟨listed, sameSchema⟩ := List.mem_filter.mp listed
    exact agreed other listed wanted key s named found sameSchema
  have added := RuleBook.addStateRule_eq_ok.mpr
    ⟨admitted.unfrozen, admitted.checked, key, named, rfl⟩
  exact ⟨_, addStateRule_eq_ok.mpr
    ⟨admitted.read, s, key, _, named, found, compatible, added, rfl⟩⟩

section

variable {definitions : List Value} {rules : List StateRule}

theorem addStateRules_accepted (ran : exec (definitions.mapM addStateRule) e = (.ok rules, next)) :
    List.Forall₂ e.Admits definitions rules ∧
      (∀ r ∈ rules, ∀ other ∈ e.rules.stateRules, e.Agree r other) ∧
      rules.Pairwise (fun earlier later => e.Agree later earlier) ∧ e.Extends rules next := by
  induction definitions generalizing e rules with
  | nil =>
    cases ran
    exact ⟨.nil, fun _ none => absurd none List.not_mem_nil, .nil, .refl _⟩
  | cons definition rest ih =>
    rw [List.mapM_cons] at ran
    obtain ⟨r, middle, first, ran⟩ := exec_bind_eq_ok.mp ran
    obtain ⟨others, _, later, ran⟩ := exec_bind_eq_ok.mp ran
    cases ran
    obtain ⟨admitted, agreed, step⟩ := addStateRule_accepted first
    obtain ⟨each, before, among, steps⟩ := ih later
    have stood : ∀ later ∈ others, ∀ other ∈ e.rules.stateRules ++ [r], e.Agree later other := by
      intro later member other listed
      rw [← step.stateRules] at listed
      exact step.agree_iff.mp (before later member other listed)
    refine ⟨.cons admitted (each.imp fun _ _ => step.admits_iff.mp), ?_, ?_, step.trans steps⟩
    · intro later member other listed
      rcases List.mem_cons.mp member with rfl | member
      · exact agreed other listed
      · exact stood later member other (List.mem_append_left _ listed)
    · apply List.pairwise_cons.mpr
      exact ⟨fun later member => stood later member r (List.mem_append_right _ List.mem_cons_self),
        among.imp step.agree_iff.mp⟩

theorem addStateRules_accepts (admitted : List.Forall₂ e.Admits definitions rules)
    (agreed : ∀ r ∈ rules, ∀ other ∈ e.rules.stateRules, e.Agree r other)
    (among : rules.Pairwise fun earlier later => e.Agree later earlier) :
    ∃ next, exec (definitions.mapM addStateRule) e = (.ok rules, next) := by
  induction definitions generalizing e rules with
  | nil =>
    cases admitted
    exact ⟨e, rfl⟩
  | cons definition rest ih =>
    obtain ⟨r, others, first, each, rfl⟩ := List.forall₂_cons_left_iff.mp admitted
    obtain ⟨here, later⟩ := List.forall_mem_cons.mp agreed
    obtain ⟨apart, among⟩ := List.pairwise_cons.mp among
    obtain ⟨middle, ran⟩ := addStateRule_accepts first here
    obtain ⟨-, -, step⟩ := addStateRule_accepted ran
    have stood : ∀ t ∈ others, ∀ other ∈ middle.rules.stateRules, middle.Agree t other := by
      intro t member other listed
      rw [step.stateRules, List.mem_append, List.mem_singleton] at listed
      apply step.agree_iff.mpr
      rcases listed with old | rfl
      · exact later t member other old
      · exact apart t member
    obtain ⟨next, ran'⟩ := ih (each.imp fun _ _ => step.admits_iff.mpr) stood
      (among.imp step.agree_iff.mpr)
    refine ⟨next, ?_⟩
    rw [List.mapM_cons]
    exact exec_bind_eq_ok.mpr ⟨r, middle, ran, exec_bind_eq_ok.mpr ⟨others, next, ran', rfl⟩⟩

end

end Engine

end RecordRules
