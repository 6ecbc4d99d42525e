import RecordRules.Proofs.RowProperties
import RecordRules.Proofs.RuleAcceptance

/-!
Engines without reactions in use: definitions are added, and hosts make calls, in any order. What
has been added fits together at all times: what refers to other records names them by a key, and no
alias of a child is the name of a field.
-/
namespace RecordRules

open Step

namespace Catalog

variable {c next : Catalog} {s : Schema}

theorem of_addEdges_ok {child : Key} {fields : List Field}
    (ran : exec (addEdges child fields) c = (.ok (), next)) :
    ∀ f ∈ fields, ∃ parent, Key.ofValue f.refer = .ok parent := by
  induction fields generalizing c with
  | nil => exact fun f listed => by cases listed
  | cons f rest ih =>
    rw [addEdges] at ran
    obtain ⟨parent, named, ran⟩ := exec_ofExcept_bind_eq_ok.mp ran
    obtain ⟨_, _, _, later⟩ := exec_bind_eq_ok.mp ran
    exact List.forall_mem_cons.mpr ⟨⟨parent, named⟩, ih later⟩

theorem of_register_ok (ran : exec (register s) c = (.ok (), next)) :
    (∃ name, Key.ofValue s.name = .ok name ∧ next.schemas = c.schemas ++ [(name, s)]) ∧
      ∀ f ∈ s.referFields, ∃ parent, Key.ofValue f.refer = .ok parent := by
  rw [register, exec_bind, exec_get] at ran
  dsimp only at ran
  split at ran
  · cases ran
  · obtain ⟨name, named, ran⟩ := exec_ofExcept_bind_eq_ok.mp ran
    split at ran
    · cases ran
    · obtain ⟨_, added, stored, linked⟩ := exec_bind_eq_ok.mp ran
      obtain ⟨-, rfl⟩ := Prod.mk.inj stored
      have same := addEdges_moves name s.referFields { c with schemas := c.schemas ++ [(name, s)] }
      rw [linked] at same
      exact ⟨⟨name, named, same⟩, of_addEdges_ok linked⟩

def Grows (c next : Catalog) : Prop := ∀ key s, c.get? key = some s → next.get? key = some s

theorem grows_of_append {more : Keyed Key Schema} (added : next.schemas = c.schemas ++ more) :
    c.Grows next := by
  intro key s found
  unfold get? at found ⊢
  rw [added, Keyed.find?_append, found]
  rfl

theorem grows_register (s : Schema) (c : Catalog) : c.Grows (exec (register s) c).2 := by
  rcases register_schemas s c with same | ⟨name, -, more⟩
  · exact grows_of_append (same.trans (List.append_nil _).symm)
  · exact grows_of_append more

theorem grows_freeze (c : Catalog) : c.Grows (exec freeze c).2 :=
  grows_of_append ((show _ = c.schemas from freeze_moves c).trans (List.append_nil _).symm)

/-- The aliases of an augmentation are no fields of its schema. -/
def Separates (c : Catalog) (a : Augmentation) : Prop :=
  ∃ key s, Key.ofValue a.schema = .ok key ∧ c.get? key = some s ∧
    ∀ r ∈ a.children, s.declaresNamed r.key = false

theorem Separates.mono (grows : c.Grows next) {a : Augmentation} (separates : c.Separates a) :
    next.Separates a := by
  obtain ⟨key, s, named, found, apart⟩ := separates
  exact ⟨key, s, named, grows key s found, apart⟩

end Catalog

namespace ContractBook

variable {b next : ContractBook} {c : Catalog} {a : Augmentation}

theorem apart_of_checkChild {s : Schema} {r : ChildRequirement}
    (checked : checkChild c a s r = .ok ()) : s.declaresNamed r.key = false := by
  unfold checkChild at checked
  obtain ⟨found, named, checked⟩ := bind_eq_ok.mp checked
  cases found with
  | none => cases checked
  | some child =>
    dsimp only at checked
    split at checked
    · cases checked
    · split at checked
      · cases checked
      · rename_i apart
        exact Bool.not_eq_true _ ▸ apart

theorem separates_of_check (checked : checkAugmentation c a = .ok ()) : c.Separates a := by
  unfold checkAugmentation at checked
  obtain ⟨found, named, checked⟩ := bind_eq_ok.mp checked
  obtain ⟨key, given, looked⟩ := bind_eq_ok.mp named
  obtain rfl := Except.ok.inj looked
  cases present : c.get? key with
  | none =>
    rw [present] at checked
    cases checked
  | some s =>
    rw [present] at checked
    dsimp only at checked
    split at checked
    · cases checked
    · refine ⟨key, s, given, present, fun r listed => ?_⟩
      exact apart_of_checkChild (forM_eq_ok.mp checked r listed)

theorem of_add_ok (added : b.add c a = .ok next) :
    checkAugmentation c a = .ok () ∧ next.augmentations = b.augmentations ++ [a] := by
  unfold add at added
  split at added
  · cases added
  · obtain ⟨key, named, added⟩ := bind_eq_ok.mp added
    split at added
    · cases added
    · obtain ⟨_, checked, added⟩ := bind_eq_ok.mp added
      obtain rfl := Except.ok.inj added
      exact ⟨checked, rfl⟩

end ContractBook

namespace Engine

structure Built (e : Engine) : Prop where
  quiet : e.rules.reactions = []
  rules : e.rules.Registered
  catalog : e.catalog.Registered
  references : ∀ key s, (key, s) ∈ e.catalog.schemas → ∀ f ∈ s.referFields,
    ∃ parent, Key.ofValue f.refer = .ok parent
  aliases : ∀ a ∈ e.contracts.augmentations, e.catalog.Separates a

/-- Engines in use, without reactions: definitions are added, registration is ended, and hosts make
calls, which may fail. -/
inductive Runs : Engine → Store → Prop where
  | start (settings : Settings) : Runs { settings } {}
  | schema {e next : Engine} {s : Store} {definition : Value} {added : Schema} (before : Runs e s)
      (ran : exec (addSchema definition) e = (.ok added, next)) : Runs next s
  | stateRule {e next : Engine} {s : Store} {definition : Value} {added : StateRule}
      (before : Runs e s) (ran : exec (addStateRule definition) e = (.ok added, next)) :
      Runs next s
  | augmentation {e next : Engine} {s : Store} {definition : Value} {added : Augmentation}
      (before : Runs e s) (ran : exec (addAugmentation definition) e = (.ok added, next)) :
      Runs next s
  | action {e next : Engine} {s : Store} {name : Value} {added : Option ActionFn}
      (before : Runs e s) (ran : exec (addAction name added) e = (.ok (), next)) : Runs next s
  | freeze {e next : Engine} {s : Store} {fingerprint : String} (before : Runs e s)
      (ran : exec Engine.freeze e = (.ok fingerprint, next)) : Runs next s
  | call {e : Engine} {s : Store} {call : HostCall} (before : Runs e s)
      (proper : call.isProper = true) : Runs e (exec (e.perform call) s).2

variable {e next : Engine}

theorem addSchema_ok {definition : Value} {s : Schema}
    (ran : exec (addSchema definition) e = (.ok s, next)) :
    s.Checked ∧ ∃ catalog, exec (Catalog.register s) e.catalog = (.ok (), catalog) ∧
      next = { e with catalog } := by
  unfold addSchema at ran
  obtain ⟨given, read, ran⟩ := exec_ofExcept_bind_eq_ok.mp ran
  obtain ⟨_, _, registered, answered⟩ := exec_bind_eq_ok.mp ran
  obtain ⟨outcome, rfl⟩ := Prod.mk.inj answered
  obtain rfl := Except.ok.inj outcome
  rw [exec_within] at registered
  obtain ⟨registered, same⟩ := Prod.mk.inj registered
  exact ⟨.of_ofValue read, _, Prod.ext registered rfl, same.symm⟩

theorem addAugmentation_ok {definition : Value} {a : Augmentation}
    (ran : exec (addAugmentation definition) e = (.ok a, next)) :
    ∃ contracts, e.contracts.add e.catalog a = .ok contracts ∧ next = { e with contracts } := by
  unfold addAugmentation at ran
  obtain ⟨given, read, ran⟩ := exec_ofExcept_bind_eq_ok.mp ran
  rw [exec_bind, exec_get] at ran
  obtain ⟨contracts, added, ran⟩ := exec_ofExcept_bind_eq_ok.mp ran
  obtain ⟨outcome, rfl⟩ := Prod.mk.inj ran
  obtain rfl := Except.ok.inj outcome
  exact ⟨contracts, added, rfl⟩

theorem addAction_ok {name : Value} {action : Option ActionFn}
    (ran : exec (addAction name action) e = (.ok (), next)) :
    ∃ actions, next = { e with actions } := by
  unfold addAction at ran
  rw [exec_bind, exec_get] at ran
  obtain ⟨actions, added, ran⟩ := exec_ofExcept_bind_eq_ok.mp ran
  exact ⟨actions, (Prod.mk.inj ran).2.symm⟩

namespace Built

theorem start (settings : Settings) : Built { settings } where
  quiet := rfl
  rules := .empty
  catalog := .empty
  references _ _ listed := by cases listed
  aliases _ listed := by cases listed

theorem addSchema (built : e.Built) {definition : Value} {s : Schema}
    (ran : exec (Engine.addSchema definition) e = (.ok s, next)) :
    next.Built ∧ e.catalog.Grows next.catalog := by
  obtain ⟨checked, catalog, registered, rfl⟩ := addSchema_ok ran
  obtain ⟨⟨name, named, schemas⟩, refers⟩ := Catalog.of_register_ok registered
  have grows : e.catalog.Grows catalog := Catalog.grows_of_append schemas
  have known : catalog.Registered := by
    have kept := Catalog.Registered.register built.catalog checked
    rwa [registered] at kept
  refine ⟨⟨built.quiet, built.rules, known, ?_, ?_⟩, grows⟩
  · intro key t listed f inside
    rw [schemas] at listed
    rcases List.mem_append.mp listed with old | new
    · exact built.references key t old f inside
    · cases List.mem_singleton.mp new
      exact refers f inside
  · exact fun a listed => (built.aliases a listed).mono grows

theorem addStateRule (built : e.Built) {definition : Value} {r : StateRule}
    (ran : exec (Engine.addStateRule definition) e = (.ok r, next)) :
    next.Built ∧ next.catalog = e.catalog := by
  obtain ⟨-, s, key, rules, -, -, -, added, rfl⟩ := addStateRule_eq_ok.mp ran
  refine ⟨⟨?_, .stateRule built.rules added, built.catalog, built.references, built.aliases⟩, rfl⟩
  obtain ⟨_, -, rfl⟩ := RuleBook.addStateRule_ok added
  exact built.quiet

theorem addAugmentation (built : e.Built) {definition : Value} {a : Augmentation}
    (ran : exec (Engine.addAugmentation definition) e = (.ok a, next)) :
    next.Built ∧ next.catalog = e.catalog := by
  obtain ⟨contracts, added, rfl⟩ := addAugmentation_ok ran
  obtain ⟨checked, more⟩ := ContractBook.of_add_ok added
  refine ⟨⟨built.quiet, built.rules, built.catalog, built.references, ?_⟩, rfl⟩
  intro other listed
  rw [more] at listed
  rcases List.mem_append.mp listed with old | new
  · exact built.aliases other old
  · rw [List.mem_singleton.mp new]
    exact ContractBook.separates_of_check checked

theorem freezeCatalog (built : e.Built) :
    (exec Engine.freezeCatalog e).2.Built ∧
      (exec Engine.freezeCatalog e).2.catalog.schemas = e.catalog.schemas := by
  unfold Engine.freezeCatalog
  rw [exec_bind, exec_get]
  dsimp only
  cases e.catalog.fingerprint with
  | some fingerprint => exact ⟨built, rfl⟩
  | none =>
    rw [exec_within]
    have same : (exec Catalog.freeze e.catalog).2.schemas = e.catalog.schemas :=
      Catalog.freeze_moves e.catalog
    have grows := Catalog.grows_freeze e.catalog
    refine ⟨⟨built.quiet, built.rules, .freeze built.catalog, ?_, ?_⟩, same⟩
    · intro key s listed
      exact built.references key s (same ▸ listed)
    · exact fun a listed => (built.aliases a listed).mono grows

theorem freeze (built : e.Built) {fingerprint : String}
    (ran : exec Engine.freeze e = (.ok fingerprint, next)) :
    next.Built ∧ next.catalog.schemas = e.catalog.schemas := by
  unfold Engine.freeze at ran
  rw [exec_bind, exec_get] at ran
  obtain ⟨obstacles, -, ran⟩ := exec_ofExcept_bind_eq_ok.mp ran
  dsimp only at ran
  split at ran
  · cases ran
  · obtain ⟨_, frozen, catalog, ran⟩ := exec_bind_eq_ok.mp ran
    have kept := freezeCatalog built
    rw [catalog] at kept
    obtain ⟨kept, same⟩ := kept
    obtain ⟨-, rfl⟩ := Prod.mk.inj ran
    exact ⟨⟨kept.quiet, .freeze kept.rules, kept.catalog, kept.references, kept.aliases⟩, same⟩

end Built

end Engine

end RecordRules
