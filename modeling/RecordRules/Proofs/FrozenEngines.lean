import RecordRules.Engine.View
import RecordRules.Proofs.FailedRegistrations
import RecordRules.Proofs.KnownActions
import RecordRules.Proofs.RuleAcceptance

/-!
Engines that are frozen. Whatever came before, registrations that failed and parts that were frozen
on their own included, from then on nothing can be added any more and the engine stays as it is. All
that its schemas refer to and all actions that its reactions name are there.
-/
namespace RecordRules

open Step

inductive EnginePart where
  | catalog
  | rules
  | actions
  | contracts

theorem Step.exec_ignore_snd {σ α : Type} (step : Step σ α) (s : σ) :
    (exec (step >>= fun _ => (pure () : Step σ Unit)) s).2 = (exec step s).2 := by
  rw [exec_bind]
  cases exec step s with
  | mk outcome t => cases outcome <;> rfl

theorem Step.Clean.refuses {σ α : Type} {step : Step σ α} (clean : Clean step) {s : σ}
    (never : ∀ x t, exec step s ≠ (.ok x, t)) : ∃ failure, exec step s = (.error failure, s) := by
  cases ran : exec step s with
  | mk outcome t =>
    cases outcome with
    | ok x => exact absurd ran (never x t)
    | error failure => exact ⟨failure, by rw [clean s failure t ran]⟩

namespace Catalog

def stamp (c : Catalog) : Except Failure String :=
  match c.fingerprint with
  | some fingerprint => .ok fingerprint
  | none => c.computeFingerprint

/-- A fingerprint that is there is that of the schemas. -/
def Stamped (c : Catalog) : Prop :=
  ∀ fingerprint, c.fingerprint = some fingerprint → c.computeFingerprint = .ok fingerprint

def stampedWith (c : Catalog) (fingerprint : String) : Catalog :=
  { c with fingerprint := some fingerprint }

variable {c : Catalog}

theorem Stamped.stamp (stamped : c.Stamped) : c.stamp = c.computeFingerprint := by
  unfold Catalog.stamp
  cases given : c.fingerprint with
  | none => rfl
  | some fingerprint => exact (stamped fingerprint given).symm

theorem stamped_stampedWith {fingerprint : String}
    (computed : c.computeFingerprint = .ok fingerprint) : (c.stampedWith fingerprint).Stamped := by
  rintro _ ⟨⟩
  exact computed

theorem exec_freeze (c : Catalog) : exec freeze c =
    if c.frozen then (.error (.frozen .catalog), c)
    else match c.computeFingerprint with
      | .error failure => (.error failure, c)
      | .ok fingerprint => (.ok fingerprint, c.stampedWith fingerprint) := by
  rw [freeze, exec_bind, exec_get]
  dsimp only
  split
  · rfl
  · rw [exec_bind, exec_ofExcept]
    cases c.computeFingerprint with
    | error failure => rfl
    | ok fingerprint => rfl

theorem Stamped.freeze (stamped : c.Stamped) : (exec Catalog.freeze c).2.Stamped := by
  rw [exec_freeze]
  split
  · exact stamped
  · split
    · exact stamped
    · rename_i fingerprint computed
      exact stamped_stampedWith computed

theorem addEdges_fingerprint (child : Key) (fields : List Field) :
    Moves (fun c next : Catalog => next.fingerprint = c.fingerprint) (addEdges child fields) := by
  have : IsPreorder Catalog fun c next => next.fingerprint = c.fingerprint :=
    { refl := fun _ => rfl, trans := fun _ _ _ first later => later.trans first }
  induction fields with
  | nil => exact moves_pure ()
  | cons f rest ih =>
    exact moves_bind (moves_ofExcept _) fun _ => moves_bind (moves_modify fun _ => rfl) fun _ => ih

theorem Stamped.register (stamped : c.Stamped) (s : Schema) :
    (exec (Catalog.register s) c).2.Stamped := by
  by_cases received : ∃ key, c.Receives s key
  · obtain ⟨key, receives⟩ := received
    have bare : c.fingerprint = none := Option.isNone_iff_eq_none.mp (by
      simpa [frozen] using receives.unfrozen)
    intro fingerprint given
    rw [receives.register, addEdges_fingerprint, bare] at given
    cases given
  · obtain ⟨failure, refused⟩ :=
      register_of_not_receives (s := s) fun key receives => received ⟨key, receives⟩
    rwa [refused]

end Catalog

theorem RuleBook.eq_nil_of_sortNames {names : List Key} (sorted : sortNames names = .ok []) :
    names = [] := by
  unfold sortNames Value.sorted? at sorted
  split at sorted
  · have empty : Value.sorted (names.map Key.toValue) = [] := Except.ok.inj sorted
    have perm := Text.perm_sortBy (fun a b => !b.isLess a) (names.map Key.toValue)
    rw [show Text.sortBy _ _ = [] from empty] at perm
    exact List.map_eq_nil_iff.mp perm.symm.eq_nil
  · cases sorted

namespace Engine

def freezePart : EnginePart → Step Engine Unit
  | .catalog => do
    let _ ← Step.within Engine.catalog (fun e catalog => { e with catalog }) Catalog.freeze
  | .rules => freezeRules
  | .actions => freezeActions
  | .contracts => freezeContracts

def frozenWith (e : Engine) (fingerprint : String) : Engine where
  settings := e.settings
  catalog := e.catalog.stampedWith fingerprint
  rules := { e.rules with frozen := true }
  actions := { e.actions with frozen := true }
  contracts := { e.contracts with frozen := true }
  fingerprint := some fingerprint

variable {e next : Engine} {fingerprint : String}

theorem exec_freezeCatalog (e : Engine) : exec freezeCatalog e = match e.catalog.stamp with
    | .error failure => (.error failure, e)
    | .ok fingerprint => (.ok fingerprint, { e with catalog := e.catalog.stampedWith fingerprint })
    := by
  rw [freezeCatalog, exec_bind, exec_get, Catalog.stamp]
  dsimp only
  cases given : e.catalog.fingerprint with
  | some fingerprint =>
    dsimp only
    rw [Catalog.stampedWith, ← given]
    rfl
  | none =>
    have unfrozen : e.catalog.frozen = false := by rw [Catalog.frozen, given]; rfl
    dsimp only
    rw [exec_within, Catalog.exec_freeze, unfrozen]
    cases e.catalog.computeFingerprint with
    | error failure => rfl
    | ok fingerprint => rfl

theorem exec_freeze (e : Engine) : exec freeze e = match e.obstacles with
    | .error failure => (.error failure, e)
    | .ok [] => match e.catalog.stamp with
      | .error failure => (.error failure, e)
      | .ok fingerprint => (.ok fingerprint, e.frozenWith fingerprint)
    | .ok obstacles => (.error (.rule (.invalidEngine obstacles)), e) := by
  rw [freeze, exec_bind, exec_get]
  dsimp only
  rw [exec_bind, exec_ofExcept]
  rcases e.obstacles with failure | _ | ⟨first, rest⟩
  · rfl
  · simp only [List.isEmpty_nil, Bool.not_true, Bool.false_eq_true, ↓reduceIte]
    rw [exec_bind, exec_freezeCatalog]
    cases e.catalog.stamp with
    | error failure => rfl
    | ok fingerprint => rfl
  · rfl

/-- What is there when an engine has been frozen under a fingerprint. -/
structure Final (fingerprint : String) (e : Engine) : Prop where
  whole : e.frozenWith fingerprint = e
  unhindered : e.obstacles = .ok []
  computed : e.catalog.computeFingerprint = .ok fingerprint

theorem final_of_freeze (stamped : e.catalog.Stamped)
    (ran : exec freeze e = (.ok fingerprint, next)) : next.Final fingerprint := by
  rw [exec_freeze, stamped.stamp] at ran
  split at ran
  · cases ran
  · rename_i unhindered
    split at ran
    · cases ran
    · rename_i computed
      cases ran
      exact ⟨rfl, unhindered, computed⟩
  · cases ran

namespace Final

variable (final : e.Final fingerprint)

include final

theorem parts : e.catalog.fingerprint = some fingerprint ∧ e.rules.frozen = true ∧
    e.actions.frozen = true ∧ e.contracts.frozen = true ∧ e.fingerprint = some fingerprint := by
  have whole := final.whole
  refine ⟨?_, ?_, ?_, ?_, ?_⟩ <;> (rw [← whole]; rfl)

theorem frozen : e.catalog.frozen = true := by
  rw [Catalog.frozen, final.parts.1]
  rfl

theorem freeze : exec Engine.freeze e = (.ok fingerprint, e) := by
  rw [exec_freeze, final.unhindered, Catalog.stamp, final.parts.1]
  exact congrArg (Prod.mk _) final.whole

theorem freezePart (part : EnginePart) : (exec (Engine.freezePart part) e).2 = e := by
  obtain ⟨-, rules, actions, contracts, -⟩ := final.parts
  cases part with
  | catalog =>
    rw [Engine.freezePart, exec_bind, exec_within, Catalog.exec_freeze, if_pos final.frozen]
  | rules => exact congrArg (fun frozen => { e with rules := { e.rules with frozen } }) rules.symm
  | actions =>
    exact congrArg (fun frozen => { e with actions := { e.actions with frozen } }) actions.symm
  | contracts =>
    exact congrArg (fun frozen => { e with contracts := { e.contracts with frozen } })
      contracts.symm

theorem not_addReaction (definition : Value) (r : Reaction) (next : Engine) :
    exec (addReaction definition) e ≠ (.ok r, next) := by
  intro ran
  obtain ⟨given, -, ran⟩ := exec_ofExcept_bind_eq_ok.mp ran
  rw [exec_bind, exec_get] at ran
  obtain ⟨rules, added, -⟩ := exec_ofExcept_bind_eq_ok.mp ran
  rw [RuleBook.addReaction, if_pos final.parts.2.1] at added
  cases added

theorem not_addStateRule (definition : Value) (r : StateRule) (next : Engine) :
    exec (addStateRule definition) e ≠ (.ok r, next) := by
  intro ran
  have unfrozen := (addStateRule_accepted ran).1.unfrozen
  rw [final.parts.2.1] at unfrozen
  cases unfrozen

theorem not_addAugmentation (definition : Value) (a : Augmentation) (next : Engine) :
    exec (addAugmentation definition) e ≠ (.ok a, next) := by
  intro ran
  obtain ⟨given, -, ran⟩ := exec_ofExcept_bind_eq_ok.mp ran
  rw [exec_bind, exec_get] at ran
  obtain ⟨contracts, added, -⟩ := exec_ofExcept_bind_eq_ok.mp ran
  rw [ContractBook.add, if_pos final.parts.2.2.2.1] at added
  cases added

theorem not_addAction (name : Value) (action : Option ActionFn) (next : Engine) :
    exec (addAction name action) e ≠ (.ok (), next) := by
  intro ran
  rw [addAction, exec_bind, exec_get] at ran
  obtain ⟨actions, added, -⟩ := exec_ofExcept_bind_eq_ok.mp ran
  cases action with
  | none => cases added
  | some action =>
    rw [ActionBook.add, if_pos final.parts.2.2.1] at added
    cases added

theorem refuses (call : Registration) :
    ∃ failure, exec (register call) e = (.error failure, e) := by
  cases call with
  | schema definition =>
    simp only [register, exec_ignore_eq_error, exec_addSchema]
    cases Schema.ofValue definition with
    | error failure => exact ⟨failure, rfl⟩
    | ok s =>
      obtain ⟨failure, refused⟩ := Catalog.register_of_not_receives (s := s) (c := e.catalog)
        fun key receives => by
          have unfrozen := receives.unfrozen
          rw [final.frozen] at unfrozen
          cases unfrozen
      dsimp only
      rw [refused]
      exact ⟨failure, rfl⟩
  | reaction definition =>
    simp only [register, exec_ignore_eq_error]
    exact (addReaction_clean definition).refuses (final.not_addReaction definition)
  | stateRule definition =>
    simp only [register, exec_ignore_eq_error]
    exact (addStateRule_clean definition).refuses (final.not_addStateRule definition)
  | augmentation definition =>
    simp only [register, exec_ignore_eq_error]
    exact (addAugmentation_clean definition).refuses (final.not_addAugmentation definition)
  | action name action =>
    exact (addAction_clean name action).refuses fun _ => final.not_addAction name action

theorem obstacles_none : e.catalog.danglingReferences = .ok [] ∧ e.missingActions = .ok [] := by
  obtain ⟨dangling, references, rest⟩ := bind_eq_ok.mp final.unhindered
  obtain ⟨missing, actions, rest⟩ := bind_eq_ok.mp rest
  obtain ⟨rfl, none⟩ := List.append_eq_nil_iff.mp (Except.ok.inj rest)
  rw [List.map_eq_nil_iff.mp none] at actions
  exact ⟨references, actions⟩

theorem exists_target {key : Key} {s : Schema} (listed : (key, s) ∈ e.catalog.schemas) {f : Field}
    (refers : f ∈ s.referFields) :
    ∃ parent target, Key.ofValue f.refer = .ok parent ∧ e.catalog.get? parent = some target := by
  obtain ⟨found, each, flat⟩ := bind_eq_ok.mp final.obstacles_none.1
  obtain ⟨complaints, among, answered⟩ := exists_mem_of_mapM each listed
  obtain ⟨complaint, inside, given⟩ := exists_mem_of_mapM answered refers
  have silent : complaint = none := by
    have flat : found.flatten.filterMap id = [] := Except.ok.inj flat
    exact List.filterMap_eq_nil_iff.mp flat complaint (List.mem_flatten_of_mem among inside)
  obtain ⟨present, named, given⟩ := bind_eq_ok.mp given
  obtain ⟨parent, called, looked⟩ := bind_eq_ok.mp named
  obtain rfl := Except.ok.inj looked
  cases present : e.catalog.get? parent with
  | some target => exact ⟨parent, target, called, present⟩
  | none =>
    rw [present, silent] at given
    cases given

theorem knowsActions : e.KnowsActions := by
  intro r listed name act
  obtain ⟨names, used, sorted⟩ := bind_eq_ok.mp final.obstacles_none.2
  obtain ⟨keys, each, same⟩ := bind_eq_ok.mp used
  obtain rfl := Except.ok.inj same
  have custom : RuleBook.customName? r = some name := by rw [RuleBook.customName?, act]
  obtain ⟨key, among, named⟩ :=
    exists_mem_of_mapM each (List.mem_filterMap.mpr ⟨r, listed, custom⟩)
  obtain ⟨other, kept, same⟩ := Text.exists_mem_distinct among
  have known : e.actions.actions.has other = true := by
    simpa using List.filter_eq_nil_iff.mp (RuleBook.eq_nil_of_sortNames sorted) other kept
  rw [Keyed.has, Keyed.find?_congr same] at known
  obtain ⟨action, found⟩ := Option.isSome_iff_exists.mp known
  exact ⟨key, action, named, found⟩

end Final

/-- An engine that has been frozen under a fingerprint takes nothing in any more. The fingerprint is
that of its schemas, which all refer to schemas that are there, and no cascade misses an action:
with whatever further actions, all calls have the same outcome and the same effect. -/
structure Closed (fingerprint : String) (e : Engine) : Prop where
  refuses : ∀ call, ∃ failure, exec (register call) e = (.error failure, e)
  known : e.fingerprint = some fingerprint
  computed : ∃ text, e.catalog.canonicalText = .ok text ∧
    fingerprint = "sha256:" ++ Catalog.digestText text
  again : exec Engine.freeze e = (.ok fingerprint, e)
  references : ∀ key s, (key, s) ∈ e.catalog.schemas → ∀ f ∈ s.referFields,
    ∃ parent target, Key.ofValue f.refer = .ok parent ∧ e.catalog.get? parent = some target
  actions : e.KnowsActions
  complete : ∀ more, (e.withActions more).perform = e.perform

theorem Final.closed (final : e.Final fingerprint) : e.Closed fingerprint where
  refuses := final.refuses
  known := final.parts.2.2.2.2
  computed := by
    obtain ⟨text, written, same⟩ := bind_eq_ok.mp final.computed
    exact ⟨text, written, (Except.ok.inj same).symm⟩
  again := final.freeze
  references _ _ listed _ refers := final.exists_target listed refers
  actions := final.knowsActions
  complete more := perform_withActions more final.knowsActions

theorem stamped_register (stamped : e.catalog.Stamped) (call : Registration) :
    (exec (register call) e).2.catalog.Stamped := by
  cases call with
  | schema definition =>
    rw [register, exec_ignore_snd, exec_addSchema]
    cases Schema.ofValue definition with
    | error failure => exact stamped
    | ok s => exact stamped.register s
  | reaction definition =>
    rw [register, exec_ignore_snd, (addReaction_moves definition e).1]
    exact stamped
  | stateRule definition =>
    rw [register, exec_ignore_snd, (addStateRule_moves definition e).1]
    exact stamped
  | augmentation definition =>
    rw [register, exec_ignore_snd, addAugmentation, exec_bind, exec_ofExcept]
    cases onObject Augmentation.ofValue definition with
    | error failure => exact stamped
    | ok a =>
      simp only [exec_bind, exec_get, exec_ofExcept]
      cases e.contracts.add e.catalog a with
      | error failure => exact stamped
      | ok contracts => exact stamped
  | action name action =>
    rw [register, addAction, exec_bind, exec_get]
    simp only [exec_bind, exec_ofExcept]
    cases e.actions.add name action with
    | error failure => exact stamped
    | ok actions => exact stamped

theorem stamped_freezePart (stamped : e.catalog.Stamped) (part : EnginePart) :
    (exec (freezePart part) e).2.catalog.Stamped := by
  cases part with
  | catalog =>
    rw [freezePart, exec_ignore_snd, exec_within]
    exact stamped.freeze
  | rules => exact stamped
  | actions => exact stamped
  | contracts => exact stamped

theorem stamped_freeze (stamped : e.catalog.Stamped) : (exec freeze e).2.catalog.Stamped := by
  rw [exec_freeze, stamped.stamp]
  split
  · exact stamped
  · split
    · exact stamped
    · rename_i fingerprint computed
      exact Catalog.stamped_stampedWith computed
  · exact stamped

end Engine

inductive Operation where
  | register (call : Registration)
  | freezePart (part : EnginePart)
  | freeze
  | perform (call : HostCall)
  | view (schema id : Key) (placement : Placement)
  /-- The store is used past the engine. -/
  | access (step : Step Store Unit)

structure Session where
  engine : Engine
  store : Store := {}

namespace Session

def next (s : Session) : Operation → Session
  | .register call => { s with engine := (exec (Engine.register call) s.engine).2 }
  | .freezePart part => { s with engine := (exec (Engine.freezePart part) s.engine).2 }
  | .freeze => { s with engine := (exec Engine.freeze s.engine).2 }
  | .perform call => { s with store := (exec (s.engine.perform call) s.store).2 }
  | .view schema id placement =>
    { s with store := (exec (s.engine.view schema id placement) s.store).2 }
  | .access step => { s with store := (exec step s.store).2 }

def after (s : Session) (operations : List Operation) : Session := operations.foldl next s

variable {s : Session} {fingerprint : String}

theorem next_stamped (stamped : s.engine.catalog.Stamped) (operation : Operation) :
    (s.next operation).engine.catalog.Stamped := by
  cases operation with
  | register call => exact Engine.stamped_register stamped call
  | freezePart part => exact Engine.stamped_freezePart stamped part
  | freeze => exact Engine.stamped_freeze stamped
  | perform call => exact stamped
  | view schema id placement => exact stamped
  | access step => exact stamped

theorem after_stamped (stamped : s.engine.catalog.Stamped) (operations : List Operation) :
    (s.after operations).engine.catalog.Stamped := by
  induction operations generalizing s with
  | nil => exact stamped
  | cons operation rest ih => exact ih (next_stamped stamped operation)

theorem next_engine (final : s.engine.Final fingerprint) (operation : Operation) :
    (s.next operation).engine = s.engine := by
  cases operation with
  | register call =>
    obtain ⟨failure, refused⟩ := final.refuses call
    exact congrArg Prod.snd refused
  | freezePart part => exact final.freezePart part
  | freeze => exact congrArg Prod.snd final.freeze
  | perform call => rfl
  | view schema id placement => rfl
  | access step => rfl

theorem after_engine (final : s.engine.Final fingerprint) (operations : List Operation) :
    (s.after operations).engine = s.engine := by
  induction operations generalizing s with
  | nil => rfl
  | cons operation rest ih =>
    have same := next_engine final operation
    exact (ih (same ▸ final)).trans same

/-- From when an engine has been frozen, whatever was done before and is done later, it stays the
same engine, which takes nothing in any more and misses nothing. -/
theorem freeze_is_final (settings : Settings) (store : Store) (earlier later : List Operation)
    (frozen : Engine) (fingerprint : String)
    (ran : exec Engine.freeze (after ⟨{ settings }, store⟩ earlier).engine =
      (.ok fingerprint, frozen)) :
    (after ⟨{ settings }, store⟩ (earlier ++ .freeze :: later)).engine = frozen ∧
      frozen.Closed fingerprint := by
  have fresh : ({ settings } : Engine).catalog.Stamped := by rintro _ ⟨⟩
  have stamped := after_stamped (s := ⟨{ settings }, store⟩) fresh earlier
  have final := Engine.final_of_freeze stamped ran
  refine ⟨?_, final.closed⟩
  rw [after, List.foldl_append, List.foldl_cons]
  have at_freeze : ((after ⟨{ settings }, store⟩ earlier).next .freeze).engine = frozen :=
    congrArg Prod.snd ran
  exact (after_engine (at_freeze ▸ final) later).trans at_freeze

/-- A reaction to new folders that runs an action, with the catalog frozen before the action is
there; and the same reaction once more afterwards, which is refused. -/
theorem freeze_is_final_folders : ∃ earlier later fingerprint frozen,
    exec Engine.freeze (after ⟨{}, {}⟩ earlier).engine = (.ok fingerprint, frozen) ∧
      frozen.catalog.names = [.text "Folder"] ∧ frozen.rules.reactions ≠ [] ∧
      (after ⟨{}, {}⟩ (earlier ++ .freeze :: later)).engine = frozen ∧
      frozen.Closed fingerprint := by
  let reaction : Value := .object [("schema", .text "Folder"), ("event", .text "created"),
    ("action", .object [("custom", .text "note")])]
  let earlier : List Operation := [.register (.schema Engine.folderDefinition),
    .register (.reaction reaction), .freezePart .catalog,
    .register (.action (.text "note") (some fun _ => .done []))]
  have added : exec (Engine.register (.schema Engine.folderDefinition)) {} =
      (.ok (), { Engine.folders with contracts := {} }) := by
    rw [Engine.register, exec_bind, Engine.exec_addSchema, Engine.folderDefinition_read]
    rfl
  obtain ⟨fingerprint, computed⟩ : ∃ fingerprint,
    Engine.folders.catalog.computeFingerprint = .ok fingerprint := ⟨_, rfl⟩
  let r : Reaction :=
    { schema := .text "Folder", event := .created, action := .custom (.text "note") }
  let ready : Engine :=
    { catalog := Engine.folders.catalog.stampedWith fingerprint
      rules := { reactions := [r], reactionReaches := [((.text "Folder", .created), {})] }
      actions := { actions := [(.text "note", fun _ => .done [])] } }
  have stamped : exec Catalog.freeze Engine.folders.catalog =
      (.ok fingerprint, Engine.folders.catalog.stampedWith fingerprint) := by
    rw [Catalog.exec_freeze, computed]
    rfl
  have reacting : exec (Engine.register (.reaction reaction))
      { Engine.folders with contracts := {} } =
        (.ok (), { Engine.folders with rules := ready.rules, contracts := {} }) := rfl
  have before : (after ⟨{}, {}⟩ earlier).engine = ready := by
    simp only [earlier, after, List.foldl_cons, List.foldl_nil, next, added, reacting,
      Engine.freezePart, exec_ignore_snd, exec_within, stamped]
    rfl
  have ran : exec Engine.freeze (after ⟨{}, {}⟩ earlier).engine =
      (.ok fingerprint, ready.frozenWith fingerprint) := by
    rw [before]
    rfl
  obtain ⟨same, closed⟩ := freeze_is_final {} {} earlier [.register (.reaction reaction)] _ _ ran
  exact ⟨earlier, _, fingerprint, _, ran, rfl, List.cons_ne_nil _ _, same, closed⟩

end Session

end RecordRules
