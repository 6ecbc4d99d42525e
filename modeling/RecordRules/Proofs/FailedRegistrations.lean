import RecordRules.Proofs.RegisteredEngines

/-!
Registrations that fail. All checks of a registration come before its first change, so one that
fails leaves the engine as it was. There is one exception: a new schema is put into the catalog
before its references are linked, and it stays there when one of them cannot be a key.
-/
namespace RecordRules

open Step

namespace Step

variable {σ α β : Type}

def Clean (step : Step σ α) : Prop :=
  ∀ s failure t, exec step s = (.error failure, t) → t = s

theorem clean_of_answers {step : Step σ α} (answers : ∀ s, ∃ x t, exec step s = (.ok x, t)) :
    Clean step := by
  intro s failure t failed
  obtain ⟨x, u, ran⟩ := answers s
  rw [ran] at failed
  cases failed

theorem clean_get_bind {next : σ → Step σ β} (later : ∀ s, Clean (next s)) :
    Clean (get >>= next) := by
  intro s failure t failed
  rw [exec_bind] at failed
  exact later s s failure t failed

theorem clean_ofExcept_bind (outcome : Except Failure α) {next : α → Step σ β}
    (later : ∀ x, Clean (next x)) : Clean (ofExcept outcome >>= next) := by
  intro s failure t failed
  rw [exec_bind, exec_ofExcept] at failed
  cases outcome with
  | error problem => exact (Prod.mk.inj failed).2.symm
  | ok x => exact later x s failure t failed

theorem clean_set_bind (u : σ) (x : α) : Clean (set u >>= fun _ => (pure x : Step σ α)) :=
  clean_of_answers fun _ => ⟨x, u, rfl⟩

theorem exec_ignore_eq_error {step : Step σ α} {s t : σ} {failure : Failure} :
    exec (step >>= fun _ => (pure () : Step σ Unit)) s = (.error failure, t) ↔
      exec step s = (.error failure, t) := by
  rw [exec_bind]
  cases exec step s with
  | mk outcome u => cases outcome <;> simp

theorem clean_ignore {step : Step σ α} (clean : Clean step) :
    Clean (step >>= fun _ => (pure () : Step σ Unit)) :=
  fun s failure t failed => clean s failure t (exec_ignore_eq_error.mp failed)

end Step

namespace Catalog

variable {c next : Catalog} {s : Schema} {key : Key}

/-- A schema passes all checks of its registration: it is a new one, under a key. -/
structure Receives (c : Catalog) (s : Schema) (key : Key) : Prop where
  unfrozen : c.frozen = false
  named : Key.ofValue s.name = .ok key
  fresh : c.has key = false

theorem Receives.register (receives : c.Receives s key) :
    exec (Catalog.register s) c =
      exec (addEdges key s.referFields) { c with schemas := c.schemas ++ [(key, s)] } := by
  rw [Catalog.register, exec_bind, exec_get]
  simp only [receives.unfrozen, Bool.false_eq_true, ↓reduceIte, exec_bind, exec_ofExcept,
    receives.named, receives.fresh, exec_set]

theorem register_of_not_receives (refused : ∀ key, ¬ c.Receives s key) :
    ∃ failure, exec (register s) c = (.error failure, c) := by
  rw [register, exec_bind, exec_get]
  dsimp only
  by_cases frozen : c.frozen = true
  · rw [if_pos frozen]
    exact ⟨_, rfl⟩
  rw [if_neg frozen, exec_bind, exec_ofExcept]
  cases named : Key.ofValue s.name with
  | error failure => exact ⟨failure, rfl⟩
  | ok key =>
    dsimp only
    by_cases known : c.has key = true
    · rw [if_pos known]
      exact ⟨_, rfl⟩
    · exact absurd ⟨Bool.not_eq_true _ ▸ frozen, named, Bool.not_eq_true _ ▸ known⟩ (refused key)

theorem addEdges_fails_iff (child : Key) (fields : List Field) (c : Catalog) :
    (∃ failure, (exec (addEdges child fields) c).1 = .error failure) ↔
      ∃ f ∈ fields, f.refer.key? = none := by
  induction fields generalizing c with
  | nil => simp [addEdges]
  | cons f rest ih =>
    rw [addEdges, exec_bind, exec_ofExcept, Key.ofValue]
    cases named : f.refer.key? with
    | none => simp [named]
    | some parent =>
      simp only [exec_bind, exec_modify, ih, List.exists_mem_cons_iff, named, reduceCtorEq,
        false_or]

theorem Receives.schemas (receives : c.Receives s key) :
    (exec (Catalog.register s) c).2.schemas = c.schemas ++ [(key, s)] := by
  rw [receives.register]
  exact addEdges_moves key s.referFields _

end Catalog

inductive Registration where
  | schema (definition : Value)
  | reaction (definition : Value)
  | stateRule (definition : Value)
  | augmentation (definition : Value)
  | action (name : Value) (action : Option ActionFn)

def Registration.isWritable : Registration → Bool
  | schema definition | reaction definition | stateRule definition | augmentation definition =>
    definition.isWritable
  | action name _ => name.isWritable

namespace Engine

def register : Registration → Step Engine Unit
  | .schema definition => do let _ ← addSchema definition
  | .reaction definition => do let _ ← addReaction definition
  | .stateRule definition => do let _ ← addStateRule definition
  | .augmentation definition => do let _ ← addAugmentation definition
  | .action name action => addAction name action

variable {e next : Engine}

theorem addReaction_clean (definition : Value) : Clean (addReaction definition) :=
  clean_ofExcept_bind _ fun r => clean_get_bind fun _ => clean_ofExcept_bind _ fun _ =>
    clean_set_bind _ r

theorem addStateRule_clean (definition : Value) : Clean (addStateRule definition) :=
  clean_ofExcept_bind _ fun r => clean_get_bind fun _ => clean_ofExcept_bind _ fun _ =>
    clean_set_bind _ r

theorem addAugmentation_clean (definition : Value) : Clean (addAugmentation definition) :=
  clean_ofExcept_bind _ fun a => clean_get_bind fun _ => clean_ofExcept_bind _ fun _ =>
    clean_set_bind _ a

theorem addAction_clean (name : Value) (action : Option ActionFn) :
    Clean (addAction name action) :=
  clean_get_bind fun _ => clean_ofExcept_bind _ fun _ =>
    clean_of_answers fun _ => ⟨(), _, rfl⟩

theorem exec_addSchema (definition : Value) (e : Engine) :
    exec (addSchema definition) e = match Schema.ofValue definition with
      | .error failure => (.error failure, e)
      | .ok s => ((exec (Catalog.register s) e.catalog).1.map fun _ => s,
          { e with catalog := (exec (Catalog.register s) e.catalog).2 }) := by
  rw [addSchema, exec_bind, exec_ofExcept]
  cases Schema.ofValue definition with
  | error failure => rfl
  | ok s =>
    dsimp only
    rw [exec_bind, exec_within]
    cases (exec (Catalog.register s) e.catalog).1 <;> rfl

/-- A new schema that passes all checks, but one of whose references cannot be a key. -/
def Unlinkable (e : Engine) : Registration → Prop
  | .schema definition => ∃ s key, Schema.ofValue definition = .ok s ∧ e.catalog.Receives s key ∧
      ∃ f ∈ s.referFields, f.refer.key? = none
  | _ => False

theorem addSchema_failed {definition : Value} {failure : Failure}
    (failed : exec (addSchema definition) e = (.error failure, next)) :
    (next = e ↔ ¬ e.Unlinkable (.schema definition)) ∧
      next = { e with catalog := next.catalog } := by
  rw [exec_addSchema] at failed
  cases read : Schema.ofValue definition with
  | error problem =>
    rw [read] at failed
    obtain ⟨-, rfl⟩ := Prod.mk.inj failed
    simp [Unlinkable, read]
  | ok s =>
    rw [read] at failed
    obtain ⟨outcome, rfl⟩ := Prod.mk.inj failed
    refine ⟨?_, rfl⟩
    by_cases received : ∃ key, e.catalog.Receives s key
    · obtain ⟨key, receives⟩ := received
      have grown : (exec (Catalog.register s) e.catalog).2 ≠ e.catalog := by
        intro same
        have schemas := receives.schemas
        rw [same] at schemas
        exact List.cons_ne_nil _ _ (List.self_eq_append_right.mp schemas)
      have broken : ∃ f ∈ s.referFields, f.refer.key? = none := by
        rw [receives.register] at outcome
        apply (Catalog.addEdges_fails_iff key s.referFields _).mp
        cases linked : (exec (Catalog.addEdges key s.referFields) _).1 with
        | error problem => exact ⟨problem, rfl⟩
        | ok _ =>
          rw [linked] at outcome
          cases outcome
      constructor
      · exact fun same => absurd (congrArg Engine.catalog same) grown
      · exact fun linkable => absurd ⟨s, key, read, receives, broken⟩ linkable
    · have refused : ∀ key, ¬ e.catalog.Receives s key := not_exists.mp received
      obtain ⟨problem, kept⟩ := Catalog.register_of_not_receives refused
      rw [kept]
      refine ⟨fun _ => ?_, fun _ => rfl⟩
      rintro ⟨t, key, also, receives, -⟩
      obtain rfl := Except.ok.inj (read.symm.trans also)
      exact refused key receives

theorem eq_of_clean {step : Step Engine Unit} (clean : Clean step) {failure : Failure}
    (failed : exec step e = (.error failure, next)) :
    (next = e ↔ ¬ False) ∧ next = { e with catalog := next.catalog } := by
  obtain rfl := clean e failure next failed
  exact ⟨by simp, rfl⟩

/-- A registration that fails leaves the engine as it was, unless it is of an unlinkable schema;
then it leaves all as it was but the catalog. Numbers that are too long are left out of account:
the log names what was added once it is there, and that would fail. -/
theorem register_failed {call : Registration} (_short : call.isWritable = true) {failure : Failure}
    (failed : exec (register call) e = (.error failure, next)) :
    (next = e ↔ ¬ e.Unlinkable call) ∧ next = { e with catalog := next.catalog } := by
  cases call with
  | schema definition => exact addSchema_failed (exec_ignore_eq_error.mp failed)
  | reaction definition => exact eq_of_clean (clean_ignore (addReaction_clean definition)) failed
  | stateRule definition => exact eq_of_clean (clean_ignore (addStateRule_clean definition)) failed
  | augmentation definition =>
    exact eq_of_clean (clean_ignore (addAugmentation_clean definition)) failed
  | action name action => exact eq_of_clean (addAction_clean name action) failed

def listedParent : Registration :=
  .schema (.object [("name", .text "Task"), ("fields",
    .list [.object [("name", .text "parent"), ("refer", .list [.text "Task"])]])])

def halfAdded : Engine where
  catalog :=
    let parent : Field :=
      { name := "parent", kind := .known .reference, refer := .list [.text "Task"] }
    { schemas := [(.text "Task", { name := .text "Task", fields := [parent] })] }

theorem exec_register_listedParent :
    exec (register listedParent) {} =
      (.error (.notAKey (.list [.text "Task"])), halfAdded) := by
  let parent : Field :=
    { name := "parent", kind := .known .reference, refer := .list [.text "Task"] }
  let given : List Value := [.object [("name", .text "parent"), ("refer", .list [.text "Task"])]]
  have checked : parent.check = .ok parent := by
    simp [parent, Field.check, Field.isOf, GivenKind.isKind, Field.target?, Field.checkBounds,
      Value.isTrue, Value.isNull]
  have fields : given.mapM Field.ofValue = .ok [parent] := by
    change (do return [← parent.check]) = _
    rw [checked]
    rfl
  have read : Schema.ofValue (.object [("name", .text "Task"), ("fields", .list given)]) =
      .ok { name := .text "Task", fields := [parent] } := by
    change (given.mapM Field.ofValue >>= fun fields =>
      Schema.check { name := .text "Task", fields }) = _
    rw [fields]
    rfl
  rw [listedParent, register, exec_ignore_eq_error, exec_addSchema, read]
  rfl

theorem register_failed_listedParent :
    listedParent.isWritable = true ∧
      exec (register listedParent) {} = (.error (.notAKey (.list [.text "Task"])), halfAdded) ∧
      ((halfAdded = {} ↔ ¬ Unlinkable {} listedParent) ∧
        halfAdded = { ({} : Engine) with catalog := halfAdded.catalog }) :=
  ⟨rfl, exec_register_listedParent, register_failed rfl exec_register_listedParent⟩

/-- The schema is refused, and it is there afterwards: its name is taken, and the engine cannot be
frozen any more. -/
theorem refused_schema_stays :
    ∃ call failure next, exec (register call) {} = (.error failure, next) ∧
      Catalog.names {} = [] ∧ next.catalog.names = [.text "Task"] ∧
      (exec Engine.freeze {}).1.isOk = true ∧ (exec Engine.freeze next).1.isOk = false :=
  ⟨listedParent, _, halfAdded, exec_register_listedParent, rfl, rfl, rfl, rfl⟩

end Engine

end RecordRules
