import RecordRules.Proofs.AgreeingRules
import RecordRules.Proofs.QuietRuns

/-!
Declared fields. The target schemas of a reaction are told when it is added, and they can be told
ever after, however many schemas follow. Whatever records a reaction acts on then, they belong to
its target schemas, and what it sets is declared by the schemas of these records, each by its own.
So a cascade in which reactions only set fields leaves no field in a stored row that was not there
and is not declared.
-/
namespace RecordRules

open Step

namespace Catalog

variable {c next : Catalog}

theorem Grows.parentsOf (grows : c.Grows next) {key : Key} {parents : List Key}
    (known : c.parentsOf key = .ok parents) : next.parentsOf key = .ok parents := by
  obtain ⟨s, required, named⟩ := bind_eq_ok.mp known
  have kept : next.require key = .ok s := by
    rw [require, grows key s (get?_of_require required)]
  exact bind_eq_ok.mpr ⟨s, kept, named⟩

end Catalog

namespace RuleBook

variable {c next : Catalog} {b : RuleBook} {r : Reaction}

def Placed (c : Catalog) (r : Reaction) : Prop := ∃ names, targetSchemas c r = .ok names

theorem placed_iff : Placed c r ↔ ∃ candidates, schemasInScope c r = .ok candidates := by
  constructor
  · rintro ⟨names, known⟩
    obtain ⟨candidates, inScope, -⟩ := bind_eq_ok.mp known
    exact ⟨candidates, inScope⟩
  · rintro ⟨candidates, inScope⟩
    rw [Placed, targetSchemas, inScope]
    dsimp only [bind, Except.bind]
    split
    · exact ⟨_, rfl⟩
    · exact ⟨_, rfl⟩
    · exact ⟨_, rfl⟩

theorem Placed.mono (grows : c.Grows next) (placed : Placed c r) : Placed next r := by
  rw [placed_iff] at placed ⊢
  obtain ⟨candidates, inScope⟩ := placed
  cases scope : r.scope with
  | self => exact ⟨_, by rw [schemasInScope, scope]; rfl⟩
  | parent =>
    rw [schemasInScope, scope] at inScope
    obtain ⟨key, named, inScope⟩ := bind_eq_ok.mp inScope
    obtain ⟨parents, known, -⟩ := bind_eq_ok.mp inScope
    refine ⟨parents.map Key.toValue, ?_⟩
    rw [schemasInScope, scope]
    exact bind_eq_ok.mpr ⟨key, named, bind_eq_ok.mpr ⟨parents, grows.parentsOf known, rfl⟩⟩
  | child =>
    rw [schemasInScope, scope] at inScope
    obtain ⟨key, named, -⟩ := bind_eq_ok.mp inScope
    refine ⟨(Text.distinct ((next.childrenOf key).map Prod.fst)).map Key.toValue, ?_⟩
    rw [schemasInScope, scope]
    exact bind_eq_ok.mpr ⟨key, named, rfl⟩

theorem placed_of_check (checked : checkReaction c r = .ok ()) : Placed c r := by
  obtain ⟨_, -, checked⟩ := bind_eq_ok.mp checked
  obtain ⟨_, -, checked⟩ := bind_eq_ok.mp checked
  obtain ⟨_, -, checked⟩ := bind_eq_ok.mp checked
  obtain ⟨names, known, -⟩ := bind_eq_ok.mp checked
  exact ⟨names, known⟩

theorem placed_of_addReaction {more : RuleBook} (added : b.addReaction c r = .ok more) :
    Placed c r := by
  rw [addReaction] at added
  split at added
  · cases added
  · obtain ⟨_, checked, -⟩ := bind_eq_ok.mp added
    exact placed_of_check checked

/-- Catalogs and rule books that come from adding schemas and rules in any order. A schema may have
been refused, and so may rules have been, which leave nothing behind. -/
inductive Filled : Catalog → RuleBook → Prop where
  | empty : Filled {} {}
  | schema {c : Catalog} {b : RuleBook} (before : Filled c b) (s : Schema) :
      Filled (exec (Catalog.register s) c).2 b
  | reaction {c : Catalog} {b more : RuleBook} {r : Reaction} (before : Filled c b)
      (added : b.addReaction c r = .ok more) : Filled c more
  | stateRule {c : Catalog} {b more : RuleBook} {r : StateRule} (before : Filled c b)
      (added : b.addStateRule c r = .ok more) : Filled c more
  | freezeCatalog {c : Catalog} {b : RuleBook} (before : Filled c b) :
      Filled (exec Catalog.freeze c).2 b
  | freeze {c : Catalog} {b : RuleBook} (before : Filled c b) : Filled c { b with frozen := true }

theorem Filled.placed (filled : Filled c b) : ∀ r ∈ b.reactions, Placed c r := by
  induction filled with
  | empty => exact fun _ listed => by cases listed
  | @schema c _ _ s ih => exact fun r listed => (ih r listed).mono (Catalog.grows_register s c)
  | reaction _ added ih =>
    obtain ⟨_, -, rfl⟩ := addReaction_ok added
    intro q listed
    rcases List.mem_append.mp listed with old | new
    · exact ih q old
    · rw [List.mem_singleton.mp new]
      exact placed_of_addReaction added
  | stateRule _ added ih =>
    obtain ⟨_, -, rfl⟩ := addStateRule_ok added
    exact ih
  | @freezeCatalog c _ _ ih => exact fun r listed => (ih r listed).mono (Catalog.grows_freeze c)
  | freeze _ ih => exact ih

end RuleBook

/-- What the rows have more than before are fields that their schemas declare. -/
def Store.AddsDeclared (c : Catalog) (s t : Store) : Prop :=
  ∀ schema id data, t.row? schema id = some data → ∀ field ∈ data.names,
    (∃ old, s.row? schema id = some old ∧ field ∈ old.names) ∨
      ∃ definition, c.get? schema = some definition ∧ definition.declares field = true

namespace Store

variable {c : Catalog}

instance (c : Catalog) : IsPreorder Store (AddsDeclared c) where
  refl _ _ _ data stored _ inside := .inl ⟨data, stored, inside⟩
  trans s t u first later schema id data stored field inside := by
    rcases later schema id data stored field inside with ⟨old, before, among⟩ | declared
    · exact first schema id old before field among
    · exact .inr declared

theorem AddsDeclared.of_tables {s t : Store} (same : t.tables = s.tables) : AddsDeclared c s t := by
  intro schema id data stored field inside
  refine .inl ⟨data, ?_, inside⟩
  rwa [row?, table, ← same]

theorem addsDeclared_putRow {s : Store} {schema id : Key} {data changes : Entries}
    {definition : Schema} (stored : s.row? schema id = some data)
    (known : c.get? schema = some definition)
    (declared : ∀ field ∈ changes.names, definition.declares field = true) :
    AddsDeclared c s (s.putRow schema id (data.merge changes)) := by
  intro other otherId found present field inside
  rw [row?_putRow] at present
  split at present
  · rename_i same
    obtain rfl := Option.some.inj present
    rcases Keyed.mem_names_merge inside with old | new
    · exact .inl ⟨data, (s.row?_congr same).symm.trans stored, old⟩
    · refine .inr ⟨definition, ?_, declared field new⟩
      rw [Catalog.get?, ← Keyed.find?_congr (Bool.and_eq_true_iff.mp same).1]
      exact known
  · exact .inl ⟨found, present, inside⟩

end Store

namespace Engine

variable {e : Engine}

theorem declares_of_updatesFor {schema : Schema} {assignments : List (String × Operand)}
    {scene : Scene} {field : String}
    (inside : field ∈ (updatesFor schema assignments scene).names) :
    schema.declares field = true := by
  obtain ⟨⟨name, v⟩, member, rfl⟩ := List.mem_map.mp inside
  exact (mem_updatesFor member).1

theorem applyWrite_addsDeclared {target : Record} {updates : Entries} {definition : Schema}
    (known : e.catalog.get? target.schema = some definition)
    (declared : ∀ field ∈ updates.names, definition.declares field = true) (turn : Turn) :
    turn.store.AddsDeclared e.catalog (exec (e.applyWrite target updates) turn).2.store := by
  have written := e.applyWrite_written target updates turn
  generalize exec (e.applyWrite target updates) turn = ended at written
  cases written with
  | dropped looked _ | refused looked =>
    obtain ⟨trace, rfl⟩ := looked
    exact .of_tables rfl
  | @changed _ data changes looked stored left _ =>
    obtain ⟨trace, rfl⟩ := looked
    refine Store.addsDeclared_putRow stored known fun field inside => declared field ?_
    rw [left] at inside
    exact (effective_names_sublist _ _ _).subset inside

def OnlySets (e : Engine) (s : Store) (roots : List Event) : Prop :=
  ∀ event r turn, e.Reacts s roots event r turn → ∃ assignments, r.action = .set assignments

namespace OnlySets

variable {s : Store} {roots : List Event} {turn : Turn} (only : e.OnlySets s roots)

include only

theorem no_calls {name : Value} {call : ActionCall} : ¬e.Calls s roots name call turn := by
  rintro ⟨⟨before, reacts, -⟩, custom⟩
  obtain ⟨assignments, sets⟩ := only call.event call.rule before reacts
  cases custom.symm.trans sets

theorem no_acts {p : Procedure} : ¬e.Acts s roots p turn := by
  intro acts
  obtain ⟨name, call, first, called⟩ := acts.exists_calls
  exact only.no_calls called

theorem keeps_addsDeclared :
    e.Keeps s roots (Order.Preimage Turn.store (Store.AddsDeclared e.catalog)) where
  refl _ := refl _
  trans _ _ _ first later := IsTrans.trans _ _ _ first later
  look _ _ _ := .of_tables rfl
  write target updates turn asked := by
    cases asked with
    | custom acts => exact (only.no_acts acts).elim
    | set _ _ _ known _ =>
      exact applyWrite_addsDeclared (Catalog.get?_of_require known)
        (fun _ inside => declares_of_updatesFor inside) turn
  change _ _ _ acts _ := (only.no_acts acts).elim
  emit _ _ _ acts := (only.no_acts acts).elim
  enter turn := .of_tables (Store.sameRows_enter turn.store)
  leave _ _ _ acts := (only.no_acts acts).elim
  answer _ _ _ _ _ calls _ := (only.no_calls calls).elim

theorem propagate_addsDeclared :
    s.AddsDeclared e.catalog (exec (e.propagate roots) s).2 := by
  rw [exec_propagate]
  exact only.keeps_addsDeclared.drain fun turn => Store.AddsDeclared.of_tables rfl

end OnlySets

/-- Whatever schemas and rules were added in whatever order, the target schemas of every reaction
can be told. The records that it acts on belong to them, and what it sets in a record is declared by
the schema of the record. A cascade of such reactions adds declared fields only to stored rows,
whether it comes to an end or fails. -/
theorem sets_only_declared_fields (filled : RuleBook.Filled e.catalog e.rules) :
    (∀ r ∈ e.rules.reactions, ∃ names, RuleBook.targetSchemas e.catalog r = .ok names ∧
      ∀ event turn targets after, r.schema.names event.schema = true →
        exec (e.targetsOf r event) turn = (.ok targets, after) → ∀ target ∈ targets,
          (∃ name ∈ names, name.names target.schema = true) ∧
          ∀ assignments definition, r.action = .set assignments →
            e.catalog.require target.schema = .ok definition →
            ∀ field ∈ (updatesFor definition assignments (Scene.ofEvent event)).names,
              definition.declares field = true) ∧
    ∀ s roots, e.OnlySets s roots → s.AddsDeclared e.catalog (exec (e.propagate roots) s).2 := by
  refine ⟨fun r listed => ?_, fun s roots only => only.propagate_addsDeclared⟩
  obtain ⟨names, known⟩ := filled.placed r listed
  refine ⟨names, known, fun event turn targets after matched ran target member => ⟨?_, ?_⟩⟩
  · exact RuleBook.mayTarget_of_related matched (congrArg Prod.fst ran) member names known
  · exact fun _ _ _ _ _ inside => declares_of_updatesFor inside

def labelling : Reaction where
  schema := .text "Box"
  event := .modified
  scope := .child
  action := .set [("label", .value (.text "moved"))]

/-- Boxes with folders, which have labels, and files, which have none and came later. -/
def labelled : Engine where
  catalog :=
    let box : Field := { name := "box", kind := .known .reference, refer := .text "Box" }
    let label : Field := { name := "label", kind := .known .text }
    { schemas := [(.text "Box", { name := .text "Box" }),
        (.text "Folder", { name := .text "Folder", fields := [box, label] }),
        (.text "File", { name := .text "File", fields := [box] })]
      edges := [⟨.text "Box", .text "Folder", box⟩, ⟨.text "Box", .text "File", box⟩] }
  rules :=
    { reactions := [labelling]
      reactionReaches := [((.text "Box", .modified), Reach.ofPaths [])] }

theorem labelled_filled : RuleBook.Filled labelled.catalog labelled.rules := by
  let box : Field := { name := "box", kind := .known .reference, refer := .text "Box" }
  let label : Field := { name := "label", kind := .known .text }
  let boxes : Schema := { name := .text "Box" }
  let folders : Schema := { name := .text "Folder", fields := [box, label] }
  let files : Schema := { name := .text "File", fields := [box] }
  have added : RuleBook.addReaction {} (exec (Catalog.register folders)
    (exec (Catalog.register boxes) {}).2).2 labelling = .ok labelled.rules := rfl
  exact (((RuleBook.Filled.empty.schema boxes).schema folders).reaction added).schema files

theorem labelled_onlySets (s : Store) (roots : List Event) : labelled.OnlySets s roots := by
  intro event r turn reacts
  obtain rfl : r = labelling := List.mem_singleton.mp reacts.mem.1
  exact ⟨_, rfl⟩

theorem sets_only_declared_fields_labelled :
    let folder : Record := ⟨.text "Folder", .text "f", [("box", .text "b")]⟩
    let file : Record := ⟨.text "File", .text "g", [("box", .text "b")]⟩
    let s : Store :=
      { tables := [(.text "Box", [(.text "b", [])]), (.text "Folder", [(folder.id, folder.data)]),
          (.text "File", [(file.id, file.data)])] }
    let event := Event.modifiedOf ⟨.text "Box", .text "b", []⟩ ["size"]
    (exec (labelled.targetsOf labelling event) { store := s }).1 = .ok [folder, file] ∧
      RuleBook.targetSchemas labelled.catalog labelling = .ok [.text "Folder", .text "File"] ∧
      (∀ target ∈ [folder, file], ∃ name ∈ [Value.text "Folder", .text "File"],
        name.names target.schema = true) ∧
      s.AddsDeclared labelled.catalog (exec (labelled.propagate [event]) s).2 := by
  intro folder file s event
  obtain ⟨each, cascades⟩ := sets_only_declared_fields labelled_filled
  obtain ⟨names, known, below⟩ := each labelling (List.mem_singleton.mpr rfl)
  have told : RuleBook.targetSchemas labelled.catalog labelling =
    .ok [.text "Folder", .text "File"] := rfl
  obtain rfl := Except.ok.inj (told.symm.trans known)
  have found : (exec (labelled.targetsOf labelling event) { store := s }).1 =
    .ok [folder, file] := rfl
  refine ⟨found, told, fun target member => ?_, cascades s [event] (labelled_onlySets s [event])⟩
  exact (below event { store := s } [folder, file] _ rfl (Prod.ext found rfl) target member).1

end Engine

end RecordRules
