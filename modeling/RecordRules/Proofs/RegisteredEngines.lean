import RecordRules.Proofs.EditedShapes

/-!
Engines to which definitions have been added, one after another, whether each was accepted or not.
What they hold fits together. Main statements: every reference between schemas is recorded as an
edge, in order of declaration; and every augmentation is one of a schema that is there, with aliases
that are neither fields of the schema nor equal, for children that refer to it.
-/
namespace RecordRules

open Step

namespace Catalog

variable {c : Catalog}

/-- The edges are those of the schemas, and they are all there if all references name a key. -/
structure Linked (c : Catalog) : Prop where
  edges : ∀ edge ∈ c.edges, Key.ofValue edge.field.refer = .ok edge.parent ∧
    ∃ s, (edge.child, s) ∈ c.schemas ∧ edge.field ∈ s.referFields
  complete : ∀ key s, (key, s) ∈ c.schemas →
    (∀ f ∈ s.referFields, ∃ parent, Key.ofValue f.refer = .ok parent) →
      (c.edges.filter fun edge => edge.child == key).map Edge.field = s.referFields

theorem addEdges_edges (child : Key) (fields : List Field) (c : Catalog) :
    ∃ more, (exec (addEdges child fields) c).2.edges = c.edges ++ more ∧
      (∀ edge ∈ more, edge.child = child ∧ edge.field ∈ fields ∧
        Key.ofValue edge.field.refer = .ok edge.parent) ∧
      ((∀ f ∈ fields, ∃ parent, Key.ofValue f.refer = .ok parent) →
        more.map Edge.field = fields) := by
  induction fields generalizing c with
  | nil => exact ⟨[], (List.append_nil _).symm, by simp, fun _ => rfl⟩
  | cons f rest ih =>
    rw [addEdges, exec_bind, exec_ofExcept]
    cases named : Key.ofValue f.refer with
    | error failure =>
      refine ⟨[], (List.append_nil _).symm, by simp, fun all => ?_⟩
      obtain ⟨parent, given⟩ := all f List.mem_cons_self
      rw [named] at given
      cases given
    | ok parent =>
      simp only [exec_bind, exec_modify]
      obtain ⟨more, edges, each, complete⟩ :=
        ih { c with edges := c.edges ++ [⟨parent, child, f⟩] }
      refine ⟨⟨parent, child, f⟩ :: more, by rw [edges, List.append_assoc]; rfl, ?_, ?_⟩
      · rw [List.forall_mem_cons]
        refine ⟨⟨rfl, List.mem_cons_self, named⟩, fun edge listed => ?_⟩
        obtain ⟨same, among, given⟩ := each edge listed
        exact ⟨same, List.mem_cons_of_mem f among, given⟩
      · intro all
        rw [List.map_cons, complete fun g listed => all g (List.mem_cons_of_mem f listed)]

theorem register_cases (s : Schema) (c : Catalog) :
    (exec (register s) c).2 = c ∨ ∃ name, Key.ofValue s.name = .ok name ∧ c.has name = false ∧
      (exec (register s) c).2 =
        (exec (addEdges name s.referFields) { c with schemas := c.schemas ++ [(name, s)] }).2 := by
  rw [register, exec_bind, exec_get]
  dsimp only
  split
  · exact .inl rfl
  · rw [exec_bind, exec_ofExcept]
    cases Key.ofValue s.name with
    | error failure => exact .inl rfl
    | ok name =>
      dsimp only
      split
      · exact .inl rfl
      · rename_i fresh
        rw [exec_bind, exec_set]
        exact .inr ⟨name, rfl, Bool.not_eq_true _ ▸ fresh, rfl⟩

theorem ne_of_not_has {name : Key} (fresh : c.has name = false) {key : Key} {s : Schema}
    (listed : (key, s) ∈ c.schemas) : (key == name) = false := by
  rw [← Bool.not_eq_true]
  intro same
  have known : c.has name = true := Keyed.isSome_find?_of_mem listed same
  rw [fresh] at known
  cases known

theorem Registered.apart (registered : c.Registered) :
    c.schemas.Pairwise fun entry other => (entry.1 == other.1) = false := by
  induction registered with
  | empty => exact .nil
  | @register c s _ _ ih =>
    rcases register_cases s c with same | ⟨name, named, fresh, added⟩
    · rwa [same]
    · rw [added, show (exec (addEdges name s.referFields) _).2.schemas = _ from
        addEdges_moves name s.referFields _]
      refine List.pairwise_append.mpr
        ⟨ih, List.pairwise_singleton _ _, fun entry old other new => ?_⟩
      rw [List.mem_singleton.mp new]
      exact ne_of_not_has fresh old
  | @freeze c _ ih =>
    rwa [show (exec Catalog.freeze c).2.schemas = c.schemas from freeze_moves c]

theorem Registered.eq_of_same (registered : c.Registered) {key other : Key} {s t : Schema}
    (listed : (key, s) ∈ c.schemas) (also : (other, t) ∈ c.schemas)
    (same : (key == other) = true) : key = other ∧ s = t := by
  obtain ⟨i, first, found⟩ := List.getElem_of_mem listed
  obtain ⟨j, second, present⟩ := List.getElem_of_mem also
  have apart := List.pairwise_iff_getElem.mp registered.apart
  rcases Nat.lt_trichotomy i j with before | rfl | after
  · have unlike := apart i j first second before
    rw [found, present, same] at unlike
    cases unlike
  · exact Prod.mk.inj (found.symm.trans present)
  · have unlike := apart j i second first after
    rw [found, present, BEq.comm, same] at unlike
    cases unlike

theorem Registered.get?_of_mem (registered : c.Registered) {key other : Key} {s : Schema}
    (listed : (key, s) ∈ c.schemas) (same : (key == other) = true) : c.get? other = some s := by
  obtain ⟨t, found⟩ := Option.isSome_iff_exists.mp (Keyed.isSome_find?_of_mem listed same)
  obtain ⟨own, equal, among⟩ := Keyed.mem_of_find? found
  obtain ⟨-, rfl⟩ := registered.eq_of_same listed among
    (PartialEquivBEq.trans same (BEq.symm equal))
  exact found

theorem freeze_edges (c : Catalog) : (exec freeze c).2.edges = c.edges := by
  refine moves_get_bind (R := fun c d : Catalog => d.edges = c.edges) (fun c => ?_) c
  dsimp only
  split
  · rfl
  · cases c.computeFingerprint with
    | error failure => rfl
    | ok fingerprint => rfl

theorem Linked.register (linked : c.Linked) (s : Schema) :
    (exec (Catalog.register s) c).2.Linked := by
  rcases register_cases s c with same | ⟨name, named, fresh, added⟩
  · rwa [same]
  · have schemas : (exec (Catalog.register s) c).2.schemas = c.schemas ++ [(name, s)] := by
      rw [added]
      exact addEdges_moves name s.referFields _
    obtain ⟨more, edges, each, complete⟩ :=
      addEdges_edges name s.referFields { c with schemas := c.schemas ++ [(name, s)] }
    rw [← added] at edges
    have others : ∀ edge ∈ c.edges, (edge.child == name) = false := by
      intro edge listed
      obtain ⟨-, t, among, -⟩ := linked.edges edge listed
      exact ne_of_not_has fresh among
    constructor
    case edges =>
      rw [edges, schemas]
      intro edge listed
      rcases List.mem_append.mp listed with old | new
      · obtain ⟨given, t, among, declared⟩ := linked.edges edge old
        exact ⟨given, t, List.mem_append_left _ among, declared⟩
      · obtain ⟨same, declared, given⟩ := each edge new
        refine ⟨given, s, List.mem_append_right _ ?_, declared⟩
        rw [same]
        exact List.mem_cons_self
    case complete =>
      rw [edges, schemas]
      intro key t listed all
      rw [List.filter_append, List.map_append]
      rcases List.mem_append.mp listed with old | new
      · have apart : more.filter (fun edge => edge.child == key) = [] := by
          rw [List.filter_eq_nil_iff]
          intro edge inside
          rw [(each edge inside).1, BEq.comm, ne_of_not_has fresh old]
          exact Bool.false_ne_true
        rw [apart, linked.complete key t old all]
        exact List.append_nil _
      · cases List.mem_singleton.mp new
        have apart : c.edges.filter (fun edge => edge.child == name) = [] := by
          rw [List.filter_eq_nil_iff]
          intro edge inside
          rw [others edge inside]
          exact Bool.false_ne_true
        have whole : more.filter (fun edge => edge.child == name) = more := by
          rw [List.filter_eq_self]
          intro edge inside
          rw [(each edge inside).1]
          exact BEq.rfl
        rw [apart, whole, complete all]
        rfl

theorem Registered.linked (registered : c.Registered) : c.Linked := by
  induction registered with
  | empty =>
    constructor
    case edges => exact fun _ listed => by cases listed
    case complete => exact fun _ _ listed => by cases listed
  | register _ _ ih => exact ih.register _
  | @freeze c _ ih =>
    have schemas : (exec Catalog.freeze c).2.schemas = c.schemas := freeze_moves c
    constructor
    case edges =>
      rw [schemas, freeze_edges]
      exact ih.edges
    case complete =>
      rw [schemas, freeze_edges]
      exact ih.complete

end Catalog

/-- An augmentation fits the catalog: its aliases are no fields of its schema and no two are the
same, and the schemas of the children refer to the schema. -/
structure Augmentation.Fits (c : Catalog) (a : Augmentation) : Prop where
  separates : c.Separates a
  aliases : a.children.Pairwise fun r q => r.key.same q.key = false
  refers : ∀ r ∈ a.children, ∃ key child, Key.ofValue r.schema = .ok key ∧
    c.get? key = some child ∧ child.fields.any (fun f => f.refersTo a.schema) = true

namespace Augmentation

variable {a : Augmentation} {c next : Catalog}

theorem Fits.mono (grows : c.Grows next) (fits : a.Fits c) : a.Fits next where
  separates := fits.separates.mono grows
  aliases := fits.aliases
  refers r child := by
    obtain ⟨key, s, named, found, refers⟩ := fits.refers r child
    exact ⟨key, s, named, grows key s found, refers⟩

theorem pairwise_of_keys {values : List Value} {keys : List Key}
    (named : values.mapM Key.ofValue = .ok keys)
    (apart : keys.Pairwise fun x y => (x == y) = false) :
    values.Pairwise fun v w => v.same w = false := by
  induction values generalizing keys with
  | nil => exact .nil
  | cons v rest ih =>
    rw [List.mapM_cons] at named
    obtain ⟨key, first, named⟩ := bind_eq_ok.mp named
    obtain ⟨others, later, named⟩ := bind_eq_ok.mp named
    obtain rfl := Except.ok.inj named
    obtain ⟨here, apart⟩ := List.pairwise_cons.mp apart
    refine List.pairwise_cons.mpr ⟨fun w listed => ?_, ih later apart⟩
    obtain ⟨other, among, given⟩ := exists_mem_of_mapM later listed
    rw [Key.eq_of_ofValue given]
    exact (Value.names_of_key first other).trans (here other among)

theorem aliases_of_check {given : Augmentation} (checked : given.check = .ok a) :
    a.children.Pairwise fun r q => r.key.same q.key = false := by
  obtain ⟨aliases, named, checked⟩ := bind_eq_ok.mp checked
  split at checked
  · cases checked
  · rename_i whole
    obtain rfl : given = a := Except.ok.inj checked
    have apart := Text.pairwise_of_length_distinct (not_not.mp whole)
    exact List.pairwise_map.mp (pairwise_of_keys named apart)

theorem refers_of_checkChild {s : Schema} {r : ChildRequirement}
    (checked : ContractBook.checkChild c a s r = .ok ()) : ∃ key child,
      Key.ofValue r.schema = .ok key ∧ c.get? key = some child ∧
        child.fields.any (fun f => f.refersTo a.schema) = true := by
  unfold ContractBook.checkChild at checked
  obtain ⟨found, named, checked⟩ := bind_eq_ok.mp checked
  obtain ⟨key, given, looked⟩ := bind_eq_ok.mp named
  obtain rfl := Except.ok.inj looked
  cases present : c.get? key with
  | none =>
    rw [present] at checked
    cases checked
  | some child =>
    rw [present] at checked
    dsimp only at checked
    split at checked
    · cases checked
    · rename_i refers
      exact ⟨key, child, given, present, by simpa using refers⟩

theorem fits_of_check {definition : Value}
    (given : Engine.onObject Augmentation.ofValue definition = .ok a)
    (checked : ContractBook.checkAugmentation c a = .ok ()) : a.Fits c := by
  constructor
  case separates => exact ContractBook.separates_of_check checked
  case aliases =>
    obtain ⟨_, -, given⟩ := bind_eq_ok.mp given
    unfold ofValue at given
    obtain ⟨parts, -, given⟩ := bind_eq_ok.mp given
    obtain ⟨schema, -, given⟩ := bind_eq_ok.mp given
    obtain ⟨named, -, given⟩ := bind_eq_ok.mp given
    obtain ⟨target, -, given⟩ := bind_eq_ok.mp given
    obtain ⟨placement, -, given⟩ := bind_eq_ok.mp given
    obtain ⟨select, -, given⟩ := bind_eq_ok.mp given
    obtain ⟨refers, -, given⟩ := bind_eq_ok.mp given
    obtain ⟨children, -, given⟩ := bind_eq_ok.mp given
    exact aliases_of_check given
  case refers =>
    unfold ContractBook.checkAugmentation at checked
    obtain ⟨found, -, checked⟩ := bind_eq_ok.mp checked
    cases found with
    | none => cases checked
    | some s =>
      dsimp only at checked
      split at checked
      · cases checked
      · exact fun r child => refers_of_checkChild (forM_eq_ok.mp checked r child)

end Augmentation

namespace Engine

/-- Engines to which definitions have been added, and whose registration may have been ended,
whether each time with success or not. -/
inductive Registered : Engine → Prop where
  | start (settings : Settings) : Registered { settings }
  | schema {e : Engine} (before : Registered e) (definition : Value) :
      Registered (exec (addSchema definition) e).2
  | reaction {e : Engine} (before : Registered e) (definition : Value) :
      Registered (exec (addReaction definition) e).2
  | stateRule {e : Engine} (before : Registered e) (definition : Value) :
      Registered (exec (addStateRule definition) e).2
  | augmentation {e : Engine} (before : Registered e) (definition : Value) :
      Registered (exec (addAugmentation definition) e).2
  | action {e : Engine} (before : Registered e) (name : Value) (action : Option ActionFn) :
      Registered (exec (addAction name action) e).2
  | freeze {e : Engine} (before : Registered e) : Registered (exec Engine.freeze e).2

theorem Runs.registered {e : Engine} {s : Store} (runs : e.Runs s) : e.Registered := by
  induction runs with
  | start settings => exact .start settings
  | @schema _ _ _ definition _ _ ran ih =>
    have added := ih.schema definition
    rwa [ran] at added
  | @stateRule _ _ _ definition _ _ ran ih =>
    have added := ih.stateRule definition
    rwa [ran] at added
  | @augmentation _ _ _ definition _ _ ran ih =>
    have added := ih.augmentation definition
    rwa [ran] at added
  | @action _ _ _ name action _ ran ih =>
    have added := ih.action name action
    rwa [ran] at added
  | freeze _ ran ih =>
    have frozen := ih.freeze
    rwa [ran] at frozen
  | call _ _ ih => exact ih

def SameContracts (e next : Engine) : Prop :=
  next.catalog = e.catalog ∧ next.contracts = e.contracts

instance : IsPreorder Engine SameContracts where
  refl _ := ⟨rfl, rfl⟩
  trans _ _ _ first later := ⟨later.1.trans first.1, later.2.trans first.2⟩

theorem addReaction_moves (definition : Value) : Moves SameContracts (addReaction definition) := by
  refine moves_bind (moves_ofExcept _) fun r => moves_get_bind fun e => ?_
  cases e.rules.addReaction e.catalog r with
  | error failure => exact ⟨rfl, rfl⟩
  | ok rules => exact ⟨rfl, rfl⟩

theorem addStateRule_moves (definition : Value) :
    Moves SameContracts (addStateRule definition) := by
  refine moves_bind (moves_ofExcept _) fun r => moves_get_bind fun e => ?_
  rw [exec_bind, exec_ofExcept]
  split
  · rename_i rules next ran
    rw [← (Prod.mk.inj ran).2]
    exact ⟨rfl, rfl⟩
  · rename_i failure next ran
    rw [← (Prod.mk.inj ran).2]
    exact ⟨rfl, rfl⟩

structure Fits (e : Engine) : Prop where
  catalog : e.catalog.Registered
  rules : e.rules.Registered
  augmentations : ∀ a ∈ e.contracts.augmentations, a.Fits e.catalog

namespace Fits

variable {e : Engine}

theorem start (settings : Settings) : Fits { settings } where
  catalog := .empty
  rules := .empty
  augmentations _ listed := by cases listed

theorem addSchema (fits : e.Fits) (definition : Value) :
    (exec (Engine.addSchema definition) e).2.Fits := by
  rw [Engine.addSchema, exec_bind, exec_ofExcept]
  cases given : Schema.ofValue definition with
  | error failure => exact fits
  | ok s =>
    have known := Catalog.Registered.register fits.catalog (.of_ofValue given)
    have grows := Catalog.grows_register s e.catalog
    have kept : Fits { e with catalog := (exec (Catalog.register s) e.catalog).2 } :=
      ⟨known, fits.rules, fun a listed => (fits.augmentations a listed).mono grows⟩
    dsimp only
    rw [exec_bind, exec_within]
    cases (exec (Catalog.register s) e.catalog).1 with
    | error failure => exact kept
    | ok _ => exact kept

theorem addReaction (fits : e.Fits) (definition : Value) :
    (exec (Engine.addReaction definition) e).2.Fits := by
  obtain ⟨catalog, contracts⟩ := addReaction_moves definition e
  refine ⟨?_, addReaction_registered fits.rules definition, ?_⟩
  · rw [catalog]
    exact fits.catalog
  · rw [catalog, contracts]
    exact fits.augmentations

theorem addStateRule (fits : e.Fits) (definition : Value) :
    (exec (Engine.addStateRule definition) e).2.Fits := by
  obtain ⟨catalog, contracts⟩ := addStateRule_moves definition e
  refine ⟨?_, addStateRule_registered fits.rules definition, ?_⟩
  · rw [catalog]
    exact fits.catalog
  · rw [catalog, contracts]
    exact fits.augmentations

theorem addAugmentation (fits : e.Fits) (definition : Value) :
    (exec (Engine.addAugmentation definition) e).2.Fits := by
  rw [Engine.addAugmentation, exec_bind, exec_ofExcept]
  cases given : onObject Augmentation.ofValue definition with
  | error failure => exact fits
  | ok a =>
    simp only [exec_bind, exec_get, exec_ofExcept]
    cases added : e.contracts.add e.catalog a with
    | error failure => exact fits
    | ok contracts =>
      obtain ⟨checked, more⟩ := ContractBook.of_add_ok added
      refine ⟨fits.catalog, fits.rules, fun other listed => ?_⟩
      have among : other ∈ contracts.augmentations := listed
      rw [more] at among
      rcases List.mem_append.mp among with old | new
      · exact fits.augmentations other old
      · rw [List.mem_singleton.mp new]
        exact Augmentation.fits_of_check given checked

theorem addAction (fits : e.Fits) (name : Value) (action : Option ActionFn) :
    (exec (Engine.addAction name action) e).2.Fits := by
  rw [Engine.addAction, exec_bind, exec_get]
  dsimp only
  rw [exec_bind, exec_ofExcept]
  cases e.actions.add name action with
  | error failure => exact fits
  | ok actions => exact ⟨fits.catalog, fits.rules, fits.augmentations⟩

theorem freezeCatalog_moves : Moves (Stays Fits) Engine.freezeCatalog := by
  refine moves_get_bind fun e fits => ?_
  cases e.catalog.fingerprint with
  | some fingerprint => exact fits
  | none =>
    dsimp only
    rw [exec_within]
    have grows := Catalog.grows_freeze e.catalog
    exact ⟨.freeze fits.catalog, fits.rules,
      fun a listed => (fits.augmentations a listed).mono grows⟩

theorem freeze (fits : e.Fits) : (exec Engine.freeze e).2.Fits := by
  have moves : Moves (Stays Fits) Engine.freeze := by
    refine moves_bind moves_get fun _ => moves_bind (moves_ofExcept _) fun _ => ?_
    refine moves_ite (moves_throw _) (moves_bind freezeCatalog_moves fun _ => ?_)
    refine moves_bind (moves_modify fun e fits => ?_) fun _ => ?_
    · exact ⟨fits.catalog, fits.rules, fits.augmentations⟩
    refine moves_bind (moves_modify fun e fits => ?_) fun _ => ?_
    · exact ⟨fits.catalog, .freeze fits.rules, fits.augmentations⟩
    refine moves_bind (moves_modify fun e fits => ?_) fun _ => ?_
    · exact ⟨fits.catalog, fits.rules, fits.augmentations⟩
    refine moves_bind (moves_modify fun e fits => ?_) fun _ => moves_pure _
    · exact ⟨fits.catalog, fits.rules, fits.augmentations⟩
  exact moves e fits

end Fits

theorem Registered.fits {e : Engine} (registered : e.Registered) : e.Fits := by
  induction registered with
  | start settings => exact .start settings
  | schema _ definition ih => exact ih.addSchema definition
  | reaction _ definition ih => exact ih.addReaction definition
  | stateRule _ definition ih => exact ih.addStateRule definition
  | augmentation _ definition ih => exact ih.addAugmentation definition
  | action _ name action ih => exact ih.addAction name action
  | freeze _ ih => exact ih.freeze

theorem Runs.schema_of_read {e : Engine} {s : Store} (before : e.Runs s) {definition : Value}
    {added : Schema} (read : Schema.ofValue definition = .ok added) {catalog : Catalog}
    (registered : exec (Catalog.register added) e.catalog = (.ok (), catalog)) :
    ({ e with catalog } : Engine).Runs s := by
  refine .schema before (show exec (addSchema definition) e = (.ok added, _) from ?_)
  unfold addSchema
  rw [read, exec_ofExcept_bind_eq_ok]
  refine ⟨added, rfl, ?_⟩
  rw [exec_bind, exec_within, registered]
  rfl

/-- Folders in folders, which are created and viewed with what is in them. -/
def folders : Engine where
  catalog :=
    let title : Field := { name := "title", kind := .known .text, default := .text "new" }
    let within : Field := { name := "within", kind := .known .reference, refer := .text "Folder" }
    { schemas := [(.text "Folder", { name := .text "Folder", fields := [title, within] })]
      edges := [⟨.text "Folder", .text "Folder", within⟩] }
  contracts :=
    { augmentations := [Target.create, Target.view].map fun target =>
        { schema := .text "Folder", target
          children := [{ schema := .text "Folder", key := .text "folders" }] } }

def folderDefinition : Value := .object [("name", .text "Folder"), ("fields",
  .list [.object [("name", .text "title"), ("default", .text "new")],
    .object [("name", .text "within"), ("refer", .text "Folder")]])]

theorem folderDefinition_read :
    let title : Field := { name := "title", kind := .known .text, default := .text "new" }
    let within : Field := { name := "within", kind := .known .reference, refer := .text "Folder" }
    Schema.ofValue folderDefinition =
      .ok { name := .text "Folder", fields := [title, within] } := by
  intro title within
  let given : List Value := [.object [("name", .text "title"), ("default", .text "new")],
    .object [("name", .text "within"), ("refer", .text "Folder")]]
  have fields : given.mapM Field.ofValue = .ok [title, within] := by
    have first : title.check = .ok title := by
      simp [title, Field.check, Field.isOf, GivenKind.isKind, Field.target?, Field.checkBounds,
        Value.isTrue, Value.isNull]
    have second : within.check = .ok within := by
      simp [within, Field.check, Field.isOf, GivenKind.isKind, Field.target?, Field.checkBounds,
        Value.isTrue, Value.isNull]
    change (do return [← title.check, ← within.check]) = _
    rw [first, second]
    rfl
  change (given.mapM Field.ofValue >>= fun fields =>
    Schema.check { name := .text "Folder", fields }) = _
  rw [fields]
  rfl

theorem folders_schema_runs : ({ folders with contracts := {} } : Engine).Runs {} :=
  (Runs.start {}).schema_of_read folderDefinition_read rfl

theorem folders_runs : folders.Runs {} := by
  let nested (target : String) : Value := .object [("schema", .text "Folder"),
    ("target", .text target),
    ("refers", .list [.object [("schema", .text "Folder"), ("alias", .text "folders")]])]
  let child : ChildRequirement := { schema := .text "Folder", key := .text "folders" }
  let creates : Augmentation := { schema := .text "Folder", target := .create, children := [child] }
  have first : exec (addAugmentation (nested "toCreate")) { folders with contracts := {} } =
      (.ok creates, { folders with contracts := { augmentations := [creates] } }) := rfl
  exact (folders_schema_runs.augmentation first).augmentation
    (show exec (addAugmentation (nested "toView")) _ = (.ok _, folders) from rfl)

theorem folders_registered : folders.Registered := folders_runs.registered

end Engine

end RecordRules
