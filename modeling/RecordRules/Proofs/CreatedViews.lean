import RecordRules.Proofs.EndlessViews
import RecordRules.Proofs.ReachedRows
import RecordRules.Proofs.ViewedTrees

/-!
Views of created payloads. Main statement: where the rules for creating and viewing mirror each
other, and nothing else mentions the ids that a creation issues, the view of what was created is its
payload, completed by ids, empty states, defaults and references to parents.
-/
namespace RecordRules

open Step

namespace Engine

variable {e : Engine} {s t : Store}

theorem text_of_insert {c : Catalog} {schema : Key} {data : Entries} {r : Record}
    (ran : exec (Store.insert c schema data) s = (.ok r, t)) : ∃ name, schema = .text name := by
  unfold Store.insert Store.note at ran
  rw [exec_bind, exec_modify] at ran
  obtain ⟨_, -, ran⟩ := exec_ofExcept_bind_eq_ok.mp ran
  obtain ⟨id, issued, chosen, -⟩ := exec_bind_eq_ok.mp ran
  cases schema with
  | text name => exact ⟨name, rfl⟩
  | _ => cases chosen

theorem text_of_create {schema : Key} {payload : Value} {placement : Placement} {m : Mutation}
    (ran : exec (e.create schema payload placement) s = (.ok m, t)) :
    ∃ name, m.record.schema = .text name := by
  obtain ⟨contract, tree, records, start, cascade, ended, -, -, inserted, -, rfl, -⟩ :=
    create_eq_ok.mp ran
  obtain ⟨k, location, data, groups⟩ := tree
  obtain ⟨r, middle, row, inserted⟩ := exec_bind_eq_ok.mp inserted
  obtain ⟨below, after, -, answered⟩ := exec_bind_eq_ok.mp inserted
  obtain rfl := Except.ok.inj (Prod.mk.inj answered).1
  obtain ⟨name, -, row⟩ := exec_ofExcept_bind_eq_ok.mp row
  obtain ⟨state, looked, -, row⟩ := exec_bind_eq_ok.mp row
  obtain ⟨_, -, row⟩ := exec_ofExcept_bind_eq_ok.mp row
  obtain ⟨text, rfl⟩ := text_of_insert row
  exact ⟨text, (Store.insert_adds row).1⟩

theorem eq_of_named (fits : e.Fits) {schema key : Key} {target : Target} {placement : Placement}
    {k : Contract} (composed : e.compose schema target placement = .ok k)
    (named : Key.ofValue k.schema.name = .ok key) {name : String} (text : key = .text name) :
    schema = key := by
  obtain ⟨definition, found, rfl⟩ := compose_eq_ok.mp composed
  rw [ContractBook.contractOf_schema] at named
  obtain ⟨own, same, present⟩ := Keyed.mem_of_find? found
  obtain rfl : own = key :=
    Except.ok.inj ((fits.catalog.checked own definition present).2.symm.trans named)
  subst text
  exact Key.eq_text same

/-- What is created by one contract is viewed by another one. -/
theorem reads_of_compose {schema : Key} {placement : Placement} {k : Contract}
    (composed : e.compose schema .create placement = .ok k) (shown : Placement) :
    ∃ v, e.compose schema .view shown = .ok v ∧ e.Reads k v := by
  obtain ⟨definition, found, rfl⟩ := compose_eq_ok.mp composed
  refine ⟨_, compose_eq_ok.mpr ⟨definition, found, rfl⟩, ?_⟩
  constructor
  case creates => exact composes_contractOf found _ _ _
  case create => exact ContractBook.contractOf_target _ _ _ _ _
  case shows => exact composes_contractOf found _ _ _
  case view => exact ContractBook.contractOf_target _ _ _ _ _
  case schema => rw [ContractBook.contractOf_schema, ContractBook.contractOf_schema]

theorem exec_require_bind_of_yields {schema id : Key} {data : Entries} {α : Type}
    {step : Record → Step Store α} {x : α} (stored : t.row? schema id = some data)
    (yields : Yields (Store.SameRows t) (step ⟨schema, id, data⟩) (.ok x)) :
    ∃ after, exec (Store.require schema id >>= step) t = (.ok x, after) := by
  have looked : Store.SameRows t { t with trace := t.trace ++ [(.get, schema)] } := rfl
  rw [exec_bind, Store.exec_require, stored]
  exact ⟨_, Prod.ext (yields _ looked).1 rfl⟩

theorem named_of_creates {k : Contract} {parent : Option Record} {item : Value}
    {records : List Record} {r : Record} (creates : e.Creates k parent item records)
    (head : records.head? = some r) : Key.ofValue k.schema.name = .ok r.schema := by
  cases creates with
  | object _ row _ => exact Option.some.inj head ▸ row.schema

theorem not_gives_nil {k : Contract} {v : Value} : ¬ e.Gives k (.object []) v := by
  intro gives
  cases gives with
  | own _ given => cases given
  | @nested _ _ child _ _ _ inside _ =>
    have nothing : ContractBook.given child.key [] = .null := by
      unfold ContractBook.given
      split <;> rfl
    rw [ChildRequirement.items, nothing] at inside
    cases inside

theorem folders_mirrors : folders.Mirrors := by
  constructor
  case alone =>
    intro a listed _
    obtain ⟨target, -, rfl⟩ := List.mem_map.mp listed
    exact ⟨rfl, rfl⟩
  case same =>
    intro schema
    unfold ContractBook.childrenOf ContractBook.ruleFor?
    cases names : (Value.text "Folder").names schema <;> simp [folders, names]
  case distinct =>
    intro a listed _
    obtain ⟨target, -, rfl⟩ := List.mem_map.mp listed
    exact List.pairwise_singleton _ _
  case single =>
    intro a listed _ r child key s named found
    obtain ⟨target, -, rfl⟩ := List.mem_map.mp listed
    obtain rfl := List.mem_singleton.mp child
    obtain rfl := Except.ok.inj named
    obtain rfl := Option.some.inj found
    rfl
  case fields =>
    intro key s listed
    cases List.mem_singleton.mp listed
    exact ⟨rfl, rfl⟩
  case aliases =>
    intro a listed _ r child
    obtain ⟨target, -, rfl⟩ := List.mem_map.mp listed
    obtain rfl := List.mem_singleton.mp child
    exact ⟨"folders", rfl, by decide, by decide⟩

theorem not_gives_twoFolders {k : Contract} {v : Value}
    (composed : folders.compose (.text "Folder") .create .alone = .ok k) :
    ¬ folders.Gives k twoFolders v := by
  obtain rfl := Except.ok.inj composed
  intro gives
  cases gives with
  | own declared given =>
    obtain rfl := List.mem_singleton.mp declared
    cases given
  | nested listed inside gives =>
    obtain rfl := List.mem_singleton.mp listed
    rcases List.mem_pair.mp inside with rfl | rfl
    · cases gives with
      | own declared given =>
        obtain rfl := List.mem_singleton.mp declared
        cases given
      | nested listed inside gives =>
        obtain rfl := List.mem_singleton.mp listed
        cases inside
    · exact not_gives_nil gives

/-- What is created can be viewed, and its view shows the payload, unless an id that is issued
occurs in a reference of an older row or of the payload, or as the default of a reference. -/
theorem view_create (e : Engine) (before : Store) (runs : e.Runs before) (mirrors : e.Mirrors)
    (stateless : e.rules.stateRules = []) (schema : Key) (payload : Value)
    (proper : payload.isProper = true) (placement : Placement) (k : Contract)
    (composed : e.compose schema .create placement = .ok k) (s t : Store) (m : Mutation)
    (ran : exec (e.create schema payload placement) s = (.ok m, t))
    (unused : ∀ name id, (t.row? name id).isSome = true → s.row? name id = none →
      e.SparesRows s id ∧ e.SparesDefaults id ∧ ∀ v, e.Gives k payload v → v.names id = false)
    (shown : Placement) :
    ∃ records view after, records.head? = some m.record ∧ s.Adds t records ∧
      exec (e.view schema m.record.id shown) t = (.ok view, after) ∧
      e.Shows k none payload records view := by
  obtain ⟨built, -⟩ := runs.fits
  have fits := runs.registered.fits
  have plain : e.Plain := ⟨fits, built.references, mirrors, stateless⟩
  obtain ⟨contract, cascade, records, also, composes, alone, -, head, creates, adds, -⟩ :=
    creates_of_create fits proper ran (unmatched_of_create built.quiet ran)
  obtain rfl : k = contract := Except.ok.inj (composed.symm.trans also)
  have spared (q : Record) (listed : q ∈ records) := unused q.schema q.id
    (adds.isSome_row? listed BEq.rfl) (adds.fresh q listed)
  have secluded : e.Secluded s t records := by
    refine ⟨adds, ?_, fun q listed => (spared q listed).1, fun q listed => (spared q listed).2.1⟩
    refine forall_of_creates fits (fun c parent entries r given row => ?_) creates composes
    exact ⟨c.schema, (given.get?_of_named fits row.schema).2⟩
  have closed : e.Sealed records [] records [] :=
    ⟨(List.append_nil _).symm, fun q absent => absurd absent List.not_mem_nil⟩
  obtain ⟨v, views, reads⟩ := reads_of_compose composed shown
  -- Any number of levels from that of the records on will do, and so will the one of the view.
  obtain ⟨r, view, first, yields, shows⟩ := views_of_creates plain secluded creates closed reads
    alone (fun p none => nomatch none) (fun x listed => (spared x listed).2.2)
    (Nat.le_max_left records.length (t.size + 1))
  obtain rfl : r = m.record := Option.some.inj (first.symm.trans head)
  have own : schema = m.record.schema := by
    obtain ⟨name, text⟩ := text_of_create ran
    exact eq_of_named fits composed (named_of_creates creates head) text
  have stored : t.row? schema m.record.id = some m.record.data := by
    rw [own]
    exact adds.row?_of_mem (List.mem_of_mem_head? head)
  have record : (⟨schema, m.record.id, m.record.data⟩ : Record) = m.record := by rw [own]
  rw [← record] at yields
  obtain ⟨after, answered⟩ := exec_require_bind_of_yields stored yields
  exact ⟨records, view, after, head, adds,
    exec_view_of_answer fits stored views (Nat.le_max_right _ _) answered, shows⟩

theorem view_create_folders : ∃ k m t records view after,
    folders.compose (.text "Folder") .create .alone = .ok k ∧
      exec (folders.create (.text "Folder") twoFolders .alone) {} = (.ok m, t) ∧
      records.head? = some m.record ∧ ({} : Store).Adds t records ∧
      exec (folders.view (.text "Folder") m.record.id) t = (.ok view, after) ∧
      folders.Shows k none twoFolders records view := by
  obtain ⟨cascade, t, rows, -, tables, names, ran⟩ := folders_create
  obtain ⟨k, composed⟩ : ∃ k, folders.compose (.text "Folder") .create .alone = .ok k := ⟨_, rfl⟩
  have issued : ∀ name id, (t.row? name id).isSome = true → ∃ text, id = .text text := by
    intro name id present
    obtain ⟨data, found⟩ := Option.isSome_iff_exists.mp present
    rw [Store.row?, Store.table, tables, Keyed.find?_cons] at found
    split at found
    · obtain ⟨own, same, inside⟩ := Keyed.mem_of_find? found
      have among : own ∈ rows.names := List.mem_map_of_mem inside
      rw [names] at among
      simp only [List.mem_cons, List.not_mem_nil, or_false] at among
      rcases among with rfl | rfl | rfl <;> exact ⟨_, Key.eq_text same⟩
    · cases found
  have unused : ∀ name id, (t.row? name id).isSome = true → ({} : Store).row? name id = none →
      folders.SparesRows {} id ∧ folders.SparesDefaults id ∧
        ∀ v, folders.Gives k twoFolders v → v.names id = false := by
    intro name id present _
    obtain ⟨text, rfl⟩ := issued name id present
    refine ⟨fun _ _ _ row absent => absurd absent List.not_mem_nil, ?_, fun v gives => ?_⟩
    · intro key definition listed f declared
      cases List.mem_singleton.mp listed
      obtain rfl := List.mem_singleton.mp declared
      rfl
    · exact absurd gives (not_gives_twoFolders composed)
  obtain ⟨records, view, after, head, adds, viewed, shows⟩ := view_create folders {} folders_runs
    folders_mirrors rfl (.text "Folder") twoFolders rfl .alone k composed {} t _ ran unused .alone
  exact ⟨k, _, t, records, view, after, composed, ran, head, adds, viewed, shows⟩

def boxes : Engine where
  catalog :=
    let box : Field := { name := "box", kind := .known .reference, refer := .text "Box" }
    let folder : Field :=
      { name := "folder", kind := .known .reference, refer := .text "Folder"
        default := .text "folder_000000000002" }
    { schemas := [(.text "Box", { name := .text "Box" }),
        (.text "Folder", { name := .text "Folder", fields := [box] }),
        (.text "File", { name := .text "File", fields := [box, folder] })]
      edges := [⟨.text "Box", .text "Folder", box⟩, ⟨.text "Box", .text "File", box⟩,
        ⟨.text "Folder", .text "File", folder⟩] }
  contracts :=
    let inFolders : ChildRequirement := { schema := .text "Folder", key := .text "folders" }
    let loose : ChildRequirement := { schema := .text "File", key := .text "loose" }
    let files : ChildRequirement := { schema := .text "File", key := .text "files" }
    { augmentations := [Target.create, Target.view].flatMap fun target =>
        [{ schema := .text "Box", target, children := [inFolders, loose] },
         { schema := .text "Folder", target, children := [files] }] }

theorem boxes_runs : boxes.Runs {} := by
  let box : Field := { name := "box", kind := .known .reference, refer := .text "Box" }
  let folder : Field :=
    { name := "folder", kind := .known .reference, refer := .text "Folder"
      default := .text "folder_000000000002" }
  let boxField : Value := .object [("name", .text "box"), ("refer", .text "Box")]
  let folderField : Value := .object [("name", .text "folder"), ("refer", .text "Folder"),
    ("default", .text "folder_000000000002")]
  let schema (name : String) (fields : List Value) : Value :=
    .object [("name", .text name), ("fields", .list fields)]
  have checkBox : box.check = .ok box := by
    simp [box, Field.check, Field.isOf, GivenKind.isKind, Field.target?, Field.checkBounds,
      Value.isTrue, Value.isNull]
  have checkFolder : folder.check = .ok folder := by
    simp [folder, Field.check, Field.isOf, GivenKind.isKind, Field.target?, Field.checkBounds,
      Value.isTrue, Value.isNull]
  have boxes_read : Schema.ofValue (schema "Box" []) = .ok { name := .text "Box" } := rfl
  have folders_read : Schema.ofValue (schema "Folder" [boxField]) =
      .ok { name := .text "Folder", fields := [box] } := by
    change ((do return [← box.check]) >>= fun fields =>
      Schema.check { name := .text "Folder", fields }) = _
    rw [checkBox]
    rfl
  have files_read : Schema.ofValue (schema "File" [boxField, folderField]) =
      .ok { name := .text "File", fields := [box, folder] } := by
    change ((do return [← box.check, ← folder.check]) >>= fun fields =>
      Schema.check { name := .text "File", fields }) = _
    rw [checkBox, checkFolder]
    rfl
  let augmentation (name target : String) (refers : List (String × String)) : Value :=
    .object [("schema", .text name), ("target", .text target),
      ("refers", .list (refers.map fun entry =>
        .object [("schema", .text entry.1), ("alias", .text entry.2)]))]
  let inBoxes := [("Folder", "folders"), ("File", "loose")]
  let inFolders := [("File", "files")]
  have schemas : ({ boxes with contracts := {} } : Engine).Runs {} :=
    ((Runs.start {}).schema_of_read boxes_read rfl
      |>.schema_of_read folders_read rfl).schema_of_read files_read rfl
  have one := schemas.augmentation
    (show exec (addAugmentation (augmentation "Box" "toCreate" inBoxes)) _ = (.ok _, _) from rfl)
  have two := one.augmentation
    (show exec (addAugmentation (augmentation "Folder" "toCreate" inFolders)) _ = (.ok _, _) from
      rfl)
  have three := two.augmentation
    (show exec (addAugmentation (augmentation "Box" "toView" inBoxes)) _ = (.ok _, _) from rfl)
  exact three.augmentation
    (show exec (addAugmentation (augmentation "Folder" "toView" inFolders)) _ = (.ok _, boxes) from
      rfl)

theorem boxes_mirrors : boxes.Mirrors := by
  constructor
  case alone =>
    intro a listed _
    obtain ⟨target, -, inside⟩ := List.mem_flatMap.mp listed
    rcases List.mem_pair.mp inside with rfl | rfl <;> exact ⟨rfl, rfl⟩
  case same =>
    intro schema
    unfold ContractBook.childrenOf ContractBook.ruleFor?
    cases box : (Value.text "Box").names schema <;>
      cases folder : (Value.text "Folder").names schema <;> simp [boxes, box, folder]
  case distinct =>
    intro a listed _
    obtain ⟨target, -, inside⟩ := List.mem_flatMap.mp listed
    rcases List.mem_pair.mp inside with rfl | rfl
    · exact .cons (List.forall_mem_singleton.mpr rfl) (List.pairwise_singleton _ _)
    · exact List.pairwise_singleton _ _
  case single =>
    intro a listed _ r child key s named found
    obtain ⟨target, -, inside⟩ := List.mem_flatMap.mp listed
    rcases List.mem_pair.mp inside with rfl | rfl
    · rcases List.mem_pair.mp child with rfl | rfl <;>
      · obtain rfl := Except.ok.inj named
        obtain rfl := Option.some.inj found
        rfl
    · obtain rfl := List.mem_singleton.mp child
      obtain rfl := Except.ok.inj named
      obtain rfl := Option.some.inj found
      rfl
  case fields =>
    intro key s listed
    rcases List.mem_cons.mp listed with same | later
    · cases same
      exact ⟨rfl, rfl⟩
    · rcases List.mem_pair.mp later with same | same <;>
      · cases same
        exact ⟨rfl, rfl⟩
  case aliases =>
    intro a listed _ r child
    obtain ⟨target, -, inside⟩ := List.mem_flatMap.mp listed
    rcases List.mem_pair.mp inside with rfl | rfl
    · rcases List.mem_pair.mp child with rfl | rfl
      · exact ⟨"folders", rfl, by decide, by decide⟩
      · exact ⟨"loose", rfl, by decide, by decide⟩
    · obtain rfl := List.mem_singleton.mp child
      exact ⟨"files", rfl, by decide, by decide⟩

def oneEach : Value := .object [("folders", .list [.object []]), ("loose", .list [.object []])]

def filed (trace : List (Access × Key)) : Store where
  tables := [(.text "Box", [(.text "box_000000000001", [])]),
    (.text "Folder", [(.text "folder_000000000002", [("box", .text "box_000000000001")])]),
    (.text "File", [(.text "file_000000000003",
      [("folder", .text "folder_000000000002"), ("box", .text "box_000000000001")])])]
  issued := 3
  trace

theorem boxes_create : ∃ cascade trace, exec (boxes.create (.text "Box") oneEach .alone) {} =
    (.ok ⟨⟨.text "Box", .text "box_000000000001", []⟩, some cascade⟩, filed trace) := by
  let box : Field := { name := "box", kind := .known .reference, refer := .text "Box" }
  let folder : Field :=
    { name := "folder", kind := .known .reference, refer := .text "Folder"
      default := .text "folder_000000000002" }
  let child (schema key : String) : ChildRequirement :=
    { schema := .text schema, key := .text key }
  let whole : Contract :=
    { schema := { name := .text "Box" }, target := .create, placement := .alone, ownFields := []
      children := [child "Folder" "folders", child "File" "loose"] }
  let inBox : Contract :=
    { schema := { name := .text "Folder", fields := [box] }, target := .create, placement := .nested
      ownFields := ["box"], children := [child "File" "files"], referBack := some "box" }
  let loose : Contract :=
    { schema := { name := .text "File", fields := [box, folder] }, target := .create
      placement := .nested, ownFields := ["box", "folder"], referBack := some "box" }
  let tree : Payload := .node whole (.text "Box") []
    [("folders", [.node inBox (.text "Box.folders[0]") [] []]),
      ("loose", [.node loose (.text "Box.loose[0]") [] []])]
  let boxRow : Record := ⟨.text "Box", .text "box_000000000001", []⟩
  let records : List Record := [boxRow,
    ⟨.text "Folder", .text "folder_000000000002", [("box", .text "box_000000000001")]⟩,
    ⟨.text "File", .text "file_000000000003",
      [("folder", .text "folder_000000000002"), ("box", .text "box_000000000001")]⟩]
  let trace : List (Access × Key) := records.map fun r => (.insert, r.schema)
  have valid : boxes.contracts.validate boxes.catalog whole oneEach = .ok tree := by
    with_unfolding_all rfl
  have inserted : exec (boxes.insertTree tree none) ({} : Store).enter =
      (.ok records, { filed trace with scope := some ⟨0, []⟩ }) := by
    simp only [tree, whole, inBox, loose, child, trace, records, boxRow, box, folder]
    with_unfolding_all rfl
  obtain ⟨cascade, -, created⟩ := create_of_quiet (show boxes.rules.reactions = [] from rfl)
    (show boxes.compose (.text "Box") .create .alone = .ok whole from rfl) valid inserted
  exact ⟨cascade, trace, created⟩

theorem boxes_view (trace : List (Access × Key)) :
    let state : Value := .object [("fields", .object [])]
    let file : Value := .object [("id", .text "file_000000000003"),
      ("box", .text "box_000000000001"), ("folder", .text "folder_000000000002"),
      ("$state", state)]
    let folder : Value := .object [("id", .text "folder_000000000002"),
      ("box", .text "box_000000000001"), ("files", .list [file]), ("$state", state)]
    ∃ after, exec (boxes.view (.text "Box") (.text "box_000000000001")) (filed trace) =
      (.ok (.object [("id", .text "box_000000000001"), ("folders", .list [folder]),
        ("loose", .list [file]), ("$state", state)]), after) :=
  ⟨_, rfl⟩

theorem under_of_shows {k : Contract} {records : List Record} {view : Value}
    (composed : boxes.compose (.text "Box") .create .alone = .ok k)
    (shows : boxes.Shows k none oneEach records view) : ∃ id folder state others,
      view = .object (("id", id) :: ("folders", .list [.object [("id", folder), ("box", id),
        ("files", .list []), ("$state", state)]]) :: others) := by
  obtain rfl := Except.ok.inj composed
  cases shows with
  | @object _ _ _ under r below _ children =>
    have children : boxes.ShowsBelow _ _ r [{ schema := .text "Folder", key := .text "folders" },
      { schema := .text "File", key := .text "loose" }] below under := children
    cases children with
    | cons _ items _ =>
      have items : boxes.ShowsEach _ r [.object []] _ _ := items
      cases items with
      | cons first others =>
        cases others
        cases first with
        | @object _ _ _ within q _ _ nested =>
          have nested : boxes.ShowsBelow _ [] q
            [{ schema := .text "File", key := .text "files" }] _ within := nested
          cases nested with
          | cons _ files others =>
            cases others
            have files : boxes.ShowsEach _ q [] _ _ := files
            cases files
            exact ⟨r.id.toValue, q.id.toValue, _, _, rfl⟩

theorem not_gives_oneEach {k : Contract} {v : Value}
    (composed : boxes.compose (.text "Box") .create .alone = .ok k) :
    ¬ boxes.Gives k oneEach v := by
  obtain rfl := Except.ok.inj composed
  intro gives
  cases gives with
  | own declared _ => cases declared
  | nested listed inside gives =>
    rcases List.mem_pair.mp listed with rfl | rfl <;>
    · obtain rfl := List.mem_singleton.mp inside
      exact not_gives_nil gives

/-- But where the default of a reference is an id that is issued later, a loose file is shown in a
folder that has none in the payload. -/
theorem view_create_misfiled : boxes.Runs {} ∧ boxes.Mirrors ∧ boxes.rules.stateRules = [] ∧
    oneEach.isProper = true ∧ ∃ k m t,
      boxes.compose (.text "Box") .create .alone = .ok k ∧
      exec (boxes.create (.text "Box") oneEach .alone) {} = (.ok m, t) ∧
      (∀ name id, (t.row? name id).isSome = true → ({} : Store).row? name id = none →
        boxes.SparesRows {} id ∧ ∀ v, boxes.Gives k oneEach v → v.names id = false) ∧
      ¬ ∃ records view after, records.head? = some m.record ∧ ({} : Store).Adds t records ∧
        exec (boxes.view (.text "Box") m.record.id) t = (.ok view, after) ∧
        boxes.Shows k none oneEach records view := by
  obtain ⟨cascade, trace, ran⟩ := boxes_create
  obtain ⟨k, composed⟩ : ∃ k, boxes.compose (.text "Box") .create .alone = .ok k := ⟨_, rfl⟩
  refine ⟨boxes_runs, boxes_mirrors, rfl, rfl, k, _, filed trace, composed, ran,
    fun name id _ _ => ?_, ?_⟩
  · exact ⟨fun _ _ _ row absent => absurd absent List.not_mem_nil,
      fun v gives => absurd gives (not_gives_oneEach composed)⟩
  · rintro ⟨records, view, after, -, -, viewed, shows⟩
    obtain ⟨_, answered⟩ := boxes_view trace
    obtain ⟨id, folder, state, others, rfl⟩ := under_of_shows composed shows
    cases (Prod.mk.inj (viewed.symm.trans answered)).1

end Engine

end RecordRules
