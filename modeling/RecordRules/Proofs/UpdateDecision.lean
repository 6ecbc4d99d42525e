import RecordRules.Proofs.EditedShapes
import RecordRules.Proofs.ReachedRows
import RecordRules.Proofs.UpdateSteps

/-!
The decision on an update. Where an engine without reactions is in use, an update succeeds exactly
when its shape is right, the record is stored, and either nothing differs from what is stored or
the state of the record grants the differences and the row that they lead to is valid. Then exactly
the fields that differ are replaced.
-/
namespace RecordRules

open Step

namespace RecordState

structure Grants (state : RecordState) (s : Schema) (r : Record) (changes : Entries) : Prop where
  unlocked : ∀ name ∈ changes.names, name ∉ state.immutableFields
  filled : ∀ name flags, (name, flags) ∈ state.fields → flags.required = true →
    ((r.withUpdates changes).data.get name).isNull = false
  allowed : ∀ name v, (name, v) ∈ changes → v.isNull = false → ∀ f, s.field? name = some f →
    (state.flagsOf name).subset.isSome = true → state.Allows f v

variable {state : RecordState} {s : Schema} {r : Record} {changes : Entries}

/-- What is granted is what passes the check, as long as all changes differ from what is stored and
no field goes by the name of the id. -/
theorem permits_iff_grants (differ : ∀ entry ∈ changes, r.differs entry = true)
    (distinct : changes.names.Nodup) (proper : ∀ entry ∈ state.fields, entry.1 ≠ "id") :
    state.Permits s r changes ↔ state.Grants s r changes := by
  have changed : r.changedNames changes = changes.names := by
    rw [Record.changedNames, Record.changes, List.filter_eq_self.mpr differ]
  have held (entry : String × Flags) (listed : entry ∈ state.fields) :
      (r.withUpdates changes).get entry.1 = (r.withUpdates changes).data.get entry.1 :=
    if_neg (proper entry listed)
  constructor
  · rintro ⟨unlocked, filled, allowed⟩
    rw [changed] at unlocked allowed
    constructor
    case unlocked => exact unlocked
    case filled =>
      intro name flags listed required
      rw [← held (name, flags) listed]
      exact filled (name, flags) listed required
    case allowed =>
      intro name v inside given f found restricted
      have value := Entries.get_of_mem distinct inside
      rcases allowed name (List.mem_map_of_mem inside) f found restricted with null | allows
      · rw [value, given] at null
        cases null
      · rwa [value] at allows
  · rintro ⟨unlocked, filled, allowed⟩
    constructor
    case unlocked => rwa [changed]
    case filled =>
      intro entry listed required
      rw [held entry listed]
      exact filled entry.1 entry.2 listed required
    case allowed =>
      rw [changed]
      intro other named f found restricted
      obtain ⟨⟨name, v⟩, inside, rfl⟩ := List.mem_map.mp named
      rw [Entries.get_of_mem distinct inside]
      by_cases null : v.isNull = true
      · exact .inl null
      · exact .inr (allowed name v inside (Bool.not_eq_true _ ▸ null) f found restricted)

theorem declares_of_compute {c : Catalog} {b : RuleBook} {up down : List Record}
    (found : c.get? r.schema = some s) (computed : compute c b r up down = .ok state)
    (entry : String × Flags) (listed : entry ∈ state.fields) : s.declares entry.1 = true := by
  obtain ⟨t, required, computed⟩ := bind_eq_ok.mp computed
  obtain rfl := Option.some.inj (found.symm.trans (Catalog.get?_of_require required))
  obtain rfl := Except.ok.inj computed
  obtain ⟨name, named, marked⟩ := List.mem_filterMap.mp listed
  obtain ⟨flags, -, rfl⟩ := Option.map_eq_some_iff.mp marked
  exact Schema.declares_iff.mpr (List.mem_map.mp named)

end RecordState

namespace Engine

/-- An update has changed exactly these fields of one row: the row has the new values, everything
else is as before, and the answer is the new record, with a cascade if something was changed. -/
structure Updates (s t : Store) (current : Record) (changes : Entries) (m : Mutation) : Prop where
  row : t.row? current.schema current.id = some (current.withUpdates changes).data
  others : ∀ schema id, ((current.schema, current.id) == (schema, id)) = false →
    t.row? schema id = s.row? schema id
  ids : t.ids = s.ids
  record : m.record = current.withUpdates changes
  changed : m.cascade.isSome = true ↔ changes ≠ []

variable {e : Engine} {s t : Store} {schema id : Key} {definition : Schema} {entries : Entries}
  {current : Record} {changes : Entries} {m : Mutation}

theorem updates_nothing (stored : s.Has current) (same : Store.SameRows s t) :
    Updates s t current [] { record := current } where
  row := (Store.row?_of_sameRows same _ _).trans stored
  others other otherId _ := Store.row?_of_sameRows same other otherId
  ids := same.ids
  record := rfl
  changed := by simp

theorem updates_of_putRow (stored : s.Has current) (something : changes ≠ [])
    (put : Store.SameRows
      (s.putRow current.schema current.id (current.withUpdates changes).data) t) (c : Cascade) :
    Updates s t current changes ⟨current.withUpdates changes, some c⟩ where
  row := by
    rw [Store.row?_of_sameRows put, Store.row?_putRow]
    exact if_pos BEq.rfl
  others other otherId elsewhere := by
    rw [Store.row?_of_sameRows put, Store.row?_putRow, elsewhere]
    rfl
  ids := put.ids.trans (Store.ids_putRow _ stored)
  record := rfl
  changed := by simpa using something

def Grants (e : Engine) (s : Store) (definition : Schema) (current : Record) (changes : Entries) :
    Prop :=
  (∃ state, e.HasState s current state ∧ state.Grants definition current changes) ∧
    definition.validate (current.withUpdates changes).data = .ok ()

def differing (e : Engine) (definition : Schema) (current : Record) (entries : Entries) : Entries :=
  current.changes ((e.editing definition).ownEntries entries)

section

variable (runs : e.Runs s) (known : e.catalog.get? current.schema = some definition)
  (noId : definition.declares "id" = false) (stored : s.Has current)

include runs known noId stored

theorem grants_iff_checked (differ : ∀ entry ∈ changes, current.differs entry = true)
    (distinct : changes.names.Nodup) :
    e.Grants s definition current changes ↔
      (∃ state, (exec (e.stateOf current) s).1 = .ok state ∧
        state.checkWrite e.catalog current changes = .ok ()) ∧
        definition.validate (current.withUpdates changes).data = .ok () := by
  refine and_congr_left fun _ => exists_congr fun state => ?_
  rw [runs.hasState_iff stored, RecordState.checkWrite_eq_ok known]
  refine and_congr_right fun loaded => ?_
  obtain ⟨up, down, -, -, computed⟩ := (runs.hasState_iff stored state).mpr loaded
  have proper (entry : String × Flags) (listed : entry ∈ state.fields) : entry.1 ≠ "id" := by
    intro same
    have declared := RecordState.declares_of_compute known computed entry listed
    rw [same, noId] at declared
    cases declared
  exact (RecordState.permits_iff_grants differ distinct proper).symm

variable {own : Entries} (distinct : own.names.Nodup) {before after : Store}
  (same : Store.SameRows s before)

include distinct same

theorem of_revise_ok (revised : exec (e.revise definition own current) before = (.ok m, after)) :
    (current.changes own = [] ∨ e.Grants s definition current (current.changes own)) ∧
      Updates s (after.leave false) current (current.changes own) m := by
  by_cases nothing : (current.changes own).isEmpty = true
  · have unchanged := List.isEmpty_iff.mp nothing
    rw [revise_of_isEmpty nothing] at revised
    obtain ⟨answered, rfl⟩ := Prod.mk.inj revised
    obtain rfl := Except.ok.inj answered
    rw [unchanged]
    exact ⟨.inl rfl, updates_nothing stored ((Store.sameRows_leave_false before).trans same)⟩
  · have something : current.changes own ≠ [] := by simpa using nothing
    have present := (Store.row?_of_sameRows same current.schema current.id).trans stored
    rw [revise_of_not_isEmpty nothing] at revised
    obtain ⟨written, start, wrote, cascaded⟩ := exec_bind_eq_ok.mp revised
    obtain ⟨⟨state, loaded, checked⟩, valid, rfl, put⟩ := of_overwrite_ok present wrote
    obtain ⟨cascade, ended, propagated, answered⟩ := exec_bind_eq_ok.mp cascaded
    obtain ⟨_, kept⟩ := propagate_quiet runs.fits.1.quiet
      [.modifiedOf (current.withUpdates (current.changes own)) (current.changes own).names] start
    obtain ⟨-, rfl⟩ := Prod.mk.inj (kept.symm.trans propagated)
    obtain ⟨returned, rfl⟩ := Prod.mk.inj answered
    obtain rfl := Except.ok.inj returned
    constructor
    · right
      rw [grants_iff_checked runs known noId stored (fun _ => Record.differs_of_mem_changes)
        (Record.nodup_changes distinct)]
      rw [e.stateOf_of_sameRows current same] at loaded
      exact ⟨⟨state, loaded, checked⟩, valid⟩
    · refine updates_of_putRow stored something ?_ cascade
      rw [Store.SameRows, ← Store.putRow_tables_of_sameRows same]
      exact (Store.sameRows_leave_false start).trans put

theorem revise_succeeds
    (granted : current.changes own = [] ∨ e.Grants s definition current (current.changes own)) :
    ∃ m after, exec (e.revise definition own current) before = (.ok m, after) := by
  by_cases nothing : (current.changes own).isEmpty = true
  · rw [revise_of_isEmpty nothing]
    exact ⟨_, _, rfl⟩
  · have something : current.changes own ≠ [] := by simpa using nothing
    have present := (Store.row?_of_sameRows same current.schema current.id).trans stored
    obtain ⟨⟨state, loaded, checked⟩, valid⟩ := (grants_iff_checked runs known noId stored
      (fun _ => Record.differs_of_mem_changes) (Record.nodup_changes distinct)).mp
        (granted.resolve_left something)
    rw [← e.stateOf_of_sameRows current same] at loaded
    obtain ⟨start, wrote⟩ := overwrite_succeeds present loaded checked valid
    obtain ⟨cascade, propagated⟩ := propagate_quiet runs.fits.1.quiet
      [.modifiedOf (current.withUpdates (current.changes own)) (current.changes own).names] start
    rw [revise_of_not_isEmpty nothing]
    exact ⟨_, _, exec_bind_eq_ok.mpr ⟨_, _, wrote, exec_bind_eq_ok.mpr ⟨_, _, propagated, rfl⟩⟩⟩

end

section

variable (runs : e.Runs s) (known : e.catalog.get? schema = some definition)
  (noId : definition.declares "id" = false) (distinct : entries.names.Nodup)

include runs known noId distinct

theorem of_update_ok (ran : exec (e.update schema id (.object entries)) s = (.ok m, t)) :
    (e.editing definition).Selects entries ∧ ∃ data, s.row? schema id = some data ∧
      (e.differing definition ⟨schema, id, data⟩ entries = [] ∨
        e.Grants s definition ⟨schema, id, data⟩
          (e.differing definition ⟨schema, id, data⟩ entries)) ∧
      Updates s t ⟨schema, id, data⟩ (e.differing definition ⟨schema, id, data⟩ entries) m := by
  rw [update_eq] at ran
  obtain ⟨other, required, ran⟩ := exec_ofExcept_bind_eq_ok.mp ran
  obtain rfl := Option.some.inj (known.symm.trans (Catalog.get?_of_require required))
  obtain ⟨own, read, ran⟩ := exec_ofExcept_bind_eq_ok.mp ran
  obtain ⟨selects, rfl⟩ := (readUpdates_eq_ok runs.fits.1 known distinct).mp read
  obtain ⟨after, inside, rfl⟩ := Store.exec_transaction_eq_ok.mp ran
  obtain ⟨current, before, found, revised⟩ := exec_bind_eq_ok.mp inside
  obtain ⟨looked, present, rfl, rfl⟩ := Store.of_require_ok found
  have same : Store.SameRows s before := Eq.trans looked (Store.sameRows_enter s)
  have stored : s.Has current := (Store.row?_of_sameRows same _ _).symm.trans present
  exact ⟨selects, current.data, stored,
    of_revise_ok runs known noId stored (Keyed.nodup_filter distinct _) same revised⟩

theorem update_succeeds {data : Entries} (selects : (e.editing definition).Selects entries)
    (stored : s.row? schema id = some data)
    (granted : e.differing definition ⟨schema, id, data⟩ entries = [] ∨
      e.Grants s definition ⟨schema, id, data⟩
        (e.differing definition ⟨schema, id, data⟩ entries)) :
    ∃ m t, exec (e.update schema id (.object entries)) s = (.ok m, t) := by
  have required : e.catalog.require schema = .ok definition := by
    rw [Catalog.require, known]
  have read := (readUpdates_eq_ok runs.fits.1 known distinct).mpr ⟨selects, rfl⟩
  have found := Store.exec_require schema id s.enter
  rw [Store.row?_of_sameRows (Store.sameRows_enter s), stored] at found
  have same : Store.SameRows s { s.enter with trace := s.enter.trace ++ [(Access.get, schema)] } :=
    Store.sameRows_enter s
  have present : s.Has ⟨schema, id, data⟩ := stored
  obtain ⟨m, after, revised⟩ :=
    revise_succeeds runs known noId present (Keyed.nodup_filter distinct _) same granted
  rw [update_eq]
  exact ⟨m, after.leave false, exec_ofExcept_bind_eq_ok.mpr ⟨_, required,
    exec_ofExcept_bind_eq_ok.mpr ⟨_, read, Store.exec_transaction_eq_ok.mpr
      ⟨after, exec_bind_eq_ok.mpr ⟨_, _, found, revised⟩, rfl⟩⟩⟩⟩

end

/-- An update of an engine without reactions succeeds exactly when its entries are selected, the
record is stored, and either nothing differs or the differences are granted. When it succeeds, just
the fields that differ have been changed. -/
theorem update_decides (runs : e.Runs s) (known : e.catalog.get? schema = some definition)
    (noId : definition.declares "id" = false) (distinct : entries.names.Nodup) (id : Key) :
    ((∃ m t, exec (e.update schema id (.object entries)) s = (.ok m, t)) ↔
      (e.editing definition).Selects entries ∧ ∃ data, s.row? schema id = some data ∧
        (e.differing definition ⟨schema, id, data⟩ entries = [] ∨
          e.Grants s definition ⟨schema, id, data⟩
            (e.differing definition ⟨schema, id, data⟩ entries))) ∧
      ∀ m t, exec (e.update schema id (.object entries)) s = (.ok m, t) →
        ∃ data, s.row? schema id = some data ∧
          Updates s t ⟨schema, id, data⟩ (e.differing definition ⟨schema, id, data⟩ entries) m := by
  constructor
  · constructor
    · rintro ⟨m, t, ran⟩
      obtain ⟨selects, data, stored, granted, -⟩ := of_update_ok runs known noId distinct ran
      exact ⟨selects, data, stored, granted⟩
    · rintro ⟨selects, data, stored, granted⟩
      exact update_succeeds runs known noId distinct selects stored granted
  · intro m t ran
    obtain ⟨-, data, stored, -, updates⟩ := of_update_ok runs known noId distinct ran
    exact ⟨data, stored, updates⟩

/-- The title of a task is locked: it can get a note, which then is all that has changed, but no
other title. -/
theorem update_locked_task :
    let task : Schema :=
      { name := .text "Task"
        fields := [{ name := "title", kind := .known .text },
          { name := "note", kind := .known .text }] }
    let locks : StateRule :=
      { schema := .text "Task", effect := { onFields := [.text "title"], immutable := true } }
    let e : Engine :=
      { catalog := { schemas := [(.text "Task", task)] }
        rules := { stateRules := [locks], stateReaches := [(.text "Task", {})] } }
    let plan : Record := ⟨.text "Task", Store.generatedId "Task" 0, [("title", .text "plan")]⟩
    let s : Store :=
      { tables := [(plan.schema, [(plan.id, plan.data)])], issued := 1
        trace := [(.insert, plan.schema)] }
    let update (entries : Entries) := exec (e.update plan.schema plan.id (.object entries)) s
    e.Runs s ∧ e.catalog.get? plan.schema = some task ∧ s.Has plan ∧
      (∃ m t, update [("title", .text "plan"), ("note", .text "soon")] = (.ok m, t) ∧
        Updates s t plan [("note", .text "soon")] m) ∧
      ¬∃ m t, update [("title", .text "goal")] = (.ok m, t) := by
  intro task locks e plan s update
  have plain (name : String) (named : name ≠ "")
      (unreserved : ¬(name.startsWith "$" || name.contains '.') = true) :
      Field.ofValue (.object [("name", .text name)]) = .ok { name, kind := .known .text } := by
    change Field.check { name, kind := .known .text } = _
    unfold Field.check
    rw [if_neg named, if_neg unreserved]
    rfl
  let fields := [Value.object [("name", .text "title")], .object [("name", .text "note")]]
  have read : Schema.ofValue (.object [("name", .text "Task"), ("fields", .list fields)]) =
      .ok task := by
    change (fields.mapM Field.ofValue >>= fun given =>
      Schema.check { name := .text "Task", fields := given }) = _
    rw [List.mapM_cons, plain "title" (by decide) (by simp), List.mapM_cons,
      plain "note" (by decide) (by simp)]
    rfl
  have added : exec (addSchema (.object [("name", .text "Task"), ("fields", .list fields)])) {} =
      (.ok task, { catalog := e.catalog }) := by
    unfold addSchema
    rw [read]
    rfl
  have ruled : exec (addStateRule (.object [("schema", .text "Task"),
      ("on_fields", .text "title"), ("immutable", .bool true)])) { catalog := e.catalog } =
        (.ok locks, e) := rfl
  -- The payload of a new task, and what storing it comes to.
  let payload : Value := .object plan.data
  let contract : Contract :=
    { schema := task, target := .create, placement := .alone, ownFields := ["title", "note"] }
  have composed : e.compose (.text "Task") .create .alone = .ok contract := rfl
  have valid : e.contracts.validate e.catalog contract payload =
      .ok (.node contract (.text "Task") plan.data []) := by
    with_unfolding_all rfl
  have inserted : exec (e.insertTree (.node contract (.text "Task") plan.data []) none)
      ({} : Store).enter = (.ok [plan], { s with scope := some ⟨0, []⟩ }) := rfl
  have created : (exec (e.perform (.create (.text "Task") payload .alone)) {}).2 = s := by
    obtain ⟨cascade, quiet⟩ := propagate_quiet (show e.rules.reactions = [] from rfl)
      [.created plan] { s with scope := some ⟨0, []⟩ }
    simp only [perform, create, composed, valid, exec_bind, exec_ofExcept, Store.transaction,
      exec_of, inserted, List.map_cons, List.map_nil, quiet]
    rfl
  have runs : e.Runs s := by
    rw [← created]
    exact .call (.stateRule (.schema (.start {}) added) ruled) rfl
  have known : e.catalog.get? plan.schema = some task := rfl
  have selects (entries : Entries) (named : ∀ name ∈ entries.names, name ∈ ["title", "note"]) :
      (e.editing task).Selects entries :=
    fun name v inside => .inl (named name (List.mem_map_of_mem inside))
  refine ⟨runs, known, rfl, ?_, ?_⟩
  · let entries : Entries := [("title", .text "plan"), ("note", .text "soon")]
    have distinct : entries.names.Nodup := by decide
    obtain ⟨decision, effect⟩ := update_decides runs known rfl distinct plan.id
    let locked : RecordState := ⟨plan.schema, [("title", { immutable := true })]⟩
    have grants : locked.Grants task plan [("note", .text "soon")] := by
      constructor
      case unlocked => decide
      case filled =>
        intro name flags listed required
        obtain ⟨rfl, rfl⟩ := Prod.mk.inj (List.mem_singleton.mp listed)
        cases required
      case allowed =>
        intro name v inside _ f _ restricted
        obtain ⟨rfl, rfl⟩ := Prod.mk.inj (List.mem_singleton.mp inside)
        cases restricted
    have stated : e.HasState s plan locked := ⟨[], [], rfl, rfl, rfl⟩
    obtain ⟨m, t, ran⟩ := decision.mpr ⟨selects entries (by decide), plan.data, rfl,
      .inr ⟨⟨locked, stated, grants⟩, rfl⟩⟩
    obtain ⟨data, present, updates⟩ := effect m t ran
    obtain rfl : plan.data = data := Option.some.inj present
    exact ⟨m, t, ran, updates⟩
  · intro succeeds
    let entries : Entries := [("title", .text "goal")]
    have distinct : entries.names.Nodup := by decide
    obtain ⟨decision, -⟩ := update_decides runs known rfl distinct plan.id
    obtain ⟨-, data, present, granted⟩ := decision.mp succeeds
    obtain rfl : plan.data = data := Option.some.inj present
    rcases granted with nothing | ⟨⟨state, ⟨up, down, above, below, computed⟩, grants⟩, -⟩
    · cases nothing
    · obtain rfl : [] = up := Except.ok.inj above
      obtain rfl : [] = down := Except.ok.inj below
      obtain rfl := Except.ok.inj computed
      exact grants.unlocked "title" (by decide) (by decide)

end Engine

end RecordRules
