import RecordRules.Proofs.EndlessViews
import RecordRules.Proofs.GuardedWrites

/-!
Modified events. What a reaction writes is reported exactly: the event names the fields that read
differently in the row before the write and in the snapshot that it carries. An update by the host
reports these fields too, and on top of them the fields that it sets to nothing where nothing was
stored, which read the same before and after.
-/
namespace RecordRules

open Step

theorem Value.eq_null_of_isNull {v : Value} (nothing : v.isNull = true) : v = .null := by
  cases v <;> first | rfl | cases nothing

theorem Value.null_equals {v : Value} (something : v.isNull = false) :
    Value.equals .null v = false := by
  cases v <;> first | rfl | cases something

namespace Record

structure DiffersIn (old new : Record) (names : List String) : Prop where
  listed : ∀ name ∈ names, name ≠ "id" → (old.get name).equals (new.get name) = false
  others : ∀ name, name ∉ names → new.get name = old.get name

/-- Nothing is put into a field where nothing was stored. -/
def setsToNothing (old new : Record) (name : String) : Bool :=
  !old.data.has name && (new.data.get name).isNull

def Restates (old : Record) (updates : Entries) : Prop :=
  ∀ name v, (name, v) ∈ updates → name ≠ "id" ∧ (old.get name).equals v = true

variable {r : Record} {updates changes : Entries}

theorem differsIn_effective (chain : Chain) (r : Record) (distinct : updates.names.Nodup) :
    r.DiffersIn (r.withUpdates (Engine.effective chain r updates))
      (Engine.effective chain r updates).names := by
  have once := distinct.sublist (Engine.effective_names_sublist chain r updates)
  constructor
  case listed =>
    intro name named proper
    obtain ⟨⟨_, v⟩, inside, rfl⟩ := List.mem_map.mp named
    rw [show (r.withUpdates _).get _ = v from get_merge_of_mem once inside proper]
    exact (Engine.of_mem_effective inside).2.1
  case others => exact fun name kept => get_merge_of_not_mem once kept

theorem get_of_not_has {name : String} (absent : r.data.has name = false) (proper : name ≠ "id") :
    r.get name = .null := by
  rw [Keyed.has, Option.isSome_eq_false_iff, Option.isNone_iff_eq_none] at absent
  rw [get, if_neg proper, Entries.get, absent]
  rfl

theorem differsIn_changes (r : Record) (distinct : updates.names.Nodup) :
    r.DiffersIn (r.withUpdates (r.changes updates)) ((r.changes updates).names.filter fun name =>
      !r.setsToNothing (r.withUpdates (r.changes updates)) name) := by
  have once : (r.changes updates).names.Nodup := nodup_changes distinct
  constructor
  case listed =>
    intro name named proper
    obtain ⟨named, sets⟩ := List.mem_filter.mp named
    obtain ⟨⟨_, v⟩, inside, rfl⟩ := List.mem_map.mp named
    have after : (r.withUpdates (r.changes updates)).get _ = v :=
      get_merge_of_mem once inside proper
    have differs := differs_of_mem_changes inside
    rw [after, get, if_neg proper, Entries.get]
    rw [get, if_neg proper] at after
    rw [setsToNothing, after, Keyed.has] at sets
    unfold Record.differs at differs
    dsimp only at differs sets
    cases found : r.data.find? _ with
    | some old =>
      rw [found] at differs
      simpa using differs
    | none =>
      rw [found] at sets
      exact Value.null_equals (by simpa using sets)
  case others =>
    intro name kept
    rw [List.mem_filter, not_and, Bool.not_eq_true', Bool.not_eq_false] at kept
    by_cases named : name ∈ (r.changes updates).names
    · obtain ⟨absent, nothing⟩ := Bool.and_eq_true_iff.mp (kept named)
      by_cases proper : name = "id"
      · rw [get, get, if_pos proper, if_pos proper]
        rfl
      · rw [get_of_not_has (r := r) (by simpa using absent) proper, get, if_neg proper]
        exact Value.eq_null_of_isNull nothing
    · exact get_merge_of_not_mem once named

theorem Restates.changes_eq_nil (restates : r.Restates updates)
    (has : ∀ name ∈ updates.names, r.data.has name = true) : r.changes updates = [] := by
  refine List.filter_eq_nil_iff.mpr fun ⟨name, v⟩ inside => ?_
  obtain ⟨proper, same⟩ := restates name v inside
  obtain ⟨old, found⟩ := Option.isSome_iff_exists.mp (has name (List.mem_map_of_mem inside))
  rw [get, if_neg proper, Entries.get, found] at same
  simpa [differs, found] using same

theorem Restates.effective_eq_nil (restates : r.Restates updates) (chain : Chain) :
    Engine.effective chain r updates = [] := by
  refine List.filter_eq_nil_iff.mpr fun ⟨name, v⟩ inside => ?_
  simp [(restates name v inside).2]

end Record

/-- Between two stores one row was written: what it was, and what it is then. -/
structure Store.Writes (s t : Store) (old new : Record) : Prop where
  stored : s.row? old.schema old.id = some old.data
  schema : new.schema = old.schema
  id : new.id = old.id
  rows : t.tables = (s.putRow old.schema old.id new.data).tables

/-- What a write for a reaction leaves: either the rows are as before and nothing follows, or a row
was written, and the one event that follows names the fields that read differently. -/
inductive Turn.Reports (turn after : Turn) (r : Record) : Prop where
  | silent (same : Store.SameRows turn.store after.store)
      (nothing : after.followUps = turn.followUps)
  | event (old new : Record) (names : List String) (schema : old.schema = r.schema)
      (id : old.id = r.id) (wrote : turn.store.Writes after.store old new)
      (follows : after.followUps = turn.followUps ++ [.modifiedOf new names])
      (differs : old.DiffersIn new names)

namespace Engine

variable {e : Engine}

theorem sublist_of_readUpdates {schema : Key} {updates : Value} {data : Entries}
    (read : e.readUpdates schema updates = .ok data) :
    data = [] ∨ ∃ entries, updates = .object entries ∧ data.Sublist entries := by
  obtain ⟨contract, -, read⟩ := bind_eq_ok.mp read
  obtain ⟨tree, shaped, read⟩ := bind_eq_ok.mp read
  obtain ⟨rfl, -⟩ := ContractBook.validateShape_eq_ok.mp shaped
  split at read
  · cases read
  · obtain rfl := Except.ok.inj read
    rw [ContractBook.splitShape.eq_def]
    dsimp only
    split
    · exact .inr ⟨_, rfl, List.filter_sublist⟩
    · exact .inl rfl

theorem nodup_of_readUpdates {schema : Key} {updates : Value} {data : Entries}
    (proper : updates.isProper = true) (read : e.readUpdates schema updates = .ok data) :
    data.names.Nodup := by
  rcases sublist_of_readUpdates read with rfl | ⟨entries, rfl, within⟩
  · exact List.nodup_nil
  · exact (Value.nodup_of_isProper proper).sublist (within.map Prod.fst)

theorem Opens.update_reports {s start : Store} {schema id : Key} {updates : Value}
    {roots : List Event} (proper : updates.isProper = true)
    (opens : e.Opens s (.update schema id updates) start roots) :
    ∃ old new names, old.schema = schema ∧ old.id = id ∧ s.Writes start old new ∧
      roots = [.modifiedOf new names] ∧
      old.DiffersIn new (names.filter fun name => !old.setsToNothing new name) := by
  cases opens with
  | @update _ _ _ definition data current written before after known read found something ran =>
    obtain ⟨same, stored, rfl, rfl⟩ := Store.of_require_ok found
    obtain ⟨-, -, rfl, rows⟩ := of_overwrite_ok stored ran
    have rooted : Store.SameRows s before :=
      IsTrans.trans (r := Store.SameRows) _ _ _ (Store.sameRows_enter s) same
    refine ⟨current, current.withUpdates (current.changes data), (current.changes data).names, rfl,
      rfl, ⟨?_, rfl, rfl, ?_⟩, rfl,
      Record.differsIn_changes current (nodup_of_readUpdates proper read)⟩
    · rwa [← Store.row?_of_sameRows rooted]
    · rw [rows]
      exact Store.putRow_tables_of_sameRows rooted _ _ _

theorem update_of_restates {s : Store} {schema id : Key} {updates : Value} {definition : Schema}
    {data stored : Entries} (known : e.catalog.require schema = .ok definition)
    (read : e.readUpdates schema updates = .ok data) (present : s.row? schema id = some stored)
    (restates : (⟨schema, id, stored⟩ : Record).Restates data)
    (has : ∀ name ∈ data.names, stored.has name = true) :
    ∃ t, exec (e.update schema id updates) s = (.ok { record := ⟨schema, id, stored⟩ }, t) ∧
      Store.SameRows s t := by
  exact ⟨_, update_of_nothing known read present (restates.changes_eq_nil has), rfl⟩

theorem applyWrite_reports {r : Record} {updates : Entries} {turn after : Turn}
    {outcome : Except Failure Record} (distinct : updates.names.Nodup)
    (ran : exec (e.applyWrite r updates) turn = (outcome, after)) : turn.Reports after r := by
  have written := e.applyWrite_written r updates turn
  rw [ran] at written
  cases written with
  | dropped looked =>
    obtain ⟨_, rfl⟩ := looked
    exact .silent rfl rfl
  | refused looked =>
    obtain ⟨_, rfl⟩ := looked
    exact .silent rfl rfl
  | @changed _ data _ looked stored left =>
    obtain ⟨_, rfl⟩ := looked
    subst left
    let old : Record := ⟨r.schema, r.id, data⟩
    let left := effective turn.chain old updates
    have differs : old.DiffersIn (old.withUpdates left) left.names :=
      Record.differsIn_effective turn.chain old distinct
    exact .event old (old.withUpdates left) left.names rfl rfl ⟨stored, rfl, rfl, rfl⟩ rfl differs

theorem applyWrite_of_restates (e : Engine) (r : Record) {updates : Entries} (turn : Turn)
    (restates : (turn.current r).Restates updates) :
    ∃ store, exec (e.applyWrite r updates) turn = (.ok (turn.current r), { turn with store }) ∧
      Store.SameRows turn.store store := by
  exact ⟨_, e.exec_applyWrite_of_nothing (restates.effective_eq_nil turn.chain), rfl⟩

theorem setFields_reports {assignments : List (String × Operand)} {scene : Scene} {target : Record}
    {turn after : Turn} {outcome : Except Failure Unit}
    (ran : exec (e.setFields assignments scene target) turn = (outcome, after)) :
    turn.Reports after target := by
  unfold setFields at ran
  rw [exec_bind, exec_ofExcept] at ran
  cases known : e.catalog.require target.schema with
  | error failure =>
    rw [known] at ran
    obtain ⟨-, rfl⟩ := Prod.mk.inj ran
    exact .silent rfl rfl
  | ok definition =>
    rw [known] at ran
    dsimp only at ran
    split at ran
    · rw [exec_bind] at ran
      have distinct := updatesFor_nodup definition assignments scene
      cases wrote : exec (e.applyWrite target (updatesFor definition assignments scene)) turn with
      | mk given reached =>
        rw [wrote] at ran
        have reports := applyWrite_reports distinct wrote
        cases given <;>
        · obtain ⟨-, rfl⟩ := Prod.mk.inj ran
          exact reports
    · obtain ⟨-, rfl⟩ := Prod.mk.inj ran
      exact .silent rfl rfl

/-- An event of a modified record names the fields that read differently in the row just before the
write and in the snapshot that it carries, and where none does, nothing is written and no event
follows. This is so for every write of a reaction; for an update by the host it is so but for the
fields that it sets to nothing and that the row does not have. -/
theorem modified_event_differs (e : Engine) :
    (∀ s schema id updates start roots, updates.isProper = true →
      e.Opens s (.update schema id updates) start roots →
        ∃ old new names, old.schema = schema ∧ old.id = id ∧ s.Writes start old new ∧
          roots = [.modifiedOf new names] ∧
          old.DiffersIn new (names.filter fun name => !old.setsToNothing new name)) ∧
    (∀ s schema id updates data stored, e.readUpdates schema updates = .ok data →
      s.row? schema id = some stored → (⟨schema, id, stored⟩ : Record).Restates data →
        (∀ name ∈ data.names, stored.has name = true) →
          ∃ t, exec (e.update schema id updates) s = (.ok { record := ⟨schema, id, stored⟩ }, t) ∧
            Store.SameRows s t) ∧
    (∀ (r : Record) (updates : Entries) (turn : Turn), updates.names.Nodup →
      turn.Reports (exec (e.applyWrite r updates) turn).2 r) ∧
    (∀ assignments scene target (turn : Turn),
      turn.Reports (exec (e.setFields assignments scene target) turn).2 target) ∧
    ∀ (r : Record) (updates : Entries) (turn : Turn), (turn.current r).Restates updates →
      ∃ store, exec (e.applyWrite r updates) turn = (.ok (turn.current r), { turn with store }) ∧
        Store.SameRows turn.store store := by
  refine ⟨fun s schema id updates start roots proper opens => opens.update_reports proper,
    fun s schema id updates data stored read present restates has => ?_,
    fun r updates turn distinct => applyWrite_reports distinct rfl,
    fun assignments scene target turn => setFields_reports rfl,
    fun r updates turn restates => e.applyWrite_of_restates r turn restates⟩
  obtain ⟨contract, composed, -⟩ := bind_eq_ok.mp read
  obtain ⟨definition, found, -⟩ := compose_eq_ok.mp composed
  have known : e.catalog.require schema = .ok definition := by rw [Catalog.require, found]
  exact update_of_restates known read present restates has

def titled : Record := ⟨.text "Folder", .text "folder_000000000001", [("title", .text "new")]⟩

def shelf : Store := { tables := [(titled.schema, [(titled.id, titled.data)])], issued := 1 }

theorem update_titled {changes : Entries} {definition : Schema}
    (known : folders.catalog.require titled.schema = .ok definition)
    (read : folders.readUpdates titled.schema (.object changes) = .ok changes)
    (all : titled.changes changes = changes) (something : changes ≠ [])
    (succeeds : (exec (folders.overwrite definition titled changes)
      (exec (Store.require titled.schema titled.id) shelf.enter).2).1.isOk = true) :
    ∃ start cascade, folders.Opens shelf (.update titled.schema titled.id (.object changes)) start
        [.modifiedOf (titled.withUpdates changes) changes.names] ∧
      exec (folders.update titled.schema titled.id (.object changes)) shelf =
        (.ok ⟨titled.withUpdates changes, some cascade⟩, start.leave false) ∧
      Store.SameRows (shelf.putRow titled.schema titled.id (titled.withUpdates changes).data)
        (start.leave false) := by
  obtain ⟨written, start, ran⟩ := exists_exec_of_isOk succeeds
  have found : exec (Store.require titled.schema titled.id) shelf.enter =
      (.ok titled, (exec (Store.require titled.schema titled.id) shelf.enter).2) := Prod.ext rfl rfl
  obtain ⟨-, -, rfl, rows⟩ := of_overwrite_ok (show _ = some titled.data from rfl) ran
  rw [← all] at ran something
  have opens := Opens.update known read found something ran
  obtain ⟨cascade, updated⟩ := update_of_quiet (show folders.rules.reactions = [] from rfl) known
    read found (by simpa using something) ran
  rw [all] at opens updated
  exact ⟨start, cascade, opens, updated, (Store.sameRows_leave_false start).trans rows⟩

theorem modified_event_differs_titled :
    let changes : Entries := [("title", .text "other")]
    let turn : Turn := { store := shelf }
    (∃ start roots old new names,
      folders.Opens shelf (.update titled.schema titled.id (.object changes)) start roots ∧
        shelf.Writes start old new ∧ roots = [.modifiedOf new names] ∧
        old.DiffersIn new (names.filter fun name => !old.setsToNothing new name)) ∧
    (∃ t, exec (folders.update titled.schema titled.id (.object titled.data)) shelf =
      (.ok { record := titled }, t) ∧ Store.SameRows shelf t) ∧
    turn.Reports (exec (folders.applyWrite titled changes) turn).2 titled ∧
    ∃ store, exec (folders.applyWrite titled titled.data) turn = (.ok titled, { turn with store }) ∧
      Store.SameRows shelf store := by
  intro changes turn
  have restates : titled.Restates titled.data := by
    intro name v inside
    obtain ⟨rfl, rfl⟩ := Prod.mk.inj (List.mem_singleton.mp inside)
    exact ⟨by decide, rfl⟩
  have read : folders.readUpdates titled.schema (.object changes) = .ok changes := by
    with_unfolding_all rfl
  have again : folders.readUpdates titled.schema (.object titled.data) = .ok titled.data := by
    with_unfolding_all rfl
  obtain ⟨start, -, opens, -, -⟩ := update_titled rfl read rfl (List.cons_ne_nil _ _)
    (by decide +kernel)
  obtain ⟨host, dropped, reaction, -, ignored⟩ := modified_event_differs folders
  obtain ⟨old, new, names, -, -, wrote, event, differs⟩ :=
    host shelf titled.schema titled.id _ start _ rfl opens
  refine ⟨⟨start, _, old, new, names, opens, wrote, event, differs⟩, ?_, ?_, ?_⟩
  · refine dropped shelf _ _ _ titled.data titled.data again rfl restates fun name inside => ?_
    obtain rfl := List.mem_singleton.mp inside
    rfl
  · exact reaction titled changes turn (by decide)
  · exact ignored titled titled.data turn restates

/-- The host sets a field to nothing that the folder does not have. It reads the same before and
after, and yet the row is written and an event names the field. -/
theorem null_for_absent_modifies :
    let changes : Entries := [("within", .null)]
    let updated := titled.withUpdates changes
    (∀ name, titled.get name = updated.get name) ∧ ∃ start cascade t,
      folders.Opens shelf (.update titled.schema titled.id (.object changes)) start
        [.modifiedOf updated ["within"]] ∧
      exec (folders.update titled.schema titled.id (.object changes)) shelf =
        (.ok ⟨updated, some cascade⟩, t) ∧
      t.row? titled.schema titled.id = some [("title", .text "new"), ("within", .null)] := by
  intro changes updated
  constructor
  · intro name
    have differs : titled.DiffersIn updated _ :=
      Record.differsIn_changes titled (show changes.names.Nodup by decide)
    refine (differs.others name ?_).symm
    rw [show List.filter _ _ = [] from rfl]
    exact List.not_mem_nil
  · have read : folders.readUpdates titled.schema (.object changes) = .ok changes := by
      with_unfolding_all rfl
    obtain ⟨start, cascade, opens, ran, rows⟩ := update_titled rfl read rfl
      (List.cons_ne_nil _ _) (by decide +kernel)
    refine ⟨start, cascade, _, opens, ran, ?_⟩
    rw [Store.row?_of_sameRows rows]
    rfl

end Engine

end RecordRules
