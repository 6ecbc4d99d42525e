import Mathlib.Logic.Relation
import RecordRules.Proofs.ScopedActions
import RecordRules.Proofs.UpdateSteps
import RecordRules.Proofs.WriteAccount

/-!
Writes under guard. A stored row is written by the host, when it updates the row, and by reactions.
Where the states are enforced on reactions too, every such write respects the state that the record
has just before it, however the writes before it have changed that state. And as long as actions
change rows by writes only, nothing else happens to the rows in the course of a host call.
-/
namespace RecordRules

open Step

namespace Store

def Grows (s t : Store) : Prop :=
  ∀ schema id data, s.row? schema id = some data → t.row? schema id = some data

instance : Looks Grows where
  refl _ _ _ _ stored := stored
  trans _ _ _ first later schema id data stored :=
    later schema id data (first schema id data stored)
  note _ _ _ _ _ _ stored := stored

theorem chooseId_sameRows (schema : Key) (id : Value) : Moves SameRows (chooseId schema id) := by
  refine moves_ite (moves_ofExcept _) ?_
  cases schema with
  | text schema => exact fun _ => rfl
  | _ => exact moves_throw _

theorem insert_grows (c : Catalog) (schema : Key) (data : Entries) (id : Value) :
    Moves Grows (insert c schema data id) := by
  have issued : Moves Grows (chooseId schema id) := by
    intro s other otherId old stored
    rw [row?_of_sameRows (chooseId_sameRows schema id s)]
    exact stored
  refine moves_bind (note_moves _ _) fun _ => moves_bind (moves_ofExcept _) fun _ =>
    moves_bind issued fun id => moves_get_bind fun s => ?_
  cases taken : s.row? schema id with
  | some old => exact refl (r := Grows) s
  | none =>
    intro other otherId old stored
    change (s.putRow schema id data).row? other otherId = some old
    rw [row?_putRow]
    split
    · rename_i same
      rw [← s.row?_congr same, taken] at stored
      cases stored
    · exact stored

theorem delete_tables {r : Record} {data : Entries} {removed : Bool} {s t : Store}
    (stored : s.row? r.schema r.id = some data) (ran : exec (delete r) s = (.ok removed, t)) :
    t.tables = (s.removeRow r.schema r.id).tables := by
  let noted : Store := { s with trace := s.trace ++ [(.delete, r.schema)] }
  have present : noted.row? r.schema r.id = some data := stored
  simp only [delete, note, exec_bind, exec_modify, exec_get] at ran
  rw [present] at ran
  obtain ⟨-, rfl⟩ := Prod.mk.inj ran
  rfl

end Store

namespace Record

variable {r : Record} {changes : Entries} {name : String}

/-- A write leaves a field as it is. Under the name `id` the data may say the same in other terms,
since reactions take that name for the id of the record. -/
def Keeps (r : Record) (changes : Entries) (name : String) : Prop :=
  (r.withUpdates changes).data.find? name = r.data.find? name ∨
    name = "id" ∧ ∃ old new, r.data.find? name = some old ∧
      (r.withUpdates changes).data.find? name = some new ∧ old.equals new = true

def Alters (r : Record) (changes : Entries) : Prop :=
  ∀ name v, (name, v) ∈ changes → name ≠ "id" → r.differs (name, v) = true

theorem Alters.keeps (alters : r.Alters changes) (kept : name ∉ r.changedNames changes) :
    r.Keeps changes name := by
  have data : (r.withUpdates changes).data.find? name = _ := Keyed.find?_merge r.data changes name
  rw [Keeps, data]
  cases put : Keyed.find? changes.reverse name with
  | none => exact .inl rfl
  | some v =>
    obtain ⟨other, same, inside⟩ := Keyed.mem_of_find? put
    obtain rfl : other = name := eq_of_beq same
    have given : (other, v) ∈ changes := List.mem_reverse.mp inside
    have equal : r.differs (other, v) = false := by
      rw [Bool.eq_false_iff]
      intro differs
      exact kept (List.mem_map_of_mem (List.mem_filter.mpr ⟨given, differs⟩))
    right
    constructor
    · by_contra proper
      rw [alters other v given proper] at equal
      cases equal
    · unfold differs at equal
      split at equal
      · rename_i old found
        exact ⟨old, v, found, rfl, by simpa using equal⟩
      · cases equal

theorem get_withUpdates (distinct : changes.names.Nodup) (inside : name ∈ changes.names) :
    (r.withUpdates changes).data.get name = changes.get name := by
  have present := (Keyed.find?_isSome_iff changes name).mpr inside
  obtain ⟨v, found⟩ := Option.isSome_iff_exists.mp present
  have merged : (r.withUpdates changes).data.find? name = some v := by
    have data : (r.withUpdates changes).data.find? name = _ :=
      Keyed.find?_merge_of_nodup r.data distinct name
    rw [data, found]
    rfl
  rw [Entries.get, Entries.get, merged, found]

end Record

/-- A write respects the state of the record: it leaves the immutable fields, it leaves something
in the required ones, and what it changes a restricted field to is nothing or an allowed value. -/
structure RecordState.Respects (state : RecordState) (s : Schema) (r : Record) (changes : Entries) :
    Prop where
  immutable : ∀ name ∈ state.immutableFields, r.Keeps changes name
  required : ∀ name flags, (name, flags) ∈ state.fields → flags.required = true →
    ((r.withUpdates changes).get name).isNull = false
  restricted : ∀ name ∈ r.changedNames changes, ∀ f, s.field? name = some f →
    (state.flagsOf name).subset.isSome = true →
      ((r.withUpdates changes).data.get name).isNull = true ∨
        state.Allows f ((r.withUpdates changes).data.get name)

theorem RecordState.Permits.respects {state : RecordState} {s : Schema} {r : Record}
    {changes : Entries} (permits : state.Permits s r changes) (alters : r.Alters changes)
    (distinct : changes.names.Nodup) : state.Respects s r changes where
  immutable name locked := alters.keeps fun changed => permits.unlocked name changed locked
  required name flags listed := permits.filled (name, flags) listed
  restricted name changed := by
    have inside : name ∈ changes.names := (Keyed.names_filter_sublist _ _).subset changed
    rw [Record.get_withUpdates distinct inside]
    exact permits.allowed name changed

namespace Engine

variable {e : Engine} {s t : Store} {roots : List Event}

structure StateIn (e : Engine) (s : Store) (r : Record) (state : RecordState) : Prop where
  loaded : (exec (e.stateOf r) s).1 = .ok state
  complete : ∀ up down, (exec (Traversal.collect e.catalog .up r .all) s).1 = .ok up →
    (exec (Traversal.collect e.catalog .down r .all) s).1 = .ok down →
      RecordState.compute e.catalog e.rules r up down = .ok state

theorem stateIn_of_loaded (registered : e.rules.Registered) {r : Record} {state : RecordState}
    (known : e.catalog.has r.schema = true) (loaded : (exec (e.stateOf r) s).1 = .ok state) :
    e.StateIn s r state where
  loaded := loaded
  complete up down above below := by
    obtain ⟨other, computed, given⟩ :=
      e.stateOf_eq_compute registered r known s up down above below
    rw [loaded] at given
    rw [computed, ← given]

theorem checked_of_applyWrite (enforced : e.settings.enforceStateOnReactions = true)
    {r written : Record} {updates : Entries} {turn after : Turn}
    (something : effective turn.chain (turn.current r) updates ≠ [])
    (ran : exec (e.applyWrite r updates) turn = (.ok written, after)) :
    ∃ state, (exec (e.stateOf (turn.current r)) turn.store).1 = .ok state ∧
      state.checkWrite e.catalog (turn.current r)
        (effective turn.chain (turn.current r) updates) = .ok () := by
  unfold applyWrite at ran
  obtain ⟨found, noted, looked, ran⟩ := exec_bind_eq_ok.mp ran
  have same : Store.SameRows turn.store noted.store := by
    have moved := Turn.onStore_moves (Store.get_moves (R := Store.SameRows) r.schema r.id) turn
    rwa [looked] at moved
  obtain ⟨rfl, chain⟩ : found = turn.store.peek? r.schema r.id ∧ noted.chain = turn.chain := by
    obtain ⟨answered, rfl⟩ := Prod.mk.inj looked
    exact ⟨(Except.ok.inj answered).symm, rfl⟩
  simp only [exec_bind (get : Step Turn Turn), exec_get, chain] at ran
  change exec (if (effective turn.chain (turn.current r) updates).isEmpty = true then _ else _) _ =
    _ at ran
  rw [if_neg (by simpa using something)] at ran
  obtain ⟨_, checked, guarded, -⟩ := exec_bind_eq_ok.mp ran
  unfold guardWrite at guarded
  rw [if_pos enforced, Turn.exec_onStore] at guarded
  obtain ⟨passed, -⟩ := Prod.mk.inj guarded
  obtain ⟨state, looked, loaded, passed⟩ := exec_bind_eq_ok.mp (Prod.ext passed rfl)
  obtain ⟨passed, -⟩ := Prod.mk.inj passed
  have before := e.stateOf_of_sameRows (turn.current r) same
  refine ⟨state, ?_, passed⟩
  rw [← before]
  exact congrArg Prod.fst loaded

/-- A host call has begun its cascade: the store then, with what the call itself has changed, and
the first events. -/
inductive Opens (e : Engine) (s : Store) : HostCall → Store → List Event → Prop where
  | create {schema : Key} {payload : Value} {placement : Placement} {contract : Contract}
      {tree : Payload} {records : List Record} {after : Store}
      (composed : e.compose schema .create placement = .ok contract)
      (valid : e.contracts.validate e.catalog contract payload = .ok tree)
      (ran : exec (e.insertTree tree none) s.enter = (.ok records, after)) :
      Opens e s (.create schema payload placement) after (records.map Event.created)
  | update {schema id : Key} {updates : Value} {definition : Schema} {data : Entries}
      {current written : Record} {before after : Store}
      (known : e.catalog.require schema = .ok definition)
      (read : e.readUpdates schema updates = .ok data)
      (found : exec (Store.require schema id) s.enter = (.ok current, before))
      (something : current.changes data ≠ [])
      (ran : exec (e.overwrite definition current (current.changes data)) before =
        (.ok written, after)) :
      Opens e s (.update schema id updates) after
        [.modifiedOf written (current.changes data).names]
  | delete {schema id : Key} {definition : Schema} {current : Record} {state : RecordState}
      {removed : Bool} {before looked after : Store}
      (known : e.catalog.require schema = .ok definition)
      (found : exec (Store.require schema id) s.enter = (.ok current, before))
      (loaded : exec (e.stateOf current) before = (.ok state, looked))
      (free : (!definition.fieldNames.isEmpty &&
        definition.fieldNames.all state.immutableFields.contains) = false)
      (ran : exec (Store.delete current) looked = (.ok removed, after)) :
      Opens e s (.delete schema id) after [.deleted current]
  | report {events : List Event} : Opens e s (.report events) s.enter events

/-- In the course of a host call, a stored row is written: the store just before, the record as it
is then, what is put into it, and the store just after. The host itself writes when it updates the
row; all other writes are asked for in the cascade. -/
inductive Overwrites (e : Engine) (s : Store) :
    HostCall → Store → Record → Entries → Store → Prop where
  | host {schema id : Key} {updates : Value} {definition : Schema} {data : Entries}
      {current written : Record} {before after : Store}
      (known : e.catalog.require schema = .ok definition)
      (read : e.readUpdates schema updates = .ok data)
      (found : exec (Store.require schema id) s.enter = (.ok current, before))
      (something : current.changes data ≠ [])
      (ran : exec (e.overwrite definition current (current.changes data)) before =
        (.ok written, after)) :
      Overwrites e s (.update schema id updates) before current (current.changes data) after
  | reaction {call : HostCall} {start : Store} {roots : List Event} {r written : Record}
      {updates data : Entries} {turn after : Turn} (opens : e.Opens s call start roots)
      (asked : e.Requests start roots r updates turn)
      (stored : turn.store.row? r.schema r.id = some data)
      (something : effective turn.chain ⟨r.schema, r.id, data⟩ updates ≠ [])
      (ran : exec (e.applyWrite r updates) turn = (.ok written, after)) :
      Overwrites e s call turn.store ⟨r.schema, r.id, data⟩
        (effective turn.chain ⟨r.schema, r.id, data⟩ updates) after.store

theorem alters_of_effective (chain : Chain) (r : Record) (updates : Entries) :
    r.Alters (effective chain r updates) := by
  intro name v left proper
  have other := (of_mem_effective left).2.1
  rw [Record.get, if_neg proper] at other
  unfold Record.differs
  cases found : r.data.find? name with
  | none => rfl
  | some old =>
    rw [Entries.get, found] at other
    simpa using other

theorem alters_changes (r : Record) (updates : Entries) : r.Alters (r.changes updates) :=
  fun _ _ inside _ => Record.differs_of_mem_changes inside

section

variable {call : HostCall} {before after : Store} {r : Record} {changes : Entries}

theorem Overwrites.alters (wrote : e.Overwrites s call before r changes after) :
    r.Alters changes := by
  cases wrote with
  | host => exact alters_changes _ _
  | reaction => exact alters_of_effective _ _ _

theorem Overwrites.putRow (wrote : e.Overwrites s call before r changes after) :
    before.row? r.schema r.id = some r.data ∧
      after.tables = (before.putRow r.schema r.id (r.withUpdates changes).data).tables := by
  cases wrote with
  | host known read found something ran =>
    obtain ⟨-, stored, -⟩ := Store.of_require_ok found
    exact ⟨stored, (of_overwrite_ok stored ran).2.2.2⟩
  | @reaction call start roots r written updates data turn after opens asked stored something ran =>
    have comes := e.applyWrite_written r updates turn
    rw [ran] at comes
    cases comes with
    | dropped looked nothing =>
      rw [Turn.current_of_stored stored] at nothing
      exact (something nothing).elim
    | changed looked present left _ =>
      obtain rfl := Option.some.inj (present.symm.trans stored)
      obtain ⟨trace, rfl⟩ := looked
      subst left
      exact ⟨stored, rfl⟩

theorem Overwrites.checked (enforced : e.settings.enforceStateOnReactions = true)
    (wrote : e.Overwrites s call before r changes after) :
    ∃ state, (exec (e.stateOf r) before).1 = .ok state ∧
      state.checkWrite e.catalog r changes = .ok () := by
  cases wrote with
  | host known read found something ran =>
    obtain ⟨-, stored, -⟩ := Store.of_require_ok found
    exact (of_overwrite_ok stored ran).1
  | @reaction call start roots r written updates data turn after opens asked stored something ran =>
    have current := Turn.current_of_stored stored
    rw [← current] at something ⊢
    exact checked_of_applyWrite enforced something ran

theorem Overwrites.respects (registered : e.rules.Registered)
    (enforced : e.settings.enforceStateOnReactions = true)
    (wrote : e.Overwrites s call before r changes after) (distinct : changes.names.Nodup) :
    ∃ schema state, e.catalog.get? r.schema = some schema ∧ e.StateIn before r state ∧
      state.Respects schema r changes := by
  obtain ⟨state, loaded, checked⟩ := wrote.checked enforced
  obtain ⟨schema, known⟩ := RecordState.known_of_checkWrite checked
  have has : e.catalog.has r.schema = true := Option.isSome_iff_exists.mpr ⟨schema, known⟩
  have permits := (RecordState.checkWrite_eq_ok known).mp checked
  exact ⟨schema, state, known, stateIn_of_loaded registered has loaded,
    permits.respects wrote.alters distinct⟩

end

theorem Opens.isSome_scope {call : HostCall} {start : Store} (opens : e.Opens s call start roots) :
    start.scope.isSome = true := by
  have kept : Store.SameScope s.enter start := by
    cases opens with
    | @create _ _ _ _ tree _ _ composed valid ran =>
      have moved := e.insertTree_moves (R := Store.SameScope) tree none s.enter
      rwa [ran] at moved
    | @update schema id _ definition data current written before _ known read found something ran =>
      have looked := Store.require_moves (R := Store.SameScope) schema id s.enter
      rw [found] at looked
      have moves : Moves Store.SameScope
          (e.overwrite definition current (current.changes data)) :=
        moves_bind (e.stateOf_moves _) fun _ => moves_bind (moves_ofExcept _) fun _ =>
          moves_bind (moves_ofExcept _) fun _ => Store.write_moves _ _
      have moved := moves before
      rw [ran] at moved
      exact IsTrans.trans (r := Store.SameScope) _ _ _ looked moved
    | @delete schema id _ current _ _ before looked _ known found loaded free ran =>
      have first := Store.require_moves (R := Store.SameScope) schema id s.enter
      rw [found] at first
      have second := e.stateOf_moves (R := Store.SameScope) current before
      rw [loaded] at second
      have third := Store.delete_moves (R := Store.SameScope) current looked
      rw [ran] at third
      refine IsTrans.trans (r := Store.SameScope) _ _ _ first ?_
      exact IsTrans.trans (r := Store.SameScope) _ _ _ second third
    | report => exact refl (r := Store.SameScope) s.enter
  rw [show start.scope = _ from kept]
  exact s.isSome_scope_enter

def ActsByWrites (e : Engine) (s : Store) (call : HostCall) : Prop :=
  ∀ start roots p turn change, e.Opens s call start roots → e.Acts start roots p turn →
    p.change? e.catalog = some change → Store.SameRows turn.store (change turn.store)

/-- What happens to the rows in one step of a host call: nothing, or a stored row is written, or
records are created beside the stored ones, or the host deletes a record. -/
inductive Advances (e : Engine) (s : Store) (call : HostCall) : Store → Store → Prop where
  | looked {before after : Store} (same : Store.SameRows before after) :
      Advances e s call before after
  | wrote {before after : Store} {r : Record} {changes : Entries}
      (wrote : e.Overwrites s call before r changes after) : Advances e s call before after
  | created {schema : Key} {payload : Value} {placement : Placement} {before after : Store}
      (creates : call = .create schema payload placement) (grows : Store.Grows before after) :
      Advances e s call before after
  | deleted {schema id : Key} {before after : Store} (deletes : call = .delete schema id)
      (removed : after.tables = (before.removeRow schema id).tables) :
      Advances e s call before after

theorem insertRecord_grows (e : Engine) (p : Payload) (parent : Option Record) :
    Moves Store.Grows (e.insertRecord p parent) :=
  moves_bind (moves_ofExcept _) fun _ => moves_bind (e.stateOf_moves _) fun _ =>
    moves_bind (moves_ofExcept _) fun _ => Store.insert_grows _ _ _ _

theorem Opens.advances {call : HostCall} {start : Store} (opens : e.Opens s call start roots) :
    Relation.ReflTransGen (e.Advances s call) s start := by
  have entered : e.Advances s call s s.enter := .looked (Store.sameRows_enter s)
  refine .head entered ?_
  cases opens with
  | @create _ _ _ _ tree _ _ composed valid ran =>
    have grows := insertTree_moves_of (Q := Store.Grows) e.insertRecord_grows tree none s.enter
    rw [ran] at grows
    exact .single (.created rfl grows)
  | update known read found something ran =>
    have first := (Store.of_require_ok found).1
    exact .head (.looked first) (.single (.wrote (.host known read found something ran)))
  | @delete schema id _ current state _ before looked _ known found loaded free ran =>
    obtain ⟨first, stored, rfl, rfl⟩ := Store.of_require_ok found
    have second := e.stateOf_moves (R := Store.SameRows) current before
    rw [loaded] at second
    refine .head (.looked first) (.head (.looked second) (.single (.deleted rfl ?_)))
    exact Store.delete_tables ((Store.row?_of_sameRows second _ _).trans stored) ran
  | report => exact .refl

theorem propagate_advances {call : HostCall} (only : e.ActsByWrites s call) {start : Store}
    (opens : e.Opens s call start roots) :
    Relation.ReflTransGen (e.Advances s call) start (exec (e.propagate roots) start).2 := by
  have still {before after : Store} (same : Store.SameRows before after) :
      Relation.ReflTransGen (e.Advances s call) before after := .single (.looked same)
  have keeps : e.Keeps start roots (Turn.Across (Relation.ReflTransGen (e.Advances s call))) := by
    constructor
    case toIsPreorder => infer_instance
    case look => exact fun turn trace invocations => still rfl
    case write =>
      intro r updates turn asked
      have comes := e.applyWrite_written r updates turn
      cases ran : exec (e.applyWrite r updates) turn with
      | mk outcome after =>
        rw [ran] at comes
        cases comes with
        | dropped looked nothing =>
          obtain ⟨trace, rfl⟩ := looked
          exact still rfl
        | refused looked =>
          obtain ⟨trace, rfl⟩ := looked
          exact still rfl
        | changed looked stored left something =>
          subst left
          exact .single (.wrote (.reaction opens asked stored something ran))
    case change =>
      intro p turn change acts asked
      exact still (only start roots p turn change opens acts asked)
    case emit => exact fun event next turn acts => .refl
    case enter => exact fun turn => still (Store.sameRows_enter turn.store)
    case leave =>
      intro body next turn acts
      exact still (Turn.sameRows_inScope (acts.isSome_scope opens.isSome_scope)
        (e.carryOut_moves body))
    case answer => exact fun name call turn events after calls answered => .refl
  rw [exec_propagate]
  exact keeps.drain fun turn => .refl

def EndsCascade (e : Engine) (s : Store) (call : HostCall) (t : Store) : Prop :=
  ∃ start roots, e.Opens s call start roots ∧ Store.SameRows (exec (e.propagate roots) start).2 t

theorem create_eq_ok {schema : Key} {payload : Value} {placement : Placement} {m : Mutation} :
    exec (e.create schema payload placement) s = (.ok m, t) ↔
      ∃ contract tree records start cascade ended,
        e.compose schema .create placement = .ok contract ∧
        e.contracts.validate e.catalog contract payload = .ok tree ∧
        exec (e.insertTree tree none) s.enter = (.ok records, start) ∧
        exec (e.propagate (records.map Event.created)) start = (.ok cascade, ended) ∧
        m = ⟨records.headD ⟨schema, .text "", []⟩, some cascade⟩ ∧ t = ended.leave false := by
  unfold create
  constructor
  · intro ran
    obtain ⟨contract, composed, ran⟩ := exec_ofExcept_bind_eq_ok.mp ran
    obtain ⟨tree, valid, ran⟩ := exec_ofExcept_bind_eq_ok.mp ran
    obtain ⟨after, inside, rfl⟩ := Store.exec_transaction_eq_ok.mp ran
    obtain ⟨records, start, inserted, cascaded⟩ := exec_bind_eq_ok.mp inside
    obtain ⟨cascade, ended, propagated, answered⟩ := exec_bind_eq_ok.mp cascaded
    cases answered
    exact ⟨contract, tree, records, start, cascade, _, composed, valid, inserted, propagated, rfl,
      rfl⟩
  · rintro ⟨contract, tree, records, start, cascade, ended, composed, valid, inserted, propagated,
      rfl, rfl⟩
    refine exec_ofExcept_bind_eq_ok.mpr ⟨contract, composed, ?_⟩
    refine exec_ofExcept_bind_eq_ok.mpr ⟨tree, valid, ?_⟩
    refine Store.exec_transaction_eq_ok.mpr ⟨ended, ?_, rfl⟩
    refine exec_bind_eq_ok.mpr ⟨records, start, inserted, ?_⟩
    exact exec_bind_eq_ok.mpr ⟨cascade, ended, propagated, rfl⟩

theorem create_ends {schema : Key} {payload : Value} {placement : Placement} {m : Mutation}
    (ran : exec (e.create schema payload placement) s = (.ok m, t)) :
    e.EndsCascade s (.create schema payload placement) t := by
  obtain ⟨contract, tree, records, start, cascade, ended, composed, valid, inserted, propagated, -,
    rfl⟩ := create_eq_ok.mp ran
  refine ⟨start, _, .create composed valid inserted, ?_⟩
  rw [propagated]
  exact Store.sameRows_leave_false ended

theorem update_ends {schema id : Key} {updates : Value} {m : Mutation}
    (ran : exec (e.update schema id updates) s = (.ok m, t)) :
    Store.SameRows s t ∨ e.EndsCascade s (.update schema id updates) t := by
  rw [update_eq] at ran
  obtain ⟨definition, known, ran⟩ := exec_ofExcept_bind_eq_ok.mp ran
  obtain ⟨data, read, ran⟩ := exec_ofExcept_bind_eq_ok.mp ran
  obtain ⟨after, inside, rfl⟩ := Store.exec_transaction_eq_ok.mp ran
  obtain ⟨current, before, found, inside⟩ := exec_bind_eq_ok.mp inside
  by_cases nothing : (current.changes data).isEmpty = true
  · left
    rw [revise_of_isEmpty nothing] at inside
    obtain ⟨-, rfl⟩ := Prod.mk.inj inside
    have looked : Store.SameRows s before :=
      Eq.trans (Store.of_require_ok found).1 (Store.sameRows_enter s)
    exact (Store.sameRows_leave_false before).trans looked
  · right
    rw [revise_of_not_isEmpty nothing] at inside
    obtain ⟨written, start, wrote, cascaded⟩ := exec_bind_eq_ok.mp inside
    obtain ⟨cascade, ended, propagated, answered⟩ := exec_bind_eq_ok.mp cascaded
    obtain ⟨-, rfl⟩ := Prod.mk.inj answered
    have something : current.changes data ≠ [] := by simpa using nothing
    refine ⟨start, _, .update known read found something wrote, ?_⟩
    rw [propagated]
    exact Store.sameRows_leave_false ended

theorem delete_ends {schema id : Key} {m : Mutation}
    (ran : exec (e.delete schema id) s = (.ok m, t)) :
    e.EndsCascade s (.delete schema id) t := by
  unfold delete at ran
  obtain ⟨definition, known, ran⟩ := exec_ofExcept_bind_eq_ok.mp ran
  obtain ⟨after, inside, rfl⟩ := Store.exec_transaction_eq_ok.mp ran
  obtain ⟨current, before, found, inside⟩ := exec_bind_eq_ok.mp inside
  obtain ⟨state, looked, loaded, inside⟩ := exec_bind_eq_ok.mp inside
  dsimp only at inside
  split at inside
  · cases inside
  · rename_i free
    obtain ⟨removed, start, erased, cascaded⟩ := exec_bind_eq_ok.mp inside
    obtain ⟨cascade, ended, propagated, answered⟩ := exec_bind_eq_ok.mp cascaded
    obtain ⟨-, rfl⟩ := Prod.mk.inj answered
    refine ⟨start, _, .delete known found loaded (Bool.eq_false_iff.mpr free) erased, ?_⟩
    rw [propagated]
    exact Store.sameRows_leave_false ended

theorem perform_ends {call : HostCall} {answer : HostAnswer}
    (ran : exec (e.perform call) s = (.ok answer, t)) :
    Store.SameRows s t ∨ e.EndsCascade s call t := by
  cases call with
  | create schema payload placement =>
    obtain ⟨m, _, created, answered⟩ := exec_bind_eq_ok.mp ran
    obtain ⟨-, rfl⟩ := Prod.mk.inj answered
    exact .inr (create_ends created)
  | update schema id updates =>
    obtain ⟨m, _, updated, answered⟩ := exec_bind_eq_ok.mp ran
    obtain ⟨-, rfl⟩ := Prod.mk.inj answered
    exact update_ends updated
  | delete schema id =>
    obtain ⟨m, _, deleted, answered⟩ := exec_bind_eq_ok.mp ran
    obtain ⟨-, rfl⟩ := Prod.mk.inj answered
    exact .inr (delete_ends deleted)
  | report events =>
    obtain ⟨c, _, reported, answered⟩ := exec_bind_eq_ok.mp ran
    obtain ⟨-, rfl⟩ := Prod.mk.inj answered
    obtain ⟨ended, propagated, rfl⟩ := Store.exec_transaction_eq_ok.mp reported
    refine .inr ⟨s.enter, events, .report, ?_⟩
    rw [propagated]
    exact Store.sameRows_leave_false ended

/-- Where states are enforced on reactions too, every write of a stored row in the course of a host
call, by the host or by a reaction, respects the state that the record has just before it. As long
as actions change rows by writes only, there is nothing else that happens to stored rows, save that
the host deletes one: not before the call's cascade ends, by a failure or not, and not in a call
that succeeds. -/
theorem perform_respects (e : Engine) (registered : e.rules.Registered)
    (enforced : e.settings.enforceStateOnReactions = true) (call : HostCall) (s : Store) :
    (∀ before r changes after, e.Overwrites s call before r changes after → changes.names.Nodup →
      before.row? r.schema r.id = some r.data ∧
        after.tables = (before.putRow r.schema r.id (r.withUpdates changes).data).tables ∧
        ∃ schema state, e.catalog.get? r.schema = some schema ∧ e.StateIn before r state ∧
          state.Respects schema r changes) ∧
      (e.ActsByWrites s call →
        (∀ start roots, e.Opens s call start roots →
          Relation.ReflTransGen (e.Advances s call) s (exec (e.propagate roots) start).2) ∧
        ∀ answer t, exec (e.perform call) s = (.ok answer, t) →
          Relation.ReflTransGen (e.Advances s call) s t) := by
  constructor
  · intro before r changes after wrote distinct
    obtain ⟨stored, put⟩ := wrote.putRow
    exact ⟨stored, put, wrote.respects registered enforced distinct⟩
  · intro only
    have cascades (start : Store) (roots : List Event) (opens : e.Opens s call start roots) :
        Relation.ReflTransGen (e.Advances s call) s (exec (e.propagate roots) start).2 :=
      opens.advances.trans (propagate_advances only opens)
    refine ⟨cascades, fun answer t ran => ?_⟩
    rcases perform_ends ran with same | ⟨start, roots, opens, same⟩
    · exact .single (.looked same)
    · exact (cascades start roots opens).tail (.looked same)

/-- Closed tasks have their title locked; a reaction that notes the end of a task leaves it. -/
theorem perform_report_respects :
    let task : Schema :=
      { name := .text "Task"
        fields := [{ name := "status", kind := .known .text },
          { name := "title", kind := .known .text }, { name := "note", kind := .known .text }] }
    let c : Catalog := { schemas := [(.text "Task", task)] }
    let locks : StateRule :=
      { schema := .text "Task"
        effect := { onFields := [.text "title"], immutable := true }
        conditions := [⟨{ origin := .object, tail := ["status"], source := "" }, .eq,
          .value (.text "done")⟩] }
    let notes : Reaction :=
      { schema := .text "Task", event := .modified
        action := .set [("note", .value (.text "closed"))] }
    let b : RuleBook :=
      { reactions := [notes], reactionReaches := [((.text "Task", .modified), {})]
        stateRules := [locks], stateReaches := [(.text "Task", {})] }
    let e : Engine := { settings := { enforceStateOnReactions := true }, catalog := c, rules := b }
    let closed : Record := ⟨.text "Task", .text "first", [("status", .text "done")]⟩
    let s : Store := { tables := [(.text "Task", [(.text "first", closed.data)])] }
    let call : HostCall := .report [.modifiedOf closed ["status"]]
    e.ActsByWrites s call ∧ ∃ before after state,
      e.Overwrites s call before closed [("note", .text "closed")] after ∧
        e.StateIn before closed state ∧ state.immutableFields = ["title"] ∧
        state.Respects task closed [("note", .text "closed")] := by
  intro task c locks notes b e closed s call
  have first : ({} : RuleBook).addReaction c notes = .ok
      { reactions := [notes], reactionReaches := [((.text "Task", .modified), {})] } := rfl
  have registered : b.Registered :=
    .stateRule (.reaction .empty first) (show RuleBook.addStateRule _ c locks = .ok b from rfl)
  let root : Event := .modifiedOf closed ["status"]
  have dispatches : e.Dispatches s.enter [root] (root.numbered 0) { store := s.enter } :=
    ⟨.start s.enter [root], root, 0, [], s.enter, .refl, rfl, rfl, rfl⟩
  have reacts : e.Reacts s.enter [root] (root.numbered 0) notes { store := s.enter } :=
    ⟨_, [], [], dispatches, rfl, rfl⟩
  let turn : Turn :=
    { store := { s.enter with trace := [(.related .self, .text "Task")] } }
  have targets : e.Targets s.enter [root] (root.numbered 0) notes ([] ++ closed :: []) turn :=
    ⟨_, reacts, rfl⟩
  have asked : e.Requests s.enter [root] closed [("note", .text "closed")] turn :=
    .set targets rfl rfl rfl (by decide)
  have opens : e.Opens s call s.enter [root] := .report
  have succeeds : (exec (e.applyWrite closed [("note", .text "closed")]) turn).1.isOk = true := by
    decide +kernel +zetaReduce
  obtain ⟨written, after, ran⟩ := exists_exec_of_isOk succeeds
  have wrote : e.Overwrites s call turn.store closed [("note", .text "closed")] after.store :=
    .reaction opens asked (show _ = some closed.data from rfl) (by decide) ran
  have only : e.ActsByWrites s call := by
    intro start roots p turn change _ acts
    obtain ⟨r, listed, name, custom⟩ := acts.exists_custom
    obtain rfl := List.mem_singleton.mp listed
    cases custom
  obtain ⟨each, -⟩ := e.perform_respects registered rfl call s
  obtain ⟨-, -, schema, state, known, stated, respects⟩ := each _ _ _ _ wrote (by decide)
  obtain rfl : task = schema := Option.some.inj known
  have computed := stated.complete [] [] rfl rfl
  obtain rfl : (⟨.text "Task", [("title", { immutable := true })]⟩ : RecordState) = state :=
    Except.ok.inj computed
  exact ⟨only, _, _, _, wrote, stated, rfl, respects⟩

end Engine

end RecordRules
