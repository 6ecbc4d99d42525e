import RecordRules.Proofs.WriteAccount

/-!
What a cascade takes as settled, and what becomes of the writes that are asked for. The settled
values are those of the last writes, and they are the stored ones until a row is changed past the
reactions. Only then a write can be dropped that would change the row.
-/
namespace RecordRules

open Step

def lastWritten? (writes : List Write) (schema id : Key) (field : String) : Option Value :=
  (writes.reverse.find? fun w => w.record.key == (schema, id) && w.changed.contains field).map
    fun w => w.record.get field

theorem lastWritten?_concat (writes : List Write) (w : Write) (schema id : Key) (field : String) :
    lastWritten? (writes ++ [w]) schema id field =
      if w.record.key == (schema, id) && w.changed.contains field then some (w.record.get field)
      else lastWritten? writes schema id field := by
  rw [lastWritten?, List.reverse_append, List.reverse_singleton, List.singleton_append,
    List.find?_cons]
  cases w.record.key == (schema, id) && w.changed.contains field with
  | true => rfl
  | false => rfl

theorem find?_cells (r : Record) (updates : Entries) (schema id : Key) (field : String) :
    Keyed.find? (updates.map fun (name, v) => ((r.schema, r.id, name), v)) (schema, id, field) =
      if r.key == (schema, id) then updates.find? field else none := by
  induction updates with
  | nil => exact (ite_self none).symm
  | cons update rest ih =>
    obtain ⟨name, v⟩ := update
    have cell : ((r.schema, r.id, name) == (schema, id, field)) =
        (r.key == (schema, id) && name == field) :=
      (Bool.and_assoc (r.schema == schema) (r.id == id) (name == field)).symm
    rw [List.map_cons, Keyed.find?_cons, ih, cell, Keyed.find?_cons]
    cases r.key == (schema, id) with
    | true => rfl
    | false => rfl

theorem Chain.settled_settle (chain : Chain) (r : Record) (updates : Entries) (schema id : Key)
    (field : String) :
    (chain.settle r updates).settled.find? (schema, id, field) =
      (if r.key == (schema, id) then Keyed.find? updates.reverse field else none).or
        (chain.settled.find? (schema, id, field)) := by
  rw [settle, Keyed.find?_merge, ← List.map_reverse, find?_cells]

theorem Turn.settled_wrote (turn : Turn) (store : Store) {r : Record} {data changes : Entries}
    (written : r.data = data.merge changes) (schema id : Key) {field : String}
    (proper : field ≠ "id") :
    (turn.wrote store r changes).chain.settled.find? (schema, id, field) =
      if r.key == (schema, id) && changes.names.contains field then some (r.get field)
      else turn.chain.settled.find? (schema, id, field) := by
  have settled := turn.chain.settled_settle r changes schema id field
  refine settled.trans ?_
  cases r.key == (schema, id) with
  | false => rfl
  | true =>
    have row :
        r.get field = ((Keyed.find? changes.reverse field).or (data.find? field)).getD .null := by
      rw [Record.get, if_neg proper, Entries.get, written, Keyed.find?_merge]
    rw [← Keyed.isSome_find?_reverse, row]
    cases Keyed.find? changes.reverse field with
    | none => rfl
    | some v => rfl

/-- The settled values are those of the last writes. -/
def Turn.Settles (turn : Turn) : Prop :=
  ∀ schema id field, field ≠ "id" →
    turn.chain.settled.find? (schema, id, field) =
      lastWritten? turn.chain.writes schema id field

def Turn.Mirrors (turn : Turn) : Prop :=
  ∀ schema id field v, field ≠ "id" → turn.chain.settled.find? (schema, id, field) = some v →
    ∃ data, turn.store.row? schema id = some data ∧ data.find? field = some v

namespace Turn.Mirrors

variable {turn : Turn}

theorem of_sameRows (mirrors : turn.Mirrors) {later : Turn}
    (rows : Store.SameRows turn.store later.store) (chain : later.chain = turn.chain) :
    later.Mirrors := by
  obtain ⟨⟨_⟩, _⟩ := turn
  obtain ⟨⟨_⟩, _⟩ := later
  obtain rfl := chain
  obtain rfl := rows
  exact mirrors

theorem wrote (mirrors : turn.Mirrors) {schema id : Key} {data changes : Entries}
    (stored : turn.store.row? schema id = some data) :
    (turn.wrote turn.store ⟨schema, id, data.merge changes⟩ changes).Mirrors := by
  intro other otherId field v proper settled
  rw [turn.settled_wrote turn.store rfl other otherId proper] at settled
  have row : (turn.wrote turn.store ⟨schema, id, data.merge changes⟩ changes).store.row? other
      otherId = _ := turn.store.row?_putRow schema id other otherId (data.merge changes)
  rw [row]
  by_cases same : (schema, id) == (other, otherId)
  · have there : Record.key ⟨schema, id, data.merge changes⟩ == (other, otherId) := same
    rw [there, Bool.true_and, ← Keyed.isSome_find?_reverse] at settled
    rw [if_pos same]
    refine ⟨_, rfl, ?_⟩
    rw [Keyed.find?_merge]
    cases found : Keyed.find? changes.reverse field with
    | none =>
      rw [found] at settled
      obtain ⟨old, present, holds⟩ := mirrors other otherId field v proper settled
      rw [← turn.store.row?_congr same, stored] at present
      obtain rfl : data = old := Option.some.inj present
      exact holds
    | some put =>
      rw [found, Option.isSome_some, if_pos rfl, Record.get, if_neg proper, Entries.get,
        Keyed.find?_merge, found] at settled
      exact settled
  · have elsewhere : ¬Record.key ⟨schema, id, data.merge changes⟩ == (other, otherId) := same
    rw [Bool.not_eq_true] at elsewhere
    rw [elsewhere] at settled
    rw [if_neg same]
    exact mirrors other otherId field v proper settled

end Turn.Mirrors

/-- The last write of the cascade to a field put a value there that is asked for, but by now the
record has another one. -/
def Turn.Overtaken (turn : Turn) (r : Record) (field : String) (v : Value) : Prop :=
  ∃ last, lastWritten? turn.chain.writes r.schema r.id field = some last ∧ last.equals v = true ∧
    (r.get field).equals v = false

def Record.Holds (r : Record) (field : String) (v : Value) : Prop :=
  r.get field = v ∨ (r.get field).equals v = true

namespace Engine

variable {e : Engine} {s : Store} {roots : List Event} {r : Record} {updates : Entries}
  {turn : Turn}

theorem settles_keeps (e : Engine) (s : Store) (roots : List Event) :
    e.Keeps s roots (Stays Turn.Settles) where
  look _ _ _ settles := settles
  write r updates turn _ settles := by
    have written := e.applyWrite_written r updates turn
    generalize exec (e.applyWrite r updates) turn = outcome at written
    cases written with
    | dropped looked nothing => exact settles
    | refused looked => exact settles
    | @changed store data changes looked stored left something =>
      intro schema id field proper
      rw [turn.settled_wrote store rfl schema id proper, settles schema id field proper]
      exact (lastWritten?_concat turn.chain.writes ⟨_, changes.names⟩ schema id field).symm
  change _ _ _ _ _ settles := settles
  emit _ _ _ _ settles := settles
  enter _ settles := settles
  leave body next turn acts settles := by
    obtain ⟨store, left⟩ := Turn.exists_of_inScope (e.carryOut body) turn
    rw [left]
    exact settles
  answer _ _ _ _ _ _ _ settles := settles

theorem mirrors_keeps (leaves : ∀ p turn, e.Acts s roots p turn → e.Leaves p turn) :
    e.Keeps s roots (Stays Turn.Mirrors) where
  look _ _ _ mirrors := mirrors
  write r updates turn _ mirrors := by
    have written := e.applyWrite_written r updates turn
    generalize exec (e.applyWrite r updates) turn = outcome at written
    cases written with
    | dropped looked nothing =>
      obtain ⟨_, rfl⟩ := looked
      exact mirrors
    | refused looked =>
      obtain ⟨_, rfl⟩ := looked
      exact mirrors
    | @changed store data changes looked stored left something =>
      obtain ⟨trace, rfl⟩ := looked
      exact mirrors.wrote stored
  change p turn change acts asked mirrors :=
    mirrors.of_sameRows ((leaves p turn acts).change change asked) rfl
  emit _ _ _ _ mirrors := mirrors
  enter turn mirrors := mirrors.of_sameRows (Store.sameRows_enter turn.store) rfl
  leave body next turn acts mirrors := by
    refine mirrors.of_sameRows ((leaves _ turn acts).inScope body next rfl) ?_
    obtain ⟨store, left⟩ := Turn.exists_of_inScope (e.carryOut body) turn
    rw [left]
  answer _ _ _ _ _ _ _ mirrors := mirrors

/-- A value that is asked for is in the row after the write, unless the same one is settled: then
the row keeps what it holds. -/
theorem holds_or_settled {chain : Chain} {schema id : Key} {data changes : Entries} {field : String}
    {v : Value} (distinct : updates.names.Nodup)
    (left : changes = effective chain ⟨schema, id, data⟩ updates)
    (asked : (field, v) ∈ updates) (proper : field ≠ "id") :
    (⟨schema, id, data.merge changes⟩ : Record).Holds field v ∨
      ∃ last, chain.settled.find? (schema, id, field) = some last ∧ last.equals v = true ∧
        ((⟨schema, id, data⟩ : Record).get field).equals v = false ∧
        (⟨schema, id, data.merge changes⟩ : Record).get field =
          (⟨schema, id, data⟩ : Record).get field := by
  have within : changes.names.Sublist updates.names := by
    rw [left]
    exact effective_names_sublist _ _ _
  have once : changes.names.Nodup := distinct.sublist within
  by_cases changed : (field, v) ∈ changes
  · exact .inl (.inl (Record.get_merge_of_mem once changed proper))
  · have absent : field ∉ changes.names := by
      intro named
      obtain ⟨⟨name, other⟩, inside, rfl⟩ := List.mem_map.mp named
      have also : (name, other) ∈ updates := by
        rw [left] at inside
        exact (of_mem_effective inside).1
      have found := (Keyed.find?_eq_some_iff distinct name other).mpr also
      rw [(Keyed.find?_eq_some_iff distinct name v).mpr asked] at found
      exact changed (Option.some.inj found ▸ inside)
    have kept : (⟨schema, id, data.merge changes⟩ : Record).get field = _ :=
      Record.get_merge_of_not_mem once absent
    rw [left, effective, List.mem_filter, not_and] at changed
    have dropped := changed asked
    rw [Bool.and_eq_true, not_and_or, Bool.not_eq_true', Bool.not_eq_true', Bool.not_eq_false,
      Bool.not_eq_false] at dropped
    rw [Record.Holds, kept]
    rcases dropped with same | settled
    · exact .inl (.inr same)
    · rw [Chain.isSettled] at settled
      cases found : chain.settled.find? (schema, id, field) with
      | none =>
        rw [found] at settled
        cases settled
      | some last =>
        rw [found] at settled
        cases same : ((⟨schema, id, data⟩ : Record).get field).equals v with
        | true => exact .inl (.inr rfl)
        | false => exact .inr ⟨last, rfl, settled, rfl, rfl⟩

/-- A write to a stored record that succeeds leaves it stored with the values that are asked for,
except for values that the cascade wrote last while the row was changed past the reactions since:
there the row keeps what it holds. While no row is changed past the reactions, there is no such
exception. -/
theorem requests_take_effect {data : Entries} {written : Record} {after : Turn}
    (asked : e.Requests s roots r updates turn) (distinct : updates.names.Nodup)
    (stored : turn.store.row? r.schema r.id = some data)
    (ended : exec (e.applyWrite r updates) turn = (.ok written, after)) :
    written.key = r.key ∧ after.store.row? r.schema r.id = some written.data ∧
      (∀ field v, (field, v) ∈ updates → field ≠ "id" → written.Holds field v ∨
        turn.Overtaken ⟨r.schema, r.id, data⟩ field v ∧
          written.get field = (⟨r.schema, r.id, data⟩ : Record).get field) ∧
      ((∀ p turn, e.Acts s roots p turn → e.Leaves p turn) →
        ∀ field v, (field, v) ∈ updates → field ≠ "id" → written.Holds field v) := by
  have current := Turn.current_of_stored stored
  obtain ⟨changes, left, rfl, row⟩ : ∃ changes,
      changes = effective turn.chain ⟨r.schema, r.id, data⟩ updates ∧
        written = ⟨r.schema, r.id, data.merge changes⟩ ∧
        after.store.row? r.schema r.id = some (data.merge changes) := by
    have comes := e.applyWrite_written r updates turn
    rw [ended] at comes
    cases comes with
    | dropped looked nothing =>
      obtain ⟨trace, rfl⟩ := looked
      rw [current] at nothing
      exact ⟨[], nothing.symm, current, stored⟩
    | @changed store present changes looked found left something =>
      obtain rfl : present = data := Option.some.inj (found.symm.trans stored)
      refine ⟨changes, left, rfl, ?_⟩
      refine (store.row?_putRow r.schema r.id r.schema r.id _).trans (if_pos ?_)
      exact BEq.refl (r.schema, r.id)
  have settles : turn.Settles :=
    (settles_keeps e s roots).requests (fun _ settles => settles) asked fun _ _ _ _ => rfl
  refine ⟨rfl, row, fun field v named proper => ?_, fun leaves field v named proper => ?_⟩
  · rcases holds_or_settled distinct left named proper with
      holds | ⟨last, settled, same, other, kept⟩
    · exact .inl holds
    · rw [settles _ _ field proper] at settled
      exact .inr ⟨⟨last, settled, same, other⟩, kept⟩
  · have mirrors : turn.Mirrors :=
      (mirrors_keeps leaves).requests (fun _ mirrors => mirrors) asked fun _ _ _ _ _ found => by
        cases found
    rcases holds_or_settled distinct left named proper with
      holds | ⟨last, settled, same, other, kept⟩
    · exact holds
    · obtain ⟨held, present, found⟩ := mirrors _ _ field last proper settled
      obtain rfl : data = held := Option.some.inj (stored.symm.trans present)
      have holding : (⟨r.schema, r.id, data⟩ : Record).get field = last := by
        rw [Record.get, if_neg proper, Entries.get, found]
        rfl
      rw [holding, same] at other
      cases other

/-- Tasks that an action closes as they are created, opens again past the reactions, and asks to
close once more. -/
def reopening : Engine where
  catalog := { schemas := [(.text "Task", { name := .text "Task" })] }
  rules := { reactions :=
    [{ schema := .text "Task", event := .created, action := .custom (.text "reopen") }] }
  actions := { actions := [(.text "reopen", fun call =>
    .write call.event.object [("status", .text "done")] fun _ =>
    .rawWrite call.event.object [("status", .text "open")] fun _ =>
    .write call.event.object [("status", .text "done")] fun _ => .done [])] }

def oneTask : Store where
  tables := [(.text "Task", [(.text "first", [("status", .text "open")])])]

def task : Record := ⟨.text "Task", .text "first", [("status", .text "open")]⟩

theorem reopening_requests :
    ∃ turn after, reopening.Requests oneTask [.created task] task [("status", .text "done")] turn ∧
      turn.store.row? (.text "Task") (.text "first") = some task.data ∧
      exec (reopening.applyWrite task [("status", .text "done")]) turn = (.ok task, after) := by
  let root : Event := .created task
  let placed := root.numbered 0
  have dispatches : reopening.Dispatches oneTask [root] placed { store := oneTask } :=
    ⟨.start oneTask [root], root, 0, [], oneTask, .refl, rfl, rfl, rfl⟩
  have reacts : reopening.Reacts oneTask [root] placed _ { store := oneTask } :=
    ⟨_, [], [], dispatches, rfl, rfl⟩
  have targets : reopening.Targets oneTask [root] placed _ [task] _ := ⟨_, reacts, rfl⟩
  have called : reopening.Calls oneTask [root] (.text "reopen") ⟨placed, [task], _⟩ _ :=
    ⟨targets, rfl⟩
  have first := Acts.start called rfl rfl
  have second := first.next rfl
  have third := second.next rfl
  exact ⟨_, _, .custom third, rfl, rfl⟩

theorem not_holds_task : ¬task.Holds "status" (.text "done") := by
  rintro (equal | same)
  · have other : Value.text "open" = .text "done" := equal
    exact absurd (Value.text.inj other) (by decide)
  · have other : Value.equals (.text "open") (.text "done") = true := same
    simp [Value.equals, Value.same] at other

/-- A write that succeeds can be lost: the second one that closes the task is taken as settled. -/
theorem not_all_requests_hold :
    ¬∀ (e : Engine) (s : Store) (roots : List Event) (r : Record) (updates : Entries) (turn : Turn)
      (written : Record) (after : Turn), e.Requests s roots r updates turn → updates.names.Nodup →
      (turn.store.row? r.schema r.id).isSome →
      exec (e.applyWrite r updates) turn = (.ok written, after) →
      ∀ field v, (field, v) ∈ updates → field ≠ "id" → written.Holds field v := by
  intro all
  obtain ⟨turn, after, asked, stored, ended⟩ := reopening_requests
  have row : (turn.store.row? task.schema task.id).isSome := by
    rw [show turn.store.row? task.schema task.id = _ from stored]
    rfl
  have holds := all _ _ _ _ _ _ _ _ asked (by decide) row ended "status" (.text "done")
    List.mem_cons_self (by decide)
  exact not_holds_task holds

theorem reopening_overtaken :
    ∃ turn, reopening.Requests oneTask [.created task] task [("status", .text "done")] turn ∧
      turn.Overtaken task "status" (.text "done") ∧
      ¬∀ p turn, reopening.Acts oneTask [.created task] p turn → reopening.Leaves p turn := by
  obtain ⟨turn, after, asked, stored, ended⟩ := reopening_requests
  obtain ⟨-, -, each, only⟩ := requests_take_effect asked (by decide) stored ended
  refine ⟨turn, asked, ?_, fun leaves => ?_⟩
  · rcases each "status" (.text "done") List.mem_cons_self (by decide) with holds | ⟨overtaken, -⟩
    · exact (not_holds_task holds).elim
    · exact overtaken
  · exact not_holds_task (only leaves "status" (.text "done") List.mem_cons_self (by decide))

end Engine

end RecordRules
