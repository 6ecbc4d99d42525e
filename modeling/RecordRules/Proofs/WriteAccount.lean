import RecordRules.Proofs.CascadeOrder
import RecordRules.Proofs.CascadeRequests
import RecordRules.Proofs.IdleEvents
import RecordRules.Proofs.Reading

/-!
The account of a cascade: the writes that a cascade lists, the rows that it leaves and the events
that it dispatches say the same. This holds while custom actions change rows by writes that
reactions see only.
-/
namespace RecordRules

open Step

def Write.event (w : Write) : Event := .modifiedOf w.record w.changed

def lastSnapshot? (writes : List Write) (schema id : Key) : Option Entries :=
  (writes.reverse.find? fun w => w.record.key == (schema, id)).map fun w => w.record.data

theorem lastSnapshot?_concat (writes : List Write) (w : Write) (schema id : Key) :
    lastSnapshot? (writes ++ [w]) schema id =
      if w.record.key == (schema, id) then some w.record.data
      else lastSnapshot? writes schema id := by
  rw [lastSnapshot?, List.reverse_append, List.reverse_singleton, List.singleton_append,
    List.find?_cons]
  cases w.record.key == (schema, id) with
  | true => rfl
  | false => rfl

def Store.rowAfter? (s : Store) (writes : List Write) (schema id : Key) : Option Entries :=
  (lastSnapshot? writes schema id).or (s.row? schema id)

theorem Store.rowAfter?_concat (s : Store) (writes : List Write) (w : Write) (schema id : Key) :
    s.rowAfter? (writes ++ [w]) schema id =
      if w.record.key == (schema, id) then some w.record.data
      else s.rowAfter? writes schema id := by
  rw [rowAfter?, lastSnapshot?_concat]
  split <;> rfl

namespace Record

variable {schema id : Key} {data changes : Entries}

theorem get_merge_of_mem (distinct : changes.names.Nodup) {field : String} {v : Value}
    (changed : (field, v) ∈ changes) (proper : field ≠ "id") :
    (⟨schema, id, data.merge changes⟩ : Record).get field = v := by
  have found := (Keyed.find?_eq_some_iff distinct field v).mpr changed
  rw [get, if_neg proper, Entries.get, Keyed.find?_merge_of_nodup data distinct, found]
  rfl

theorem get_merge_of_not_mem (distinct : changes.names.Nodup) {field : String}
    (kept : field ∉ changes.names) :
    (⟨schema, id, data.merge changes⟩ : Record).get field =
      (⟨schema, id, data⟩ : Record).get field := by
  have absent : changes.find? field = none := by
    rw [← Option.not_isSome_iff_eq_none, Keyed.find?_isSome_iff]
    exact kept
  simp only [get, Entries.get, Keyed.find?_merge_of_nodup data distinct, absent, Option.none_or]

end Record

structure Write.Alters (w : Write) (data : Entries) : Prop where
  something : w.changed ≠ []
  distinct : w.changed.Nodup
  differs : ∀ field ∈ w.changed,
    (({ w.record with data } : Record).get field).equals (w.record.get field) = false
  keeps : ∀ field ∉ w.changed, w.record.get field = ({ w.record with data } : Record).get field

namespace Engine

theorem effective_names_sublist (chain : Chain) (current : Record) (updates : Entries) :
    (effective chain current updates).names.Sublist updates.names :=
  Keyed.names_filter_sublist _ _

theorem mem_effective_iff {chain : Chain} {current : Record} {updates : Entries} {field : String}
    {v : Value} :
    (field, v) ∈ effective chain current updates ↔
      (field, v) ∈ updates ∧ (current.get field).equals v = false ∧
        chain.isSettled current field v = false := by
  rw [effective, List.mem_filter, Bool.and_eq_true, Bool.not_eq_true', Bool.not_eq_true']

theorem of_mem_effective {chain : Chain} {current : Record} {updates : Entries} {field : String}
    {v : Value} (left : (field, v) ∈ effective chain current updates) :
    (field, v) ∈ updates ∧ (current.get field).equals v = false ∧
      chain.isSettled current field v = false :=
  mem_effective_iff.mp left

theorem alters_effective {chain : Chain} {schema id : Key} {data updates changes : Entries}
    (distinct : updates.names.Nodup) (proper : "id" ∉ updates.names)
    (left : changes = effective chain ⟨schema, id, data⟩ updates) (something : changes ≠ []) :
    (⟨⟨schema, id, data.merge changes⟩, changes.names⟩ : Write).Alters data := by
  have within : changes.names.Sublist updates.names := by
    rw [left]
    exact effective_names_sublist _ _ _
  have once : changes.names.Nodup := distinct.sublist within
  constructor
  case something => exact fun none => something (List.map_eq_nil_iff.mp none)
  case distinct => exact once
  case differs =>
    intro field changed
    obtain ⟨⟨_, v⟩, inside, rfl⟩ := List.mem_map.mp changed
    have named : "id" ≠ _ := fun same => proper (within.subset (same ▸ changed))
    rw [Record.get_merge_of_mem once inside named.symm]
    rw [left] at inside
    exact (of_mem_effective inside).2.1
  case keeps => exact fun field kept => Record.get_merge_of_not_mem once kept

/-- What a procedure asks for next leaves all rows, unless it is a write that reactions see: nothing
is changed past them, and no scope is left in a way that restores other rows. -/
structure Leaves (e : Engine) (p : Procedure) (turn : Turn) : Prop where
  change : ∀ change, p.change? e.catalog = some change →
    Store.SameRows turn.store (change turn.store)
  inScope : ∀ body next, p = .inScope body next →
    Store.SameRows (exec (e.carryOut body) { turn with store := turn.store.enter }).2.store
      (exec (Turn.inScope (e.carryOut body)) turn).2.store

/-- A write that a cascade lists after some others was asked for while these were all, and it
changed exactly the listed fields of the row as it was then, which is as the others left it. -/
def Lists (e : Engine) (s : Store) (roots : List Event) (before : List Write) (w : Write) : Prop :=
  ∃ r updates turn data, e.Requests s roots r updates turn ∧ turn.chain.writes = before ∧
    (exec (e.applyWrite r updates) turn).2.chain.writes = before ++ [w] ∧
    turn.store.row? w.record.schema w.record.id = some data ∧
    s.rowAfter? before w.record.schema w.record.id = some data ∧ w.Alters data

structure WritesOnly (e : Engine) (s : Store) (roots : List Event) : Prop where
  leaves : ∀ p turn, e.Acts s roots p turn → e.Leaves p turn
  proper : ∀ r updates turn, e.Requests s roots r updates turn → "id" ∉ updates.names
  distinct : ∀ r updates next turn, e.Acts s roots (.write r updates next) turn →
    updates.names.Nodup

theorem updatesFor_nodup (schema : Schema) (assignments : List (String × Operand)) (scene : Scene) :
    (updatesFor schema assignments scene).names.Nodup := by
  have none : (Keyed.names ([] : Entries)).Nodup := List.nodup_nil
  exact Keyed.nodup_merge none _

theorem WritesOnly.nodup {e : Engine} {s : Store} {roots : List Event}
    (only : e.WritesOnly s roots) {r : Record} {updates : Entries} {turn : Turn}
    (asked : e.Requests s roots r updates turn) : updates.names.Nodup := by
  cases asked with
  | set => exact updatesFor_nodup _ _ _
  | custom acts => exact only.distinct _ _ _ _ acts

/-- The rows are what the writes so far have made of those before. -/
structure Accounts (e : Engine) (s : Store) (roots : List Event) (turn : Turn) : Prop where
  rows : ∀ schema id, turn.store.row? schema id = s.rowAfter? turn.chain.writes schema id
  ids : turn.store.ids = s.ids
  entries : ∀ before w later, turn.chain.writes = before ++ w :: later → e.Lists s roots before w

namespace Accounts

variable {e : Engine} {s : Store} {roots : List Event} {turn : Turn}

theorem start (e : Engine) (s : Store) (roots : List Event) :
    e.Accounts s roots { store := s } where
  rows _ _ := rfl
  ids := rfl
  entries before w later split := by
    have := congrArg List.length split
    simp at this

theorem of_sameRows (accounts : e.Accounts s roots turn) {later : Turn}
    (rows : Store.SameRows turn.store later.store) (chain : later.chain = turn.chain) :
    e.Accounts s roots later := by
  obtain ⟨⟨_⟩, _⟩ := turn
  obtain ⟨⟨_⟩, _⟩ := later
  obtain rfl := chain
  obtain rfl := rows
  exact ⟨accounts.rows, accounts.ids, accounts.entries⟩

theorem entries_concat (accounts : e.Accounts s roots turn) {w : Write}
    (listed : e.Lists s roots turn.chain.writes w) {before later : List Write} {other : Write}
    (split : turn.chain.writes ++ [w] = before ++ other :: later) :
    e.Lists s roots before other := by
  rcases List.eq_nil_or_concat later with rfl | ⟨others, last, rfl⟩
  · obtain ⟨rfl, same⟩ := List.append_inj' split rfl
    obtain rfl : w = other := List.singleton_inj.mp same
    exact listed
  · rw [List.concat_eq_append, ← List.cons_append, ← List.append_assoc] at split
    obtain ⟨earlier, -⟩ := List.append_inj' split rfl
    exact accounts.entries before other others earlier

theorem write (accounts : e.Accounts s roots turn) {r : Record} {updates : Entries}
    (asked : e.Requests s roots r updates turn) (distinct : updates.names.Nodup)
    (proper : "id" ∉ updates.names) :
    e.Accounts s roots (exec (e.applyWrite r updates) turn).2 := by
  cases written : exec (e.applyWrite r updates) turn with
  | mk outcome after =>
    have comes := e.applyWrite_written r updates turn
    rw [written] at comes
    cases comes with
    | dropped looked nothing =>
      obtain ⟨_, rfl⟩ := looked
      exact accounts.of_sameRows rfl rfl
    | refused looked =>
      obtain ⟨_, rfl⟩ := looked
      exact accounts.of_sameRows rfl rfl
    | @changed _ data changes looked stored left something =>
      obtain ⟨trace, rfl⟩ := looked
      let w : Write := ⟨⟨r.schema, r.id, data.merge changes⟩, changes.names⟩
      have listed : e.Lists s roots turn.chain.writes w := by
        refine ⟨r, updates, turn, data, asked, rfl, ?_, stored, ?_, ?_⟩
        · rw [written]
          rfl
        · rw [← accounts.rows]
          exact stored
        · exact alters_effective distinct proper left something
      constructor
      case rows =>
        intro schema id
        change ({ turn.store with trace }.putRow r.schema r.id _).row? schema id =
          s.rowAfter? (turn.chain.writes ++ [w]) schema id
        rw [Store.row?_putRow, Store.rowAfter?_concat, ← accounts.rows]
        rfl
      case ids =>
        have same := Store.ids_putRow (s := { turn.store with trace }) (data.merge changes) stored
        exact same.trans accounts.ids
      case entries => exact fun before other later => accounts.entries_concat listed

theorem keeps (only : e.WritesOnly s roots) : e.Keeps s roots (Stays (e.Accounts s roots)) where
  look _ _ _ accounts := accounts.of_sameRows rfl rfl
  write r updates turn asked accounts :=
    accounts.write asked (only.nodup asked) (only.proper r updates turn asked)
  change p turn change acts asked accounts :=
    accounts.of_sameRows ((only.leaves p turn acts).change change asked) rfl
  emit _ _ _ _ accounts := accounts.of_sameRows rfl rfl
  enter turn accounts := accounts.of_sameRows (Store.sameRows_enter turn.store) rfl
  leave body next turn acts accounts := by
    refine accounts.of_sameRows ((only.leaves _ turn acts).inScope body next rfl) ?_
    obtain ⟨store, left⟩ := Turn.exists_of_inScope (e.carryOut body) turn
    rw [left]
  answer _ _ _ _ _ _ _ accounts := accounts.of_sameRows rfl rfl

end Accounts

end Engine

/-- The events of some writes are among some events, in their order, and they are all of them if
nothing else is submitted. -/
def Heard (silent : Prop) (writes : List Write) (events : List Event) : Prop :=
  (writes.map Write.event).Sublist events ∧ (silent → writes.map Write.event = events)

namespace Heard

variable {silent : Prop} {writes more : List Write} {events others : List Event}

theorem nil : Heard silent [] [] := ⟨.slnil, fun _ => rfl⟩

theorem append (first : Heard silent writes events) (later : Heard silent more others) :
    Heard silent (writes ++ more) (events ++ others) := by
  rw [Heard, List.map_append]
  refine ⟨first.1.append later.1, fun quiet => ?_⟩
  rw [first.2 quiet, later.2 quiet]

theorem submitted (events : List Event) (none : silent → events = []) : Heard silent [] events :=
  ⟨List.nil_sublist events, fun quiet => (none quiet).symm⟩

theorem bare {others : List Event} (heard : Heard silent writes events)
    (same : others = events.map Event.bare) : Heard silent writes others := by
  have bare : writes.map Write.event = (writes.map Write.event).map Event.bare := by
    rw [List.map_map]
    rfl
  rw [same, Heard, bare]
  exact ⟨heard.1.map _, fun quiet => congrArg _ (heard.2 quiet)⟩

end Heard

def Turn.Hears (silent : Prop) (turn later : Turn) : Prop :=
  ∃ writes events, later.chain.writes = turn.chain.writes ++ writes ∧
    later.followUps = turn.followUps ++ events ∧ Heard silent writes events

namespace Turn.Hears

variable {silent : Prop} {turn later : Turn}

theorem of_eq (chain : later.chain = turn.chain) (followUps : later.followUps = turn.followUps) :
    turn.Hears silent later := by
  refine ⟨[], [], ?_, ?_, .nil⟩
  · rw [chain, List.append_nil]
  · rw [followUps, List.append_nil]

theorem submitted (turn : Turn) (events : List Event) (none : silent → events = []) :
    turn.Hears silent { turn with followUps := turn.followUps ++ events } :=
  ⟨[], events, (List.append_nil _).symm, rfl, .submitted events none⟩

instance : IsPreorder Turn (Turn.Hears silent) where
  refl _ := of_eq rfl rfl
  trans := by
    rintro first second third ⟨writes, events, wrote, followed, heard⟩
      ⟨more, others, wroteMore, followedMore, heardMore⟩
    refine ⟨writes ++ more, events ++ others, ?_, ?_, heard.append heardMore⟩
    · rw [wroteMore, wrote, List.append_assoc]
    · rw [followedMore, followed, List.append_assoc]

end Turn.Hears

namespace Engine

structure Silent (e : Engine) (s : Store) (roots : List Event) : Prop where
  emit : ∀ event next turn, ¬e.Acts s roots (.emit event next) turn
  answer : ∀ name call turn events after, e.Calls s roots name call turn →
    exec (e.invoke name call) turn = (.ok events, after) → events = []

variable {e : Engine} {s t : Store} {roots : List Event}

theorem applyWrite_hears (silent : Prop) (e : Engine) (r : Record) (updates : Entries)
    (turn : Turn) : turn.Hears silent (exec (e.applyWrite r updates) turn).2 := by
  have written := e.applyWrite_written r updates turn
  generalize exec (e.applyWrite r updates) turn = outcome at written
  cases written with
  | dropped looked nothing => exact .of_eq rfl rfl
  | refused looked => exact .of_eq rfl rfl
  | changed looked stored left something => exact ⟨[_], [_], rfl, rfl, .refl _, fun _ => rfl⟩

theorem hears_keeps (e : Engine) (s : Store) (roots : List Event) :
    e.Keeps s roots (Turn.Hears (e.Silent s roots)) where
  look _ _ _ := .of_eq rfl rfl
  write r updates turn _ := e.applyWrite_hears _ r updates turn
  change _ _ _ _ _ := .of_eq rfl rfl
  emit event next turn acts :=
    .submitted turn [event] fun silent => (silent.emit event next turn acts).elim
  enter _ := .of_eq rfl rfl
  leave body next turn acts := by
    obtain ⟨store, left⟩ := Turn.exists_of_inScope (e.carryOut body) turn
    rw [left]
    exact .of_eq rfl rfl
  answer name call turn events after calls answered :=
    .submitted after events fun silent => silent.answer name call turn events after calls answered

theorem heard_reaches {course : Course} (reached : e.Reaches s roots course) :
    Heard (e.Silent s roots) course.turn.chain.writes
      (course.dispatched.flatMap Dispatched.followUps) := by
  induction reached with
  | refl => exact .nil
  | tail before goes ih =>
    obtain ⟨waiting, went⟩ := goes
    obtain ⟨d, turn, ran, -, rfl⟩ := advance_ok went
    obtain ⟨store, -, -, dispatched⟩ := (e.hears_keeps s roots).dispatchLoaded before waiting
    obtain ⟨⟨writes, events, wrote, followed, heard⟩, answered⟩ := dispatched d turn ran
    rw [List.nil_append] at followed
    rw [wrote, List.flatMap_append, List.flatMap_singleton, answered, followed]
    exact ih.append heard

/-- The writes that a successful cascade lists account for the rows that it leaves and for the
events that it dispatches. -/
theorem propagate_accounts {c : Cascade} (only : e.WritesOnly s roots)
    (ended : exec (e.propagate roots) s = (.ok c, t)) :
    (∀ schema id, t.row? schema id = s.rowAfter? c.writes schema id) ∧ t.ids = s.ids ∧
      (∀ before w later, c.writes = before ++ w :: later → e.Lists s roots before w) ∧
      Heard (e.Silent s roots) c.writes
        ((c.dispatched.drop roots.length).map fun d => d.event.bare) := by
  have accounts : e.Accounts s roots (e.drain (.start s roots)).2.turn :=
    (Accounts.keeps only).drain (fun _ accounts => accounts.of_sameRows rfl rfl)
      (.start e s roots)
  have dispatched : Heard (e.Silent s roots) c.writes
      ((c.dispatched.drop roots.length).map fun d => d.event.bare) := by
    obtain ⟨last, reached, empty, rfl⟩ := exists_last_of_propagate_ok ended
    obtain ⟨levels, inv⟩ := Course.BreadthFirst.reaches reached
    have order := congrArg (List.drop roots.length) (inv.cascade empty).order
    rw [Course.cascade_followUps, List.map_append, List.drop_left' (List.length_map _),
      ← List.map_drop, ← List.map_drop, List.map_map] at order
    exact (heard_reaches reached).bare order
  obtain ⟨rfl, rfl⟩ := eq_of_propagate_ok ended
  exact ⟨accounts.rows, accounts.ids, accounts.entries, dispatched⟩

/-- An action that closes tasks as they are created. -/
theorem propagate_close_accounts :
    let close : ActionFn := fun call =>
      .write call.event.object [("status", .text "done")] fun _ => .done []
    let e : Engine :=
      { catalog := { schemas := [(.text "Task", { name := .text "Task" })] }
        rules := { reactions :=
          [{ schema := .text "Task", event := .created, action := .custom (.text "close") }] }
        actions := { actions := [(.text "close", close)] } }
    let s : Store := { tables := [(.text "Task", [(.text "first", [("status", .text "open")])])] }
    let root := Event.created ⟨.text "Task", .text "first", [("status", .text "open")]⟩
    e.WritesOnly s [root] ∧ e.Silent s [root] ∧
      ∃ c t, exec (e.propagate [root]) s = (.ok c, t) ∧
        t.row? (.text "Task") (.text "first") = some [("status", .text "done")] ∧
        (c.dispatched.drop 1).map (fun d => d.event.bare) =
          [.modifiedOf ⟨.text "Task", .text "first", [("status", .text "done")]⟩ ["status"]] := by
  intro close e s root
  have only_close (key : Key) (action : ActionFn)
      (known : e.actions.actions.find? key = some action) : action = close := by
    simp only [e, Keyed.find?] at known
    split at known
    · exact (Option.some.inj known).symm
    · cases known
  have procedures (p : Procedure) (turn : Turn) (acts : e.Acts s [root] p turn) :
      (∃ r, p = .write r [("status", .text "done")] fun _ => .done []) ∨ p = .done [] := by
    induction acts with
    | @start name call turn key action called named known =>
      left
      obtain rfl := only_close key action known
      exact ⟨call.event.object, rfl⟩
    | next before answered ih =>
      right
      rcases ih with ⟨r, rfl⟩ | rfl
      · rw [answer?, Procedure.after] at answered
        split at answered
        · cases answered
          rfl
        · cases answered
      · cases answered
    | enter before ih => rcases ih with ⟨r, asked⟩ | asked <;> cases asked
  have only : e.WritesOnly s [root] := by
    constructor
    case leaves =>
      intro p turn acts
      constructor
      · intro change asked
        rcases procedures p turn acts with ⟨r, rfl⟩ | rfl <;> cases asked
      · rintro body next rfl
        rcases procedures _ turn acts with ⟨r, asked⟩ | asked <;> cases asked
    case proper =>
      intro r updates turn asked
      cases asked with
      | set targets sets done known something =>
        obtain ⟨before, reacts, -⟩ := targets
        rw [List.mem_singleton.mp reacts.mem.1] at sets
        cases sets
      | custom acts =>
        rcases procedures _ turn acts with ⟨r, asked⟩ | asked
        · cases asked
          decide
        · cases asked
    case distinct =>
      intro r updates next turn acts
      rcases procedures _ turn acts with ⟨r, asked⟩ | asked
      · cases asked
        decide
      · cases asked
  have silent : e.Silent s [root] := by
    constructor
    case emit =>
      intro event next turn acts
      rcases procedures _ turn acts with ⟨r, asked⟩ | asked <;> cases asked
    case answer =>
      intro name call turn events after called answered
      have carried : Answers (fun events => events = []) (e.carryOut (close call)) :=
        answers_bind fun _ => answers_pure rfl
      have invoked : Answers (fun events => events = []) (e.invoke name call) := by
        refine answers_bind fun key => ?_
        cases known : e.actions.actions.find? key with
        | none => exact fun _ _ _ ran => by cases ran
        | some action =>
          obtain rfl := only_close key action known
          refine answers_bind fun _ => ?_
          refine answers_bind_of (answers_attempt carried) fun outcome ok => ?_
          cases outcome with
          | ok events => exact answers_pure (ok events rfl)
          | error failure => exact fun _ _ _ ran => by cases ran
      exact invoked turn events after answered
  refine ⟨only, silent, ?_⟩
  let closed : Record := ⟨.text "Task", .text "first", [("status", .text "done")]⟩
  let again := Event.modifiedOf closed ["status"]
  obtain ⟨first, went, waiting, wrote⟩ : ∃ first,
      exec (e.advance root 0) { Course.start s [root] with queue := [] } = (.ok (), first) ∧
        first.queue = [(again, 1)] ∧ first.turn.chain.writes = [⟨closed, ["status"]⟩] :=
    ⟨_, rfl, rfl, rfl⟩
  have idle : e.Idle again := fun r candidate => by cases candidate
  obtain ⟨last, dropped, empty, writes⟩ : ∃ last, e.Goes first last ∧ last.queue = [] ∧
      last.turn.chain.writes = [⟨closed, ["status"]⟩] :=
    ⟨_, .dispatch waiting (idle.exec_advance 1 _), rfl, wrote⟩
  have stops : e.drain (.start s [root]) = (.ok (), last) := by
    have reached : e.Reaches s [root] last := .head (.dispatch rfl went) (.single dropped)
    exact (drain_of_reflTransGen reached).trans (e.drain_nil empty)
  have ended : exec (e.propagate [root]) s = (.ok last.cascade, last.turn.store) := by
    rw [exec_propagate, stops]
    rfl
  obtain ⟨rows, -, -, heard⟩ := propagate_accounts only ended
  have row := rows (.text "Task") (.text "first")
  have events := heard.2 silent
  rw [show last.cascade.writes = _ from writes] at row events
  exact ⟨_, _, ended, row, events.symm⟩

end Engine

end RecordRules
