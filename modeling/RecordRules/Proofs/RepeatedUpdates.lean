import RecordRules.Proofs.ModifiedEvents
import RecordRules.Proofs.RuleDefinitions

/-!
Updates that are repeated. Main statement: an update that has succeeded, and whose cascade has left
its fields as they were written, does nothing when it is repeated, unless it asks for what is no
number: else nothing differs any more, so the state of the record is not even asked.
-/
namespace RecordRules

open Step

namespace Record

variable {r : Record} {data : Entries}

theorem changes_eq_nil_iff : r.changes data = [] ↔
    ∀ name u, (name, u) ∈ data → ∃ v, r.data.find? name = some v ∧ v.equals u = true := by
  rw [changes, List.filter_eq_nil_iff, Prod.forall]
  refine forall₃_congr fun name u inside => ?_
  cases found : r.data.find? name with
  | none => simp [differs, found]
  | some v => simp [differs, found]

theorem equals_of_updated (distinct : data.names.Nodup) {name : String} {u : Value}
    (inside : (name, u) ∈ data) (own : u.equals u = true) :
    ∃ w, (r.withUpdates (r.changes data)).data.find? name = some w ∧ w.equals u = true := by
  have once : (r.changes data).names.Nodup := nodup_changes distinct
  rw [withUpdates, Keyed.find?_merge_of_nodup _ once]
  by_cases differs : r.differs (name, u) = true
  · have member : (name, u) ∈ r.changes data := List.mem_filter.mpr ⟨inside, differs⟩
    rw [(Keyed.find?_eq_some_iff once name u).mpr member]
    exact ⟨u, rfl, own⟩
  · have unchanged : (r.changes data).find? name = none := by
      refine Option.eq_none_iff_forall_ne_some.mpr fun x found => differs ?_
      have member := (Keyed.find?_eq_some_iff once name x).mp found
      have asked := (Keyed.find?_eq_some_iff distinct name x).mpr (List.mem_of_mem_filter member)
      rw [(Keyed.find?_eq_some_iff distinct name u).mpr inside] at asked
      obtain rfl := Option.some.inj asked
      exact (List.mem_filter.mp member).2
    rw [unchanged, Option.none_or]
    unfold Record.differs at differs
    cases found : r.data.find? name with
    | none => simp [found] at differs
    | some w => exact ⟨w, rfl, by simpa [found] using differs⟩

end Record

namespace Engine

variable {e : Engine} {schema id : Key} {updates : Value} {s t : Store} {m : Mutation}

/-- The record is stored, and the fields of the update hold the very values that the answer of the
update has in them. -/
def Lasts (e : Engine) (schema id : Key) (updates : Value) (m : Mutation) (t : Store) : Prop :=
  ∃ data row, e.readUpdates schema updates = .ok data ∧ t.row? schema id = some row ∧
    ∀ name ∈ data.names, row.find? name = m.record.data.find? name

theorem wellFormed_readUpdates {data : Entries} (formed : updates.WellFormed)
    (read : e.readUpdates schema updates = .ok data) :
    data.names.Nodup ∧ ∀ entry ∈ data, entry.2.WellFormed := by
  rcases sublist_of_readUpdates read with rfl | ⟨entries, rfl, within⟩
  · exact ⟨List.nodup_nil, List.forall_mem_nil _⟩
  · cases formed with
    | object names each =>
      exact ⟨names.sublist (within.map Prod.fst),
        fun entry inside => each entry (within.subset inside)⟩

theorem record_of_update (ran : exec (e.update schema id updates) s = (.ok m, t)) :
    ∃ definition data row, e.catalog.require schema = .ok definition ∧
      e.readUpdates schema updates = .ok data ∧ s.row? schema id = some row ∧
      m.record = (⟨schema, id, row⟩ : Record).withUpdates
        ((⟨schema, id, row⟩ : Record).changes data) ∧
      ((⟨schema, id, row⟩ : Record).changes data ≠ [] → m.cascade.isSome = true) := by
  rw [update_eq] at ran
  obtain ⟨definition, known, ran⟩ := exec_ofExcept_bind_eq_ok.mp ran
  obtain ⟨data, read, ran⟩ := exec_ofExcept_bind_eq_ok.mp ran
  obtain ⟨after, inner, -⟩ := Store.exec_transaction_eq_ok.mp ran
  obtain ⟨current, looked, found, revised⟩ := exec_bind_eq_ok.mp inner
  obtain ⟨same, present, rfl, rfl⟩ := Store.of_require_ok found
  have stored : s.row? current.schema current.id = some current.data := by
    rw [← Store.row?_of_sameRows (Store.sameRows_enter s), ← Store.row?_of_sameRows same, present]
  refine ⟨definition, data, current.data, known, read, stored, ?_⟩
  by_cases nothing : (current.changes data).isEmpty = true
  · rw [revise_of_isEmpty nothing] at revised
    obtain ⟨answered, -⟩ := Prod.mk.inj revised
    rw [List.isEmpty_iff.mp nothing, ← Except.ok.inj answered]
    exact ⟨rfl, fun something => absurd rfl something⟩
  · rw [revise_of_not_isEmpty nothing] at revised
    obtain ⟨written, stored, wrote, revised⟩ := exec_bind_eq_ok.mp revised
    obtain ⟨cascade, drained, -, revised⟩ := exec_bind_eq_ok.mp revised
    obtain ⟨-, -, same, -⟩ := of_overwrite_ok present wrote
    obtain ⟨answered, -⟩ := Prod.mk.inj revised
    rw [← Except.ok.inj answered, same]
    exact ⟨rfl, fun _ => rfl⟩

/-- An update that lasts is idempotent as long as it asks for nothing that differs from itself: when
it is repeated, it succeeds without a change and without a cascade, the row is read once more, and
everything in the store stays as it is. With a value that is no number in it, it has a cascade
again whenever it succeeds. -/
theorem update_repeated (formed : updates.WellFormed)
    (ran : exec (e.update schema id updates) s = (.ok m, t))
    (lasts : e.Lasts schema id updates m t) :
    ∃ data row, e.readUpdates schema updates = .ok data ∧ t.row? schema id = some row ∧
      ((∀ entry ∈ data, entry.2.isNaN = false) → exec (e.update schema id updates) t =
        (.ok { record := ⟨schema, id, row⟩ }, { t with trace := t.trace ++ [(.get, schema)] })) ∧
      ((∃ entry ∈ data, entry.2.isNaN = true) → ∀ again u,
        exec (e.update schema id updates) t = (.ok again, u) → again.cascade.isSome = true) := by
  obtain ⟨definition, data, before, known, read, -, record, -⟩ := record_of_update ran
  obtain ⟨other, row, also, present, kept⟩ := lasts
  obtain rfl := Except.ok.inj (read.symm.trans also)
  refine ⟨data, row, read, present, fun numbers => ?_, ?_⟩
  · refine update_of_nothing known read present (Record.changes_eq_nil_iff.mpr ?_)
    intro name u inside
    obtain ⟨distinct, each⟩ := wellFormed_readUpdates formed read
    have own : u.equals u = true := by
      rw [(each (name, u) inside).equals_self, numbers (name, u) inside]
      rfl
    rw [kept name (List.mem_map_of_mem inside), record]
    exact Record.equals_of_updated distinct inside own
  · rintro ⟨⟨name, u⟩, inside, stray⟩ again u' repeated
    obtain ⟨_, data', row', -, read', present', -, changed⟩ := record_of_update repeated
    obtain rfl := Except.ok.inj (read.symm.trans read')
    refine changed fun none => ?_
    obtain ⟨v, -, equal⟩ := Record.changes_eq_nil_iff.mp none name u inside
    rw [Value.equals_of_isNaN stray] at equal
    cases equal

/-- A task that is done is locked in all its fields. To set it to done again is no change, so the
lock is not in the way. -/
theorem update_repeated_closed_task :
    let task : Schema :=
      { name := .text "Task", fields := [{ name := "status", kind := .known .text }] }
    let done : Condition :=
      ⟨{ origin := .object, tail := ["status"], source := "status" }, .eq, .value (.text "done")⟩
    let locks : StateRule :=
      { schema := .text "Task", effect := { onFields := [.text "*"], immutable := true }
        conditions := [done] }
    let e : Engine :=
      { catalog := { schemas := [(.text "Task", task)] }
        rules := { stateRules := [locks], stateReaches := [(.text "Task", {})] } }
    let rows (status : String) : Keyed Key Table :=
      [(.text "Task", [(.text "plan", [("status", .text status)])])]
    let plan : Record := ⟨.text "Task", .text "plan", [("status", .text "done")]⟩
    let close := e.update plan.schema plan.id (.object [("status", .text "done")])
    ∃ cascade t, exec close { tables := rows "open" } = (.ok ⟨plan, some cascade⟩, t) ∧
      t.tables = rows "done" ∧
      (∃ state, (exec (e.stateOf plan) t).1 = .ok state ∧ state.immutableFields = ["status"]) ∧
      exec close t =
        (.ok { record := plan }, { t with trace := t.trace ++ [(.get, .text "Task")] }) := by
  intro task done locks e rows plan close
  let unfinished : Record := { plan with data := [("status", .text "open")] }
  have read : e.readUpdates plan.schema (.object plan.data) = .ok plan.data := by
    with_unfolding_all rfl
  let before : Store :=
    { tables := rows "open", scope := some ⟨0, rows "open"⟩, trace := [(.get, .text "Task")] }
  let twice : List (Access × Key) := [(.get, .text "Task"), (.write, .text "Task")]
  have overwritten : exec (e.overwrite task unfinished plan.data) before =
      (.ok plan, { before with tables := rows "done", trace := twice }) := rfl
  have found : exec (Store.require plan.schema plan.id) (Store.enter { tables := rows "open" }) =
      (.ok unfinished, before) := rfl
  obtain ⟨cascade, closed⟩ := update_of_quiet rfl rfl read found (by decide) overwritten
  have lasts : e.Lasts plan.schema plan.id (.object plan.data) ⟨plan, some cascade⟩
      { tables := rows "done", trace := twice } := by
    exact ⟨plan.data, plan.data, read, rfl, fun _ _ => rfl⟩
  obtain ⟨data, row, given, present, again, -⟩ :=
    update_repeated (Value.wellFormed_of_isPlain rfl (by decide)) closed lasts
  obtain rfl := Except.ok.inj (read.symm.trans given)
  obtain rfl := Option.some.inj (show some plan.data = some row from present)
  have locked : (⟨plan.schema, [("status", { immutable := true })]⟩ : RecordState).immutableFields =
      ["status"] := rfl
  exact ⟨cascade, _, closed, rfl, ⟨_, rfl, locked⟩, again (by decide)⟩

/-- A reading that is no number is there as it was written. To ask for the very same once more is a
change again, with a cascade of its own. -/
theorem stray_reading_changes_again :
    let meter : Schema :=
      { name := .text "Meter", fields := [{ name := "value", kind := .known .float }] }
    let e : Engine := { catalog := { schemas := [(.text "Meter", meter)] } }
    let hall : Record := ⟨.text "Meter", .text "hall", [("value", .nan 0)]⟩
    let s : Store := { tables := [(.text "Meter", [(.text "hall", [])])] }
    let measure := e.update hall.schema hall.id (.object hall.data)
    ∃ cascade t again u, exec measure s = (.ok ⟨hall, some cascade⟩, t) ∧
      e.Lasts hall.schema hall.id (.object hall.data) ⟨hall, some cascade⟩ t ∧
      exec measure t = (.ok ⟨hall, some again⟩, u) := by
  intro meter e hall s measure
  have read : e.readUpdates hall.schema (.object hall.data) = .ok hall.data := by
    with_unfolding_all rfl
  let rows : Keyed Key Table := [(.text "Meter", [(.text "hall", hall.data)])]
  let bare : Record := { hall with data := [] }
  let inner : Store :=
    { tables := s.tables, scope := some ⟨0, s.tables⟩, trace := [(.get, .text "Meter")] }
  have empty : exec (Store.require hall.schema hall.id) s.enter = (.ok bare, inner) := rfl
  let trace : List (Access × Key) := inner.trace ++ [(.write, .text "Meter")]
  have written : exec (e.overwrite meter bare hall.data) inner =
      (.ok hall, { inner with tables := rows, trace }) := rfl
  obtain ⟨cascade, first⟩ := update_of_quiet rfl rfl read empty (by decide) written
  let t : Store := { tables := rows, trace }
  let inner' : Store :=
    { tables := rows, scope := some ⟨0, rows⟩, trace := trace ++ [(.get, .text "Meter")] }
  have full : exec (Store.require hall.schema hall.id) t.enter = (.ok hall, inner') := rfl
  have rewritten : exec (e.overwrite meter hall hall.data) inner' =
      (.ok hall, { inner' with trace := inner'.trace ++ [(.write, .text "Meter")] }) := rfl
  obtain ⟨again, second⟩ := update_of_quiet rfl rfl read full (by decide) rewritten
  exact ⟨cascade, t, again, _, first, ⟨hall.data, hall.data, read, rfl, fun _ _ => rfl⟩, second⟩

end Engine

end RecordRules
