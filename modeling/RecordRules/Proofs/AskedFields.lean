import RecordRules.Proofs.ParallelRows
import RecordRules.Proofs.SettledWrites

/-!
Values that are asked of the fields of stored records. As long as no two values are asked of one
field, it does not matter in which order the records are written: each field that held another value
holds the one that was asked of it, all others are as they were, and the changes that were made are
just these. Main statement: one more write keeps it so.
-/
namespace RecordRules

open Step

structure Demand where
  key : RecordKey
  updates : Entries

def Asked (demands : List Demand) (key : RecordKey) (field : String) (v : Value) : Prop :=
  ∃ d ∈ demands, (d.key == key) = true ∧ (field, v) ∈ d.updates

namespace Asked

variable {demands more : List Demand} {key other : RecordKey} {field : String} {v : Value}

theorem congr (same : (key == other) = true) (asked : Asked demands key field v) :
    Asked demands other field v := by
  obtain ⟨d, listed, own, inside⟩ := asked
  exact ⟨d, listed, BEq.trans own same, inside⟩

theorem append_iff :
    Asked (demands ++ more) key field v ↔ Asked demands key field v ∨ Asked more key field v := by
  simp only [Asked, List.mem_append, or_and_right, exists_or]

theorem singleton_iff {d : Demand} :
    Asked [d] key field v ↔ (d.key == key) = true ∧ (field, v) ∈ d.updates := by
  simp only [Asked, List.mem_singleton, exists_eq_left]

end Asked

def Coherent (demands : List Demand) : Prop :=
  ∀ key field v w, Asked demands key field v → Asked demands key field w → v = w

namespace Store

def field? (s : Store) (key : RecordKey) (field : String) : Option Value :=
  (s.row? key.1 key.2).bind fun data => data.find? field

theorem field?_congr (s : Store) {key other : RecordKey} (same : (key == other) = true)
    (field : String) : s.field? key field = s.field? other field := by
  rw [field?, field?, s.row?_congr same]

/-- A field holds another value; what is missing counts as nothing. -/
def Lacks (s : Store) (key : RecordKey) (field : String) (v : Value) : Prop :=
  ((s.field? key field).getD .null).equals v = false

theorem get_of_stored {s : Store} {schema id : Key} {data : Entries}
    (stored : s.row? schema id = some data) {field : String} (proper : field ≠ "id") :
    (⟨schema, id, data⟩ : Record).get field = (s.field? (schema, id) field).getD .null := by
  rw [Record.get, if_neg proper, Entries.get, field?, stored, Option.bind_some]

section

variable {s : Store} {schema id : Key} {data changes : Entries} {key : RecordKey} {field : String}
  (stored : s.row? schema id = some data) (distinct : changes.names.Nodup)

include stored distinct

theorem field?_putRow :
    (s.putRow schema id (data.merge changes)).field? key field =
      (if (schema, id) == key then changes.find? field else none).or (s.field? key field) := by
  rw [field?, row?_putRow]
  by_cases same : ((schema, id) == key) = true
  · rw [if_pos same, if_pos same, Option.bind_some, Keyed.find?_merge_of_nodup data distinct,
      ← s.field?_congr same, field?, stored, Option.bind_some]
  · rw [if_neg same, if_neg same, Option.none_or, field?]

theorem field?_putRow_of_asked {v : Value} (asked : Asked [⟨(schema, id), changes⟩] key field v) :
    (s.putRow schema id (data.merge changes)).field? key field = some v := by
  obtain ⟨own, inside⟩ := Asked.singleton_iff.mp asked
  rw [field?_putRow stored distinct, if_pos own,
    (Keyed.find?_eq_some_iff distinct field v).mpr inside]
  rfl

theorem field?_putRow_of_not_asked (none : ∀ v, ¬ Asked [⟨(schema, id), changes⟩] key field v) :
    (s.putRow schema id (data.merge changes)).field? key field = s.field? key field := by
  rw [field?_putRow stored distinct]
  split
  · rename_i own
    have absent : changes.find? field = .none := by
      refine Option.eq_none_iff_forall_ne_some.mpr fun v found => none v ?_
      have inside := (Keyed.find?_eq_some_iff distinct field v).mp found
      exact Asked.singleton_iff.mpr ⟨own, inside⟩
    rw [absent, Option.none_or]
  · exact Option.none_or

end

end Store

/-- A demand on a stored record, not on its id nor on a reference to another one. -/
structure Demand.Fits (c : Catalog) (s : Store) (d : Demand) : Prop where
  stored : (s.row? d.key.1 d.key.2).isSome = true
  distinct : d.updates.names.Nodup
  proper : "id" ∉ d.updates.names
  spares : ∀ schema, c.get? d.key.1 = some schema → ∀ f ∈ schema.referFields,
    f.name ∉ d.updates.names

def Turn.Changed (turn : Turn) (key : RecordKey) (field : String) (v : Value) : Prop :=
  ∃ w ∈ turn.chain.writes, (w.record.key == key) = true ∧ field ∈ w.changed ∧
    w.record.get field = v

theorem Turn.changed_wrote (turn : Turn) {schema id : Key} {data changes : Entries}
    (distinct : changes.names.Nodup) (proper : "id" ∉ changes.names) {key : RecordKey}
    {field : String} {v : Value} :
    (turn.wrote turn.store ⟨schema, id, data.merge changes⟩ changes).Changed key field v ↔
      turn.Changed key field v ∨ Asked [⟨(schema, id), changes⟩] key field v := by
  have value {w : Value} (inside : (field, w) ∈ changes) :
      (⟨schema, id, data.merge changes⟩ : Record).get field = w :=
    Record.get_merge_of_mem distinct inside fun same => proper (same ▸ List.mem_map_of_mem inside)
  rw [Asked.singleton_iff]
  simp only [Changed, wrote, List.mem_append, List.mem_singleton, or_and_right, exists_or,
    exists_eq_left]
  refine or_congr Iff.rfl (and_congr_right fun _ => ?_)
  constructor
  · rintro ⟨changed, held⟩
    obtain ⟨⟨_, w⟩, inside, rfl⟩ := List.mem_map.mp changed
    obtain rfl := (value inside).symm.trans held
    exact inside
  · exact fun inside => ⟨List.mem_map_of_mem inside, value inside⟩

/-- The demands are met, and nothing else was done: the fields that lacked what is asked of them
hold it, all others are as they were, and the changes are just these. -/
structure Met (c : Catalog) (s : Store) (demands : List Demand) (turn : Turn) : Prop where
  links : s.SameLinks c turn.store
  given : ∀ key field v, Asked demands key field v → s.Lacks key field v →
    turn.store.field? key field = some v
  rest : ∀ key field, (∀ v, Asked demands key field v → ¬ s.Lacks key field v) →
    turn.store.field? key field = s.field? key field
  settled : ∀ schema id field v, turn.chain.settled.find? (schema, id, field) = some v →
    Asked demands (schema, id) field v
  changes : ∀ key field v,
    turn.Changed key field v ↔ Asked demands key field v ∧ s.Lacks key field v

namespace Met

variable {c : Catalog} {s : Store} {demands : List Demand} {turn : Turn}

theorem start (c : Catalog) (s : Store) : Met c s [] { store := s } where
  links := .refl c s
  given _ _ _ asked := by
    obtain ⟨d, listed, -⟩ := asked
    cases listed
  rest _ _ _ := rfl
  settled _ _ _ _ found := by cases found
  changes key field v := by simp [Turn.Changed, Asked]

theorem of_sameRows (met : Met c s demands turn) {later : Turn}
    (rows : Store.SameRows turn.store later.store) (chain : later.chain = turn.chain) :
    Met c s demands later := by
  have field (key : RecordKey) (name : String) :
      later.store.field? key name = turn.store.field? key name := by
    rw [Store.field?, Store.field?, Store.row?_of_sameRows rows]
  constructor
  case links => exact met.links.of_sameRows rows
  case given =>
    exact fun key name v asked lacks => (field key name).trans (met.given key name v asked lacks)
  case rest => exact fun key name none => (field key name).trans (met.rest key name none)
  case settled => exact chain ▸ met.settled
  case changes =>
    intro key name v
    rw [Turn.Changed, chain]
    exact met.changes key name v

theorem exists_row (met : Met c s demands turn) {schema id : Key}
    (stored : (s.row? schema id).isSome = true) :
    ∃ data, turn.store.row? schema id = some data :=
  Option.isSome_iff_exists.mp (met.links.isSome_row? schema id ▸ stored)

theorem field_cases (met : Met c s demands turn) {key : RecordKey} {field : String} {v : Value}
    (only : ∀ w, Asked demands key field w → w = v) :
    turn.store.field? key field = s.field? key field ∨
      Asked demands key field v ∧ s.Lacks key field v ∧
        turn.store.field? key field = some v := by
  by_cases some : ∃ w, Asked demands key field w ∧ s.Lacks key field w
  · obtain ⟨w, asked, lacks⟩ := some
    obtain rfl := only w asked
    exact .inr ⟨asked, lacks, met.given key field w asked lacks⟩
  · refine .inl (met.rest key field fun w asked lacks => some ⟨w, asked, lacks⟩)

theorem grow (met : Met c s demands turn) {d : Demand}
    (known : ∀ key field v, Asked [d] key field v → s.Lacks key field v →
      Asked demands key field v) : Met c s (demands ++ [d]) turn where
  links := met.links
  given key field v asked lacks := by
    rcases Asked.append_iff.mp asked with before | new
    · exact met.given key field v before lacks
    · exact met.given key field v (known key field v new lacks) lacks
  rest key field none :=
    met.rest key field fun v asked => none v (Asked.append_iff.mpr (.inl asked))
  settled schema id field v found :=
    Asked.append_iff.mpr (.inl (met.settled schema id field v found))
  changes key field v := by
    rw [met.changes, Asked.append_iff]
    refine ⟨fun ⟨asked, lacks⟩ => ⟨.inl asked, lacks⟩, ?_⟩
    rintro ⟨before | new, lacks⟩
    · exact ⟨before, lacks⟩
    · exact ⟨known key field v new lacks, lacks⟩

section

variable {d : Demand} (met : Met c s demands turn) (fits : d.Fits c s)
  (coherent : Coherent (demands ++ [d])) {data changes : Entries}
  (stored : turn.store.row? d.key.1 d.key.2 = some data)
  (left : changes = Engine.effective turn.chain ⟨d.key.1, d.key.2, data⟩ d.updates)
  {key : RecordKey} {field : String} {v : Value}

include met coherent in
theorem field_cases_of_asked (asked : Asked [d] key field v) :
    turn.store.field? key field = s.field? key field ∨
      Asked demands key field v ∧ s.Lacks key field v ∧
        turn.store.field? key field = some v :=
  met.field_cases fun w before => coherent key field w v (Asked.append_iff.mpr (.inl before))
    (Asked.append_iff.mpr (.inr asked))

include left in
theorem asked_of_left (asked : Asked [⟨d.key, changes⟩] key field v) : Asked [d] key field v := by
  obtain ⟨own, inside⟩ := Asked.singleton_iff.mp asked
  rw [left] at inside
  exact Asked.singleton_iff.mpr ⟨own, (Engine.of_mem_effective inside).1⟩

include met fits coherent stored left

theorem lacks_of_left (asked : Asked [⟨d.key, changes⟩] key field v) : s.Lacks key field v := by
  obtain ⟨own, inside⟩ := Asked.singleton_iff.mp asked
  rw [left] at inside
  obtain ⟨updated, differs, -⟩ := Engine.of_mem_effective inside
  have proper : field ≠ "id" := fun same => fits.proper (same ▸ List.mem_map_of_mem updated)
  rw [Store.get_of_stored stored proper, turn.store.field?_congr own] at differs
  rcases met.field_cases_of_asked coherent (asked_of_left left asked) with kept | ⟨-, lacks, -⟩
  · rwa [Store.Lacks, ← kept]
  · exact lacks

theorem asked_of_dropped (asked : Asked [d] key field v)
    (dropped : ¬ Asked [⟨d.key, changes⟩] key field v) (lacks : s.Lacks key field v) :
    Asked demands key field v := by
  obtain ⟨own, updated⟩ := Asked.singleton_iff.mp asked
  have proper : field ≠ "id" := fun same => fits.proper (same ▸ List.mem_map_of_mem updated)
  rcases met.field_cases_of_asked coherent asked with kept | ⟨before, -⟩
  · -- the field still lacks the value, so the value is settled, and that is because it was asked
    have settled : turn.chain.isSettled ⟨d.key.1, d.key.2, data⟩ field v = true := by
      by_contra unsettled
      refine dropped (Asked.singleton_iff.mpr ⟨own, ?_⟩)
      rw [left, Engine.mem_effective_iff, Store.get_of_stored stored proper,
        turn.store.field?_congr own, kept]
      exact ⟨updated, lacks, Bool.not_eq_true _ ▸ unsettled⟩
    rw [Chain.isSettled] at settled
    cases found : turn.chain.settled.find? (d.key.1, d.key.2, field) with
    | none =>
      rw [found] at settled
      cases settled
    | some old =>
      have before := (met.settled _ _ _ _ found).congr own
      obtain rfl := coherent key field old v (Asked.append_iff.mpr (.inl before))
        (Asked.append_iff.mpr (.inr asked))
      exact before
  · exact before

theorem wrote :
    Met c s (demands ++ [d])
      (turn.wrote turn.store ⟨d.key.1, d.key.2, data.merge changes⟩ changes) := by
  have within : changes.names.Sublist d.updates.names := by
    rw [left]
    exact Engine.effective_names_sublist _ _ _
  have distinct : changes.names.Nodup := fits.distinct.sublist within
  have new {key field v} (asked : Asked [⟨d.key, changes⟩] key field v) :
      Asked (demands ++ [d]) key field v :=
    Asked.append_iff.mpr (.inr (asked_of_left left asked))
  have lacks {key field v} (asked : Asked [⟨d.key, changes⟩] key field v) : s.Lacks key field v :=
    met.lacks_of_left fits coherent stored left asked
  have before {key field v} (asked : Asked (demands ++ [d]) key field v)
      (dropped : ¬ Asked [⟨d.key, changes⟩] key field v) (lacks : s.Lacks key field v) :
      Asked demands key field v :=
    (Asked.append_iff.mp asked).elim id fun asked =>
      met.asked_of_dropped fits coherent stored left asked dropped lacks
  constructor
  case links =>
    refine met.links.putRow stored fun schema known f declared changed => ?_
    exact fits.spares schema known f declared (within.subset changed)
  case given =>
    intro key field v asked lacking
    by_cases changed : Asked [⟨d.key, changes⟩] key field v
    · exact Store.field?_putRow_of_asked stored distinct changed
    · refine (Store.field?_putRow_of_not_asked stored distinct fun w other => ?_).trans
        (met.given key field v (before asked changed lacking) lacking)
      exact changed (coherent key field v w asked (new other) ▸ other)
  case rest =>
    intro key field none
    refine (Store.field?_putRow_of_not_asked stored distinct fun v changed => ?_).trans
      (met.rest key field fun v asked => none v (Asked.append_iff.mpr (.inl asked)))
    exact none v (new changed) (lacks changed)
  case settled =>
    intro schema id field v found
    have settles := turn.chain.settled_settle ⟨d.key.1, d.key.2, data.merge changes⟩ changes schema
      id field
    rcases Option.or_eq_some_iff.mp (settles.symm.trans found) with changed | ⟨-, old⟩
    · split at changed
      · rename_i own
        rw [Keyed.find?_reverse distinct, Keyed.find?_eq_some_iff distinct] at changed
        exact new (Asked.singleton_iff.mpr ⟨own, changed⟩)
      · cases changed
    · exact Asked.append_iff.mpr (.inl (met.settled schema id field v old))
  case changes =>
    intro key field v
    have proper : "id" ∉ changes.names := fun inside => fits.proper (within.subset inside)
    rw [turn.changed_wrote distinct proper, met.changes]
    constructor
    · rintro (⟨asked, lacking⟩ | changed)
      · exact ⟨Asked.append_iff.mpr (.inl asked), lacking⟩
      · exact ⟨new changed, lacks changed⟩
    · rintro ⟨asked, lacking⟩
      by_cases changed : Asked [⟨d.key, changes⟩] key field v
      · exact .inr changed
      · exact .inl ⟨before asked changed lacking, lacking⟩

end

theorem write (met : Met c s demands turn) {d : Demand} (fits : d.Fits c s)
    (coherent : Coherent (demands ++ [d])) {e : Engine} {target written : Record} {after : Turn}
    (key : target.key = d.key)
    (ran : exec (e.applyWrite target d.updates) turn = (.ok written, after)) :
    Met c s (demands ++ [d]) after := by
  obtain ⟨data, stored⟩ := met.exists_row fits.stored
  obtain ⟨schema, id⟩ := Prod.mk.inj key
  have comes := e.applyWrite_written target d.updates turn
  rw [ran] at comes
  cases comes with
  | dropped looked nothing =>
    obtain ⟨_, rfl⟩ := looked
    rw [Turn.current_of_stored (schema ▸ id ▸ stored), schema, id] at nothing
    refine (met.grow fun key field v asked lacks => ?_).of_sameRows rfl rfl
    refine met.asked_of_dropped fits coherent stored rfl asked (fun kept => ?_) lacks
    rw [nothing] at kept
    cases (Asked.singleton_iff.mp kept).2
  | changed looked present left something =>
    obtain ⟨_, rfl⟩ := looked
    rw [schema, id] at present left ⊢
    exact (met.wrote fits coherent present left).of_sameRows rfl rfl

theorem holds (met : Met c s demands turn) (coherent : Coherent demands) {key : RecordKey}
    {field : String} {v : Value} (asked : Asked demands key field v)
    (reflexive : v.equals v = true) :
    ((turn.store.field? key field).getD .null).equals v = true := by
  by_cases lacks : s.Lacks key field v
  · rw [met.given key field v asked lacks]
    exact reflexive
  · rw [met.rest key field fun w other lacking =>
      lacks (coherent key field w v other asked ▸ lacking)]
    simpa [Store.Lacks] using lacks

theorem eq_of_asked_iff (met : Met c s demands turn) {others : List Demand} {other : Turn}
    (also : Met c s others other)
    (same : ∀ key field v, Asked others key field v ↔ Asked demands key field v) :
    (∀ schema id, (other.store.row? schema id).isSome = (turn.store.row? schema id).isSome) ∧
      (∀ key field, other.store.field? key field = turn.store.field? key field) ∧
      ∀ key field v, other.Changed key field v ↔ turn.Changed key field v := by
  refine ⟨fun schema id => ?_, fun key field => ?_, fun key field v => ?_⟩
  · rw [← met.links.isSome_row?, ← also.links.isSome_row?]
  · by_cases lacking : ∃ v, Asked demands key field v ∧ s.Lacks key field v
    · obtain ⟨v, asked, lacks⟩ := lacking
      rw [met.given key field v asked lacks,
        also.given key field v ((same key field v).mpr asked) lacks]
    · have none (v : Value) (asked : Asked demands key field v) : ¬ s.Lacks key field v :=
        fun lacks => lacking ⟨v, asked, lacks⟩
      rw [met.rest key field none,
        also.rest key field fun v asked => none v ((same key field v).mp asked)]
  · rw [met.changes, also.changes, same]

end Met

end RecordRules
