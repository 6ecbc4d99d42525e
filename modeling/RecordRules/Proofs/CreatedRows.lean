import RecordRules.Proofs.ComposedContracts
import RecordRules.Proofs.GuardedWrites
import RecordRules.Proofs.SplitPayloads

/-!
The rows that a payload is stored as. Every object of the payload gives one row, parents before
their children, which stands behind the rows that were there: the defaults of the fields, what the
object says of them, and the id of the parent in the field that refers back to it.
-/
namespace RecordRules

open Step

namespace Store

/-- Rows have been added behind those that were there, under new keys. -/
structure Adds (s t : Store) (records : List Record) : Prop where
  tables : ∀ schema, t.table schema = s.table schema ++
    (records.filter fun r => r.schema == schema).map fun r => (r.id, r.data)
  fresh : ∀ r ∈ records, s.row? r.schema r.id = none
  apart : records.Pairwise fun r q => (r.key == q.key) = false

variable {s t u : Store} {records others : List Record}

theorem table_of_sameRows (same : SameRows s t) (schema : Key) :
    t.table schema = s.table schema := by
  rw [table, table, show t.tables = s.tables from same]

theorem adds_nil_of_sameRows (same : SameRows s t) : s.Adds t [] where
  tables schema := by rw [table_of_sameRows same]; exact (List.append_nil _).symm
  fresh r listed := by cases listed
  apart := .nil

namespace Adds

theorem of_sameRows (adds : s.Adds t records) (same : SameRows t u) : s.Adds u records where
  tables schema := by rw [table_of_sameRows same, adds.tables]
  fresh := adds.fresh
  apart := adds.apart

theorem after_sameRows (same : SameRows s t) (adds : t.Adds u records) : s.Adds u records where
  tables schema := by rw [adds.tables, table_of_sameRows same]
  fresh r listed := by rw [← row?_of_sameRows same, adds.fresh r listed]
  apart := adds.apart

theorem isSome_row? (adds : s.Adds t records) {r : Record} (listed : r ∈ records) {schema id : Key}
    (same : (r.key == (schema, id)) = true) : (t.row? schema id).isSome = true := by
  obtain ⟨schemas, ids⟩ : (r.schema == schema) = true ∧ (r.id == id) = true :=
    Bool.and_eq_true_iff.mp same
  have among : (r.id, r.data) ∈ t.table schema := by
    rw [adds.tables]
    refine List.mem_append_right _ (List.mem_map.mpr ⟨r, ?_, rfl⟩)
    exact List.mem_filter.mpr ⟨listed, schemas⟩
  exact Keyed.isSome_find?_of_mem among ids

theorem row?_of_some (adds : s.Adds t records) {schema id : Key} {data : Entries}
    (stored : s.row? schema id = some data) : t.row? schema id = some data := by
  rw [row?] at stored ⊢
  rw [adds.tables, Keyed.find?_append, stored]
  rfl

theorem append (first : s.Adds t records) (later : t.Adds u others) :
    s.Adds u (records ++ others) where
  tables schema := by
    rw [later.tables, first.tables, List.filter_append, List.map_append, List.append_assoc]
  fresh r listed := by
    rcases List.mem_append.mp listed with old | new
    · exact first.fresh r old
    · cases stored : s.row? r.schema r.id with
      | none => rfl
      | some data =>
        have absent := later.fresh r new
        rw [first.row?_of_some stored] at absent
        cases absent
  apart := by
    refine List.pairwise_append.mpr ⟨first.apart, later.apart, fun r old q new => ?_⟩
    rw [← Bool.not_eq_true]
    intro same
    have present := first.isSome_row? old same
    rw [later.fresh q new] at present
    cases present

end Adds

theorem insert_adds {c : Catalog} {schema : Key} {data : Entries} {r : Record}
    (ran : exec (insert c schema data) s = (.ok r, t)) :
    r.schema = schema ∧ r.data = data ∧ s.Adds t [r] := by
  unfold insert note at ran
  rw [exec_bind, exec_modify] at ran
  obtain ⟨_, -, ran⟩ := exec_ofExcept_bind_eq_ok.mp ran
  obtain ⟨id, issued, chosen, ran⟩ := exec_bind_eq_ok.mp ran
  rw [exec_bind, exec_get] at ran
  dsimp only at ran
  have same : SameRows s issued := by
    have moved := chooseId_sameRows schema .null { s with trace := s.trace ++ [(.insert, schema)] }
    rw [chosen] at moved
    exact moved
  cases stored : issued.row? schema id with
  | some old =>
    rw [stored] at ran
    cases ran
  | none =>
    rw [stored] at ran
    obtain ⟨answered, rfl⟩ := Prod.mk.inj ran
    obtain rfl := Except.ok.inj answered
    refine ⟨rfl, rfl, .after_sameRows same ?_⟩
    constructor
    case fresh =>
      intro r listed
      obtain rfl := List.mem_singleton.mp listed
      exact stored
    case apart => exact List.pairwise_singleton _ _
    case tables =>
      intro other
      have put : (issued.putRow schema id data).table other =
          if schema == other then (issued.table schema).put id data else issued.table other := by
        unfold putRow table
        dsimp only
        rw [Keyed.find?_put]
        split <;> rfl
      change (issued.putRow schema id data).table other = _
      rw [put]
      by_cases same : (schema == other) = true
      · have rows : issued.table schema = issued.table other := by
          rw [table, table, Keyed.find?_congr same]
        rw [if_pos same, Keyed.put_of_find?_eq_none stored, rows]
        simp [same]
      · rw [if_neg same]
        simp [same]

end Store

/-- The row that an object of a payload is stored as: the defaults of the fields, overridden by the
entries of the object that are fields; and below a parent, its id in the field that refers back. -/
structure Contract.Fills (k : Contract) (parent : Option Record) (entries : Entries) (r : Record) :
    Prop where
  schema : Key.ofValue k.schema.name = .ok r.schema
  names : r.data.names.Nodup
  referBack : ∀ p, parent = some p → ∃ f ∈ k.schema.fields,
    f.refersTo p.schema.toValue = true ∧ k.referBack = some f.name ∧
      r.data.find? f.name = some p.id.toValue
  own : ∀ name, k.referBack ≠ some name → r.data.find? name =
    (k.schema.field? name).bind fun f =>
      (entries.find? name).or (if f.default.isNull then none else some f.default)

def Contract.Under (k : Contract) : Option Record → Prop
  | none => k.referBack = none
  | some p => ∃ f ∈ k.schema.fields, f.refersTo p.schema.toValue = true ∧
    k.referBack = some f.name

theorem Contract.find?_declared (k : Contract) (entries : Entries) (name : String) :
    (k.declared entries).find? name =
      if k.schema.declares name then entries.find? name else none := by
  unfold declared
  induction entries with
  | nil => simp
  | cons head rest ih =>
    obtain ⟨key, v⟩ := head
    rw [List.filter_cons, Keyed.find?_cons]
    by_cases same : (key == name) = true
    · obtain rfl := eq_of_beq same
      by_cases known : k.schema.declares key = true
      · simp [known, Keyed.find?_cons]
      · rw [if_neg known, if_neg known, ih, if_neg known]
    · by_cases known : k.schema.declares key = true
      · simp [known, Keyed.find?_cons, same, ih]
      · rw [if_neg known, ih, if_neg same]

theorem Contract.nodup_declared (k : Contract) {entries : Entries}
    (distinct : entries.names.Nodup) : (k.declared entries).names.Nodup :=
  Keyed.nodup_filter distinct _

namespace Engine

variable {e : Engine} {k : Contract} {entries : Entries} {r : Record} {s t : Store}

theorem find?_own (checked : k.schema.Checked) (distinct : entries.names.Nodup) (name : String) :
    ((defaults k.schema).merge (k.declared entries)).find? name =
      (k.schema.field? name).bind fun f =>
        (entries.find? name).or (if f.default.isNull then none else some f.default) := by
  rw [Keyed.find?_merge_of_nodup _ (k.nodup_declared distinct), k.find?_declared]
  cases found : k.schema.field? name with
  | none =>
    have unknown : k.schema.declares name = false := by rw [Schema.declares, found]; rfl
    have absent : (defaults k.schema).find? name = none := by
      rw [Option.eq_none_iff_forall_ne_some]
      intro v given
      obtain ⟨f, declared, -, same, -⟩ :=
        mem_defaults.mp ((Keyed.find?_eq_some_iff (nodup_defaults checked) _ _).mp given)
      rw [Schema.declares_iff.mpr ⟨f, declared, same⟩] at unknown
      cases unknown
    rw [unknown, absent]
    rfl
  | some f =>
    have known : k.schema.declares name = true := by rw [Schema.declares, found]; rfl
    obtain rfl := Schema.name_of_field? found
    rw [known, find?_defaults checked (List.mem_of_find?_eq_some found)]
    rfl

theorem fills_initialValues {location : Value} {groups : List (String × List Payload)}
    {parent : Option Record} (checked : k.schema.Checked) (under : k.Under parent)
    (distinct : entries.names.Nodup) (schema : Key.ofValue k.schema.name = .ok r.schema)
    (data : r.data = initialValues (.node k location (k.declared entries) groups) parent) :
    k.Fills parent entries r := by
  have own := find?_own checked distinct
  have names := Keyed.nodup_merge (nodup_defaults checked) (k.declared entries)
  rcases initialValues_cases (.node k location (k.declared entries) groups) parent with
    ⟨alone, values⟩ | ⟨p, field, rfl, refers, values⟩
  · rw [values] at data
    constructor
    case schema => exact schema
    case names =>
      rw [data]
      exact names
    case referBack =>
      rintro p rfl
      obtain ⟨f, -, -, refers⟩ := under
      rcases alone with none | none
      · cases none
      · cases none.symm.trans refers
    case own =>
      intro name _
      rw [data]
      exact own name
  · rw [values] at data
    constructor
    case schema => exact schema
    case names =>
      rw [data]
      exact Keyed.nodup_put names _ _
    case referBack =>
      rintro q ⟨⟩
      obtain ⟨f, declared, back, named⟩ := under
      obtain rfl : field = f.name := Option.some.inj (refers.symm.trans named)
      refine ⟨f, declared, back, named, ?_⟩
      rw [data, Keyed.find?_put, if_pos BEq.rfl]
    case own =>
      intro name other
      rw [data, Keyed.find?_put, if_neg]
      · exact own name
      · intro same
        rw [← eq_of_beq same] at other
        exact other refers

theorem insertRecord_fills {location : Value} {groups : List (String × List Payload)}
    {parent : Option Record} (checked : k.schema.Checked) (under : k.Under parent)
    (distinct : entries.names.Nodup)
    (ran : exec (e.insertRecord (.node k location (k.declared entries) groups) parent) s =
      (.ok r, t)) : k.Fills parent entries r ∧ s.Adds t [r] := by
  unfold insertRecord at ran
  obtain ⟨schema, named, ran⟩ := exec_ofExcept_bind_eq_ok.mp ran
  obtain ⟨state, looked, loaded, ran⟩ := exec_bind_eq_ok.mp ran
  obtain ⟨_, -, ran⟩ := exec_ofExcept_bind_eq_ok.mp ran
  obtain ⟨same, data, adds⟩ := Store.insert_adds ran
  have still : Store.SameRows s looked := by
    have moved := e.stateOf_moves (R := Store.SameRows) ⟨schema, .text "",
      initialValues (.node k location (k.declared entries) groups) parent⟩ s
    rwa [loaded] at moved
  rw [← same] at named
  exact ⟨fills_initialValues checked under distinct named data, .after_sameRows still adds⟩

theorem isProper_items (proper : (Value.object entries).isProper = true)
    (child : ChildRequirement) : ∀ item ∈ child.items entries, item.isProper = true := by
  have whole := ContractBook.isProper_given proper child.key
  unfold ChildRequirement.items
  split
  · exact fun item none => absurd none List.not_mem_nil
  · rename_i items listed
    rw [listed] at whole
    exact fun item inside => Value.isProper_of_mem whole inside
  · exact List.forall_mem_singleton.mpr whole

mutual

/-- The records that a value of a payload is stored as: one for every object in it, each before
those below it. -/
inductive Creates (e : Engine) : Contract → Option Record → Value → List Record → Prop where
  | object {k : Contract} {parent : Option Record} {entries : Entries} {r : Record}
      {below : List Record} (allowed : ∀ name ∈ entries.names, k.allows name = true)
      (row : k.Fills parent entries r) (children : CreatesBelow e k entries r k.children below) :
      Creates e k parent (.object entries) (r :: below)

inductive CreatesBelow (e : Engine) :
    Contract → Entries → Record → List ChildRequirement → List Record → Prop where
  | nil {k : Contract} {entries : Entries} {r : Record} : CreatesBelow e k entries r [] []
  | cons {k : Contract} {entries : Entries} {r : Record} {child : ChildRequirement}
      {rest : List ChildRequirement} {here later : List Record}
      (single : child.cardinality = .one → (child.items entries).length ≤ 1)
      (items : CreatesEach e (e.contracts.nested e.catalog k child) r (child.items entries) here)
      (others : CreatesBelow e k entries r rest later) :
      CreatesBelow e k entries r (child :: rest) (here ++ later)

inductive CreatesEach (e : Engine) :
    Contract → Record → List Value → List Record → Prop where
  | nil {k : Contract} {parent : Record} : CreatesEach e k parent [] []
  | cons {k : Contract} {parent : Record} {item : Value} {rest : List Value}
      {here later : List Record} (first : Creates e k (some parent) item here)
      (others : CreatesEach e k parent rest later) :
      CreatesEach e k parent (item :: rest) (here ++ later)

end

theorem Composes.below (composes : e.Composes k) (fits : e.Fits) {child : ChildRequirement}
    (listed : child ∈ k.children) (named : Key.ofValue k.schema.name = .ok r.schema) :
    e.Composes (e.contracts.nested e.catalog k child) ∧
      (e.contracts.nested e.catalog k child).Under (some r) := by
  obtain ⟨key, s, given, found, same, refers⟩ := composes.nested fits listed
  rw [same]
  refine ⟨composes_contractOf found _ _ _, ?_⟩
  obtain ⟨f, first⟩ := Option.isSome_iff_exists.mp
    (List.find?_isSome.mpr (List.any_eq_true.mp refers))
  refine ⟨f, ?_, ?_, ?_⟩
  · rw [ContractBook.contractOf_schema]
    exact List.mem_of_find?_eq_some first
  · have refers : f.refersTo k.schema.name = true := by simpa using List.find?_some first
    rwa [Key.eq_of_ofValue named] at refers
  · rw [ContractBook.contractOf_referBack, first]
    rfl

mutual

theorem creates_of_insertTree (fits : e.Fits) {k : Contract} {item : Value} {tree : Payload}
    {parent : Option Record} {s t : Store} {records : List Record} :
    e.contracts.Splits e.catalog k item tree → e.Composes k → k.Under parent →
      item.isProper = true → exec (e.insertTree tree parent) s = (.ok records, t) →
        e.Creates k parent item records ∧ s.Adds t records
  | .object allowed children, composes, under, proper, ran => by
    obtain ⟨r, middle, inserted, ran⟩ := exec_bind_eq_ok.mp ran
    obtain ⟨below, after, stored, ran⟩ := exec_bind_eq_ok.mp ran
    obtain ⟨answered, rfl⟩ := Prod.mk.inj ran
    obtain rfl := Except.ok.inj answered
    obtain ⟨fills, here⟩ := insertRecord_fills (composes.checked fits) under
      (Value.nodup_of_isProper proper) inserted
    obtain ⟨creates, there⟩ := createsBelow_of_insertGroups fits children composes fills.schema
      proper (fun child listed => listed) stored
    exact ⟨.object allowed fills creates, here.append there⟩

theorem createsBelow_of_insertGroups (fits : e.Fits) {k : Contract} {entries : Entries}
    {requirements : List ChildRequirement} {groups : List (String × List Payload)} {r : Record}
    {s t : Store} {records : List Record} :
    e.contracts.SplitsBelow e.catalog k entries requirements groups → e.Composes k →
      Key.ofValue k.schema.name = .ok r.schema → (Value.object entries).isProper = true →
        (∀ child ∈ requirements, child ∈ k.children) →
          exec (e.insertGroups groups r) s = (.ok records, t) →
            e.CreatesBelow k entries r requirements records ∧ s.Adds t records
  | .nil, _, _, _, _, ran => by
    obtain ⟨answered, rfl⟩ := Prod.mk.inj ran
    obtain rfl := Except.ok.inj answered
    exact ⟨.nil, Store.adds_nil_of_sameRows rfl⟩
  | .absent nothing others, composes, named, proper, listed, ran => by
    rw [List.forall_mem_cons] at listed
    obtain ⟨creates, adds⟩ :=
      createsBelow_of_insertGroups fits others composes named proper listed.2 ran
    refine ⟨?_, adds⟩
    rw [← List.nil_append records]
    refine .cons (fun _ => ?_) ?_ creates
    · rw [nothing]
      exact Nat.zero_le 1
    · rw [nothing]
      exact .nil
  | .given single each others, composes, named, proper, listed, ran => by
    rw [List.forall_mem_cons] at listed
    obtain ⟨here, middle, first, ran⟩ := exec_bind_eq_ok.mp ran
    obtain ⟨later, after, rest, ran⟩ := exec_bind_eq_ok.mp ran
    obtain ⟨answered, rfl⟩ := Prod.mk.inj ran
    obtain rfl := Except.ok.inj answered
    obtain ⟨nested, under⟩ := composes.below fits listed.1 named
    obtain ⟨items, adds⟩ := createsEach_of_insertAll fits each nested under
      (isProper_items proper _) first
    obtain ⟨creates, more⟩ :=
      createsBelow_of_insertGroups fits others composes named proper listed.2 rest
    exact ⟨.cons (fun one => (single one).le) items creates, adds.append more⟩

theorem createsEach_of_insertAll (fits : e.Fits) {k : Contract} {items : List Value}
    {nodes : List Payload} {parent : Record} {s t : Store} {records : List Record} :
    e.contracts.SplitsEach e.catalog k items nodes → e.Composes k → k.Under (some parent) →
      (∀ item ∈ items, item.isProper = true) →
        exec (e.insertAll nodes parent) s = (.ok records, t) →
          e.CreatesEach k parent items records ∧ s.Adds t records
  | .nil, _, _, _, ran => by
    obtain ⟨answered, rfl⟩ := Prod.mk.inj ran
    obtain rfl := Except.ok.inj answered
    exact ⟨.nil, Store.adds_nil_of_sameRows rfl⟩
  | .cons first others, composes, under, proper, ran => by
    rw [List.forall_mem_cons] at proper
    obtain ⟨here, middle, stored, ran⟩ := exec_bind_eq_ok.mp ran
    obtain ⟨later, after, rest, ran⟩ := exec_bind_eq_ok.mp ran
    obtain ⟨answered, rfl⟩ := Prod.mk.inj ran
    obtain rfl := Except.ok.inj answered
    obtain ⟨creates, adds⟩ := creates_of_insertTree fits first composes under proper.1 stored
    obtain ⟨each, more⟩ := createsEach_of_insertAll fits others composes under proper.2 rest
    exact ⟨.cons creates each, adds.append more⟩

end

end Engine

end RecordRules
