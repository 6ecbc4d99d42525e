import RecordRules.Proofs.CreatedRows
import RecordRules.Proofs.MirroredRules

/-!
What created records refer to. Main statements: as long as no payload, default or older row mentions
the id of a record, only its own children refer to it; and the children that are found for a record
in the rows are those of the created records that refer to it.
-/
namespace RecordRules

open Step

namespace Engine

def points (e : Engine) (q r : Record) : Bool :=
  match e.catalog.get? q.schema with
  | none => false
  | some s => s.fields.any fun f =>
      f.refersTo r.schema.toValue && (q.data.get f.name).names r.id

def isChild (e : Engine) (child : ChildRequirement) (r q : Record) : Bool :=
  child.schema.names q.schema && e.points q r

/-- An object in a payload gives a value for a field that refers to other records. -/
inductive Gives (e : Engine) : Contract → Value → Value → Prop where
  | own {k : Contract} {entries : Entries} {f : Field} {v : Value}
      (declared : f ∈ k.schema.referFields) (given : entries.find? f.name = some v) :
      Gives e k (.object entries) v
  | nested {k : Contract} {entries : Entries} {child : ChildRequirement} {item v : Value}
      (listed : child ∈ k.children) (inside : item ∈ child.items entries)
      (gives : Gives e (e.contracts.nested e.catalog k child) item v) :
      Gives e k (.object entries) v

def SparesRows (e : Engine) (s : Store) (id : Key) : Prop :=
  ∀ key definition, (key, definition) ∈ e.catalog.schemas → ∀ row ∈ s.table key,
    ∀ f ∈ definition.referFields, (row.2.get f.name).names id = false

def SparesDefaults (e : Engine) (id : Key) : Prop :=
  ∀ key definition, (key, definition) ∈ e.catalog.schemas → ∀ f ∈ definition.referFields,
    f.default.names id = false

/-- All references between schemas name a key. -/
def References (e : Engine) : Prop :=
  ∀ key s, (key, s) ∈ e.catalog.schemas → ∀ f ∈ s.referFields,
    ∃ parent, Key.ofValue f.refer = .ok parent

end Engine

theorem Field.target?_eq_some {f : Field} {v : Value} (refers : f.refersTo v = true) :
    f.target? = some f.refer := by
  unfold refersTo target? at *
  split at refers
  · rename_i whole
    rw [if_pos whole]
  · cases refers

theorem Schema.mem_referFields {s : Schema} {f : Field} {v : Value} (declared : f ∈ s.fields)
    (refers : f.refersTo v = true) : f ∈ s.referFields := by
  refine List.mem_filter.mpr ⟨declared, ?_⟩
  rw [Field.target?_eq_some refers]
  rfl

theorem Field.refersTo_eq {f : Field} (target : f.target?.isSome = true) {parent : Key}
    (named : Key.ofValue f.refer = .ok parent) (schema : Key) :
    f.refersTo schema.toValue = (parent == schema) := by
  unfold refersTo target? at *
  split at target
  · rename_i whole
    rw [if_pos whole, Option.any_some]
    exact Value.names_of_key named schema
  · cases target

theorem Catalog.Linked.exists_edge {c : Catalog} (linked : c.Linked) {schema parent : Key}
    {s : Schema} (present : (schema, s) ∈ c.schemas)
    (named : ∀ f ∈ s.referFields, ∃ parent, Key.ofValue f.refer = .ok parent) {f : Field}
    (single : s.fields.filter (fun f => f.refersTo parent.toValue) = [f]) :
    ∃ edge, c.edges.filter (fun edge => edge.parent == parent && edge.child == schema) = [edge] ∧
      edge.field = f := by
  have congr : ∀ edge ∈ c.edges.filter fun edge => edge.child == schema,
      (edge.parent == parent) = ((fun g => g.refersTo parent.toValue) ∘ Edge.field) edge := by
    intro edge inside
    obtain ⟨refers, other, -, declared⟩ := linked.edges edge (List.mem_filter.mp inside).1
    exact (Field.refersTo_eq (List.mem_filter.mp declared).2 refers parent).symm
  have along : (c.edges.filter fun edge => edge.parent == parent && edge.child == schema).map
      Edge.field = [f] := by
    rw [← List.filter_filter, List.filter_congr congr, ← List.filter_map,
      linked.complete schema s present named, ← single, Schema.referFields, List.filter_filter]
    refine List.filter_congr fun g _ => ?_
    cases refers : g.refersTo parent.toValue with
    | false => rfl
    | true => rw [Field.target?_eq_some refers]; rfl
  obtain ⟨edge, only⟩ := List.length_eq_one_iff.mp
    ((List.length_map _).symm.trans (congrArg List.length along))
  rw [only] at along
  exact ⟨edge, only, List.head_eq_of_cons_eq along⟩

namespace Engine

variable {e : Engine} {k v : Contract} {r : Record} {s t : Store}

theorem Mirrors.exists_field (mirrors : e.Mirrors) (fits : e.Fits) (references : e.References)
    (views : e.Views v r) (named : Key.ofValue v.schema.name = .ok r.schema)
    {child : ChildRequirement} (listed : child ∈ v.children) :
    ∃ schema definition f, (schema, definition) ∈ e.catalog.schemas ∧
      (∀ other, child.schema.names other = (other == schema)) ∧
      definition.fields.filter (fun f => f.refersTo r.schema.toValue) = [f] ∧
      ∀ t : Store, t.children e.catalog r child.schema = t.referring r schema f := by
  have reads : v.target ≠ .edit := by rw [views.target]; decide
  obtain ⟨key, definition, called, found, -⟩ := views.composes.nested fits listed
  obtain ⟨schema, same, present⟩ := Keyed.mem_of_find? found
  obtain ⟨f, single⟩ := mirrors.single_field fits views.composes reads listed called found
  rw [Key.eq_of_ofValue named] at single
  have names (other : Key) : child.schema.names other = (other == schema) := by
    rw [Value.names_of_key called, Bool.eq_iff_iff]
    exact ⟨fun equal => PartialEquivBEq.trans (BEq.symm equal) (BEq.symm same),
      fun equal => PartialEquivBEq.trans (BEq.symm same) (BEq.symm equal)⟩
  have counts (edge : Edge) :
      Store.countsFor child.schema edge.child.toValue = (edge.child == schema) := by
    rw [← names, Bool.eq_iff_iff]
    constructor
    · exact views.child_schema fits listed
    · intro equal
      unfold Store.countsFor
      rw [show child.schema.same edge.child.toValue = true from equal, Bool.or_true]
  obtain ⟨edge, only, rfl⟩ := fits.catalog.linked.exists_edge present
    (references schema definition present) single
  obtain ⟨along, joins⟩ := List.mem_filter.mp (only ▸ List.mem_singleton_self edge)
  obtain ⟨-, other, among, -⟩ := fits.catalog.linked.edges edge along
  obtain ⟨rfl, -⟩ := fits.catalog.eq_of_same among present (Bool.and_eq_true_iff.mp joins).2
  refine ⟨edge.child, definition, edge.field, present, names, single, fun t => ?_⟩
  have found : ((e.catalog.childrenOf r.schema).filter fun pair =>
      Store.countsFor child.schema pair.1.toValue) = [(edge.child, edge.field)] := by
    rw [Catalog.childrenOf, List.filter_map, List.filter_filter]
    have congr : ∀ other ∈ e.catalog.edges,
        (((fun pair : Key × Field => Store.countsFor child.schema pair.1.toValue) ∘
          fun edge : Edge => (edge.child, edge.field)) other && other.parent == r.schema) =
          (other.parent == r.schema && other.child == edge.child) := by
      intro other _
      rw [Bool.and_comm]
      exact congrArg _ (counts other)
    rw [List.filter_congr congr, only]
    rfl
  rw [Store.children, found]
  exact List.append_nil _

theorem isChild_eq (fits : e.Fits) {schema : Key} {definition : Schema} {f : Field}
    {child : ChildRequirement} (present : (schema, definition) ∈ e.catalog.schemas)
    (names : ∀ other, child.schema.names other = (other == schema))
    (single : definition.fields.filter (fun f => f.refersTo r.schema.toValue) = [f]) (q : Record) :
    e.isChild child r q = ((q.schema == schema) && (q.data.get f.name).names r.id) := by
  unfold isChild
  rw [names]
  cases same : q.schema == schema with
  | false => rfl
  | true =>
    rw [Bool.true_and, Bool.true_and, points, fits.catalog.get?_of_mem present (BEq.symm same)]
    dsimp only
    rw [← List.any_filter, single, List.any_cons, List.any_nil, Bool.or_false]

/-- Among the rows there are, after records were added, and as long as no older row mentions its id,
the children of a record are those added ones that refer to it. -/
theorem children_eq_filter (mirrors : e.Mirrors) (fits : e.Fits) (references : e.References)
    (views : e.Views v r) (named : Key.ofValue v.schema.name = .ok r.schema)
    {child : ChildRequirement} (listed : child ∈ v.children) {records : List Record}
    (adds : s.Adds t records) (spared : e.SparesRows s r.id)
    (known : ∀ q ∈ records, ∃ definition, (q.schema, definition) ∈ e.catalog.schemas) :
    t.children e.catalog r child.schema = records.filter (e.isChild child r) := by
  obtain ⟨schema, definition, f, present, names, single, along⟩ :=
    mirrors.exists_field fits references views named listed
  have declared : f ∈ definition.referFields := by
    obtain ⟨inside, refers⟩ := List.mem_filter.mp (single ▸ List.mem_singleton_self f)
    exact Schema.mem_referFields inside refers
  have added : (records.filter fun q => q.schema == schema).map
      (fun q => (⟨schema, q.id, q.data⟩ : Record)) =
        records.filter fun q => q.schema == schema := by
    rw [List.map_congr_left (g := id), List.map_id]
    intro q inside
    obtain ⟨among, same⟩ := List.mem_filter.mp inside
    obtain ⟨other, also⟩ := known q among
    obtain ⟨rfl, -⟩ := fits.catalog.eq_of_same also present same
    rfl
  have older : (s.recordsOf schema).filter (fun q => (q.data.get f.name).names r.id) = [] := by
    rw [List.filter_eq_nil_iff]
    intro q inside
    obtain ⟨row, listed, rfl⟩ := List.mem_map.mp inside
    rw [spared schema definition present row listed f declared]
    exact Bool.false_ne_true
  have rows : t.recordsOf schema =
      s.recordsOf schema ++ records.filter fun q => q.schema == schema := by
    rw [Store.recordsOf, adds.tables, List.map_append, List.map_map]
    exact congrArg (s.recordsOf schema ++ ·) added
  rw [along, Store.referring, rows, List.filter_append, older, List.nil_append, List.filter_filter]
  refine List.filter_congr fun q _ => ?_
  rw [isChild_eq fits present names single, Bool.and_comm]

theorem Composes.get?_of_named (composes : e.Composes k) (fits : e.Fits)
    (named : Key.ofValue k.schema.name = .ok r.schema) :
    e.catalog.get? r.schema = some k.schema ∧ (r.schema, k.schema) ∈ e.catalog.schemas := by
  obtain ⟨key, -, found, -⟩ := composes
  obtain ⟨-, own, called, stored⟩ := fits.catalog.of_get? found
  obtain rfl : own = r.schema := Except.ok.inj (called.symm.trans named)
  refine ⟨stored, ?_⟩
  obtain ⟨other, same, present⟩ := Keyed.mem_of_find? stored
  obtain ⟨-, called⟩ := fits.catalog.checked other k.schema present
  rwa [Except.ok.inj (named.symm.trans called)]

theorem Composes.names_of_nested (composes : e.Composes k) (fits : e.Fits)
    {child : ChildRequirement} (listed : child ∈ k.children) {other : Key}
    (names : (e.contracts.nested e.catalog k child).schema.name.names other = true) :
    child.schema.names other = true := by
  obtain ⟨key, definition, given, found, same, -⟩ := composes.nested fits listed
  rw [same, ContractBook.contractOf_schema] at names
  obtain ⟨own, equal, present⟩ := Keyed.mem_of_find? found
  rw [Value.names_of_key (fits.catalog.checked own definition present).2] at names
  rw [Value.names_of_key given]
  exact PartialEquivBEq.trans (BEq.symm equal) names

theorem get_of_fills (checked : k.schema.Checked) {parent : Option Record} {entries : Entries}
    (fills : k.Fills parent entries r) {f : Field} (declared : f ∈ k.schema.fields)
    (other : k.referBack ≠ some f.name) :
    r.data.get f.name = (entries.find? f.name).getD f.default := by
  have field : k.schema.field? f.name = some f := by
    obtain ⟨g, stored⟩ := Option.isSome_iff_exists.mp (Schema.declares_iff.mpr ⟨f, declared, rfl⟩)
    have also := List.mem_of_find?_eq_some stored
    rwa [checked.eq_of_name also declared (Schema.name_of_field? stored)] at stored
  rw [Entries.get, fills.own f.name other, field, Option.bind_some]
  cases entries.find? f.name with
  | some v => rfl
  | none =>
    cases f.default with
    | null => rfl
    | _ => rfl

theorem points_of_fills (fits : e.Fits) (references : e.References) (composes : e.Composes k)
    {parent : Option Record} {entries : Entries} (under : k.Under parent)
    (fills : k.Fills parent entries r) {x : Record} (defaults : e.SparesDefaults x.id)
    (payload : ∀ v, e.Gives k (.object entries) v → v.names x.id = false)
    (points : e.points r x = true) :
    ∃ p, parent = some p ∧ (p.key == x.key) = true := by
  obtain ⟨found, present⟩ := composes.get?_of_named fits fills.schema
  have checked := composes.checked fits
  unfold Engine.points at points
  rw [found] at points
  obtain ⟨f, declared, points⟩ := List.any_eq_true.mp points
  obtain ⟨refers, mentions⟩ := Bool.and_eq_true_iff.mp points
  have reference := Schema.mem_referFields declared refers
  by_cases back : k.referBack = some f.name
  · cases parent with
    | none =>
      rw [show k.referBack = none from under] at back
      cases back
    | some p =>
      obtain ⟨g, also, refersBack, named, value⟩ := fills.referBack p rfl
      obtain rfl : g = f :=
        checked.eq_of_name also declared (Option.some.inj (named.symm.trans back))
      obtain ⟨target, given⟩ := references _ _ present g reference
      have whole := (List.mem_filter.mp reference).2
      rw [Field.refersTo_eq whole given] at refers refersBack
      rw [Entries.get, value, Option.getD_some] at mentions
      refine ⟨p, rfl, Bool.and_eq_true_iff.mpr ⟨?_, ?_⟩⟩
      · exact PartialEquivBEq.trans (BEq.symm refersBack) refers
      · exact (Value.same_toValue p.id x.id).symm.trans mentions
  · rw [get_of_fills checked fills declared back] at mentions
    have spared : ((entries.find? f.name).getD f.default).names x.id = false := by
      cases given : entries.find? f.name with
      | some v => exact payload v (.own reference given)
      | none => exact defaults _ _ present f reference
    rw [mentions] at spared
    cases spared

mutual

theorem forall_of_creates (fits : e.Fits) {P : Record → Prop}
    (each : ∀ k parent entries r, e.Composes k → k.Fills parent entries r → P r) {k : Contract}
    {parent : Option Record} {item : Value} {records : List Record} :
    e.Creates k parent item records → e.Composes k → ∀ q ∈ records, P q
  | .object _ row children, composes => by
    refine List.forall_mem_cons.mpr ⟨each _ _ _ _ composes row, ?_⟩
    exact forall_of_createsBelow fits each children composes row.schema fun child listed => listed

theorem forall_of_createsBelow (fits : e.Fits) {P : Record → Prop}
    (each : ∀ k parent entries r, e.Composes k → k.Fills parent entries r → P r) {k : Contract}
    {entries : Entries} {r : Record} {requirements : List ChildRequirement}
    {records : List Record} :
    e.CreatesBelow k entries r requirements records → e.Composes k →
      Key.ofValue k.schema.name = .ok r.schema → (∀ child ∈ requirements, child ∈ k.children) →
        ∀ q ∈ records, P q
  | .nil, _, _, _ => fun q absent => absurd absent List.not_mem_nil
  | .cons _ items others, composes, named, listed => by
    rw [List.forall_mem_cons] at listed
    rw [List.forall_mem_append]
    exact ⟨forall_of_createsEach fits each items (composes.below fits listed.1 named).1,
      forall_of_createsBelow fits each others composes named listed.2⟩

theorem forall_of_createsEach (fits : e.Fits) {P : Record → Prop}
    (each : ∀ k parent entries r, e.Composes k → k.Fills parent entries r → P r) {k : Contract}
    {parent : Record} {items : List Value} {records : List Record} :
    e.CreatesEach k parent items records → e.Composes k → ∀ q ∈ records, P q
  | .nil, _ => fun q absent => absurd absent List.not_mem_nil
  | .cons first others, composes => by
    rw [List.forall_mem_append]
    exact ⟨forall_of_creates fits each first composes,
      forall_of_createsEach fits each others composes⟩

end

mutual

/-- Of the records that a payload is stored as, only the first one refers to anything but to these
records, and that is its parent. -/
theorem points_of_creates (fits : e.Fits) (references : e.References) {x : Record}
    (defaults : e.SparesDefaults x.id) {k : Contract} {parent : Option Record} {item : Value}
    {records : List Record} : e.Creates k parent item records → e.Composes k → k.Under parent →
      (∀ v, e.Gives k item v → v.names x.id = false) → ∀ q ∈ records, e.points q x = true →
        (∃ p, parent = some p ∧ (p.key == x.key) = true ∧ k.schema.name.names q.schema = true) ∨
          ∃ p ∈ records, (p.key == x.key) = true
  | .object _ row children, composes, under, payload, q, listed, points => by
    rcases List.mem_cons.mp listed with rfl | later
    · left
      obtain ⟨p, given, same⟩ :=
        points_of_fills fits references composes under row defaults payload points
      refine ⟨p, given, same, ?_⟩
      rw [Value.names_of_key row.schema]
      exact BEq.rfl
    · right
      have below := points_of_createsBelow fits references defaults children composes row.schema
        (fun child listed => listed) payload q later points
      rcases below with ⟨same, -⟩ | ⟨p, among, same⟩
      · exact ⟨_, List.mem_cons_self, same⟩
      · exact ⟨p, List.mem_cons_of_mem _ among, same⟩

theorem points_of_createsBelow (fits : e.Fits) (references : e.References) {x : Record}
    (defaults : e.SparesDefaults x.id) {k : Contract} {entries : Entries} {r : Record}
    {requirements : List ChildRequirement} {records : List Record} :
    e.CreatesBelow k entries r requirements records → e.Composes k →
      Key.ofValue k.schema.name = .ok r.schema → (∀ child ∈ requirements, child ∈ k.children) →
        (∀ v, e.Gives k (.object entries) v → v.names x.id = false) →
          ∀ q ∈ records, e.points q x = true →
            ((r.key == x.key) = true ∧ ∃ child ∈ requirements,
              child.schema.names q.schema = true) ∨ ∃ p ∈ records, (p.key == x.key) = true
  | .nil, _, _, _, _, q, absent, _ => absurd absent List.not_mem_nil
  | .cons _ items others, composes, named, listed, payload, q, among, points => by
    rw [List.forall_mem_cons] at listed
    rcases List.mem_append.mp among with here | later
    · obtain ⟨nested, under⟩ := composes.below fits listed.1 named
      have each := points_of_createsEach fits references defaults items nested under
        (fun item inside v gives => payload v (.nested listed.1 inside gives)) q here points
      rcases each with ⟨same, names⟩ | ⟨p, inside, same⟩
      · exact .inl ⟨same, _, List.mem_cons_self, composes.names_of_nested fits listed.1 names⟩
      · exact .inr ⟨p, List.mem_append_left _ inside, same⟩
    · have below := points_of_createsBelow fits references defaults others composes named listed.2
        payload q later points
      rcases below with ⟨same, child, inside, names⟩ | ⟨p, inside, same⟩
      · exact .inl ⟨same, child, List.mem_cons_of_mem _ inside, names⟩
      · exact .inr ⟨p, List.mem_append_right _ inside, same⟩

theorem points_of_createsEach (fits : e.Fits) (references : e.References) {x : Record}
    (defaults : e.SparesDefaults x.id) {k : Contract} {parent : Record} {items : List Value}
    {records : List Record} : e.CreatesEach k parent items records → e.Composes k →
      k.Under (some parent) → (∀ item ∈ items, ∀ v, e.Gives k item v → v.names x.id = false) →
        ∀ q ∈ records, e.points q x = true →
          ((parent.key == x.key) = true ∧ k.schema.name.names q.schema = true) ∨
            ∃ p ∈ records, (p.key == x.key) = true
  | .nil, _, _, _, q, absent, _ => absurd absent List.not_mem_nil
  | .cons first others, composes, under, payload, q, among, points => by
    rw [List.forall_mem_cons] at payload
    rcases List.mem_append.mp among with here | later
    · have tree := points_of_creates fits references defaults first composes under payload.1 q here
        points
      rcases tree with ⟨p, given, same, names⟩ | ⟨p, inside, same⟩
      · obtain rfl := Option.some.inj given
        exact .inl ⟨same, names⟩
      · exact .inr ⟨p, List.mem_append_left _ inside, same⟩
    · have each := points_of_createsEach fits references defaults others composes under payload.2 q
        later points
      rcases each with found | ⟨p, inside, same⟩
      · exact .inl found
      · exact .inr ⟨p, List.mem_append_right _ inside, same⟩

end

end Engine

end RecordRules
