import RecordRules.Engine.Create
import RecordRules.Proofs.PayloadTrees

/-!
The row that a record of a payload is stored as. What was accepted are the data of the payload,
with defaults assumed and the field that refers back left open; what is stored has the defaults and
the id of the parent in it. It satisfies the schema all the same.
-/
namespace RecordRules

namespace Schema

theorem complaints_eq_nil_iff {s : Schema} {payload : Entries} {isPartial : Bool}
    {exempt : List String} :
    s.complaints payload isPartial exempt = .ok [] ↔
      (∀ name ∈ payload.names, s.declares name = true) ∧
        ∀ f ∈ s.fields, fieldComplaint? payload isPartial exempt f = .ok none := by
  have unknown : s.unknownNames payload = [] ↔ ∀ name ∈ payload.names, s.declares name = true := by
    rw [List.eq_nil_iff_forall_not_mem]
    simp only [unknownNames, Text.mem_sorted, List.mem_filter, not_and, Bool.not_eq_true',
      Bool.not_eq_false]
  constructor
  · intro none
    obtain ⟨ofFields, answered, none⟩ := bind_eq_ok.mp none
    obtain ⟨names, fields⟩ := List.append_eq_nil_iff.mp (Except.ok.inj none)
    constructor
    · rw [← unknown]
      split at names
      · rename_i empty
        exact List.isEmpty_iff.mp empty
      · cases names
    · intro f listed
      obtain ⟨complaint, inside, given⟩ := exists_mem_of_mapM answered listed
      cases complaint with
      | none => exact given
      | some complaint =>
        have kept := List.mem_filterMap.mpr ⟨_, inside, (rfl : id (some complaint) = _)⟩
        rw [List.map_eq_nil_iff.mp fields] at kept
        cases kept
  · rintro ⟨names, fields⟩
    rw [complaints, mapM_eq_map fields, unknown.mpr names]
    have none : ((s.fields.map fun _ => (none : Option FieldComplaint)).filterMap id) = [] := by
      rw [List.filterMap_map]
      exact List.filterMap_eq_nil_iff.mpr fun _ _ => rfl
    change Except.ok ([] ++ _) = _
    rw [none]
    rfl

theorem fieldComplaint?_whole (payload : Entries) (f : Field) :
    fieldComplaint? payload false [] f = f.complaint? ((payload.find? f.name).getD f.default) := by
  rw [fieldComplaint?]
  cases payload.find? f.name with
  | none => rfl
  | some v => rfl

end Schema

theorem Field.refersTo_null (f : Field) : f.refersTo .null = false := by
  rw [refersTo, target?]
  cases f.refer with
  | null => rfl
  | _ =>
    split
    · simp [Value.same, Value.number?]
    · rfl

theorem ContractBook.contractOf_alone (b : ContractBook) (s : Schema) (target : Target)
    (placement : Placement) : (b.contractOf s target placement .null).referBack = none := by
  rw [contractOf_referBack, Option.map_eq_none_iff, List.find?_eq_none]
  intro f _
  rw [f.refersTo_null]
  exact Bool.false_ne_true

theorem Field.complaint?_reference {f : Field} (kind : f.kind = .known .reference)
    (least : f.min.isNull = true) (most : f.max.isNull = true) {s : String} (some : s ≠ "") :
    f.complaint? (.text s) = .ok none := by
  have accepted : FieldKind.accepts .reference (.text s) = true := bne_iff_ne.mpr some
  have unbounded (beyond : Ordering) (complaint : FieldComplaint) (measured bound : Value)
      (none : bound.isNull = true) :
      boundComplaint? beyond complaint measured bound = .ok Option.none := if_pos none
  have bounds : f.boundsComplaint? (.text s) = .ok none := by
    rw [boundsComplaint?]
    simp only [Value.measure?]
    rw [unbounded _ _ _ _ least]
    exact unbounded _ _ _ _ most
  rw [complaint?, kind]
  exact (if_neg Bool.false_ne_true).trans ((if_pos accepted).trans bounds)

def Schema.RefersUnbounded (s : Schema) : Prop :=
  ∀ f ∈ s.fields, f.target?.isSome = true → f.min.isNull = true ∧ f.max.isNull = true

def Record.Referable (r : Record) : Prop := ∃ s, r.id = .text s ∧ s ≠ ""

/-- A record without a parent does not refer back to one, and to a parent one can refer. -/
def Payload.Placed (p : Payload) : Option Record → Prop
  | none => p.contract.referBack = none
  | some r => r.Referable

namespace Engine

def defaults (s : Schema) : Entries :=
  s.fields.filterMap fun f => if f.default.isNull then none else some (f.name, f.default)

theorem mem_defaults {s : Schema} {name : String} {v : Value} :
    (name, v) ∈ defaults s ↔
      ∃ f ∈ s.fields, f.default.isNull = false ∧ f.name = name ∧ f.default = v := by
  rw [defaults, List.mem_filterMap]
  refine exists_congr fun f => and_congr_right fun _ => ?_
  cases f.default.isNull <;> simp

theorem nodup_defaults {s : Schema} (checked : s.Checked) : (defaults s).names.Nodup := by
  rw [Keyed.names, List.Nodup, List.pairwise_map, defaults, List.pairwise_filterMap]
  refine (List.pairwise_map.mp checked.nodup).imp fun {f g} different entry own other others => ?_
  split at own
  · cases own
  · split at others
    · cases others
    · obtain rfl := Option.some.inj own
      obtain rfl := Option.some.inj others
      exact different

theorem find?_defaults {s : Schema} (checked : s.Checked) {f : Field} (listed : f ∈ s.fields) :
    (defaults s).find? f.name = if f.default.isNull then none else some f.default := by
  split
  · rename_i null
    rw [Option.eq_none_iff_forall_ne_some]
    intro v found
    obtain ⟨g, also, given, same, -⟩ :=
      mem_defaults.mp ((Keyed.find?_eq_some_iff (nodup_defaults checked) _ _).mp found)
    rw [checked.eq_of_name also listed same, null] at given
    cases given
  · rename_i given
    rw [Keyed.find?_eq_some_iff (nodup_defaults checked)]
    exact mem_defaults.mpr ⟨f, listed, Bool.not_eq_true _ ▸ given, rfl, rfl⟩

theorem getD_own {s : Schema} (checked : s.Checked) {data : Entries}
    (distinct : data.names.Nodup) {f : Field} (listed : f ∈ s.fields) :
    (((defaults s).merge data).find? f.name).getD f.default =
      (data.find? f.name).getD f.default := by
  rw [Keyed.find?_merge_of_nodup _ distinct, find?_defaults checked listed]
  cases data.find? f.name with
  | some v => rfl
  | none =>
    split <;> rfl

theorem initialValues_cases (p : Payload) (parent : Option Record) :
    ((parent = none ∨ p.contract.referBack = none) ∧
        initialValues p parent = (defaults p.contract.schema).merge p.data) ∨
      ∃ r field, parent = some r ∧ p.contract.referBack = some field ∧
        initialValues p parent =
          ((defaults p.contract.schema).merge p.data).put field r.id.toValue := by
  cases parent with
  | none => exact .inl ⟨.inl rfl, rfl⟩
  | some r =>
    cases refers : p.contract.referBack with
    | none =>
      refine .inl ⟨.inr rfl, ?_⟩
      simp only [initialValues, refers]
      rfl
    | some field =>
      refine .inr ⟨r, field, rfl, rfl, ?_⟩
      simp only [initialValues, refers]
      rfl

theorem declares_own {c : Catalog} {p : Payload} (built : p.Built c) {name : String}
    (inside : name ∈ ((defaults p.contract.schema).merge p.data).names) :
    p.contract.schema.declares name = true := by
  rcases Keyed.mem_names_merge inside with given | given
  · obtain ⟨⟨_, v⟩, entry, rfl⟩ := List.mem_map.mp given
    obtain ⟨f, listed, -, same, -⟩ := mem_defaults.mp entry
    exact Schema.declares_iff.mpr ⟨f, listed, same⟩
  · exact built.declared name given

/-- What is a record's own is accepted, but for the field that is left open for the parent. -/
theorem fieldComplaint?_own {c : Catalog} {p : Payload} (checked : p.contract.schema.Checked)
    (built : p.Built c) (accepted : p.Accepted) {f : Field} (listed : f ∈ p.contract.schema.fields)
    (present : p.contract.referBack.toList.contains f.name = false) :
    Schema.fieldComplaint? ((defaults p.contract.schema).merge p.data) false [] f = .ok none := by
  obtain ⟨-, fields⟩ := Schema.complaints_eq_nil_iff.mp accepted
  have passed := fields f listed
  rw [Schema.fieldComplaint?_whole, getD_own checked built.distinct listed,
    ← Schema.fieldComplaint?_whole]
  rw [Schema.fieldComplaint?, present] at passed
  exact passed

theorem fieldComplaint?_initialValues {c : Catalog} {p : Payload} (parent : Option Record)
    (checked : p.contract.schema.Checked) (built : p.Built c) (accepted : p.Accepted) {f : Field}
    (listed : f ∈ p.contract.schema.fields) (other : p.contract.referBack ≠ some f.name) :
    Schema.fieldComplaint? (initialValues p parent) false [] f = .ok none := by
  have own := fieldComplaint?_own checked built accepted listed (by
    rw [Bool.eq_false_iff, Ne, List.contains_iff_mem, Option.mem_toList]
    exact other)
  rcases initialValues_cases p parent with ⟨-, stored⟩ | ⟨r, field, rfl, back, stored⟩
  · rw [stored]
    exact own
  · have apart : ¬(field == f.name) = true := by
      intro same
      exact other (eq_of_beq same ▸ back)
    rw [stored, Schema.fieldComplaint?_whole, Keyed.find?_put, if_neg apart,
      ← Schema.fieldComplaint?_whole]
    exact own

theorem find?_initialValues_back {p : Payload} {parent : Option Record} (placed : p.Placed parent)
    {field : String} (back : p.contract.referBack = some field) :
    ∃ s, s ≠ "" ∧ (initialValues p parent).find? field = some (.text s) := by
  rcases initialValues_cases p parent with ⟨root, -⟩ | ⟨r, name, rfl, refers, stored⟩
  · rcases root with rfl | none
    · cases back.symm.trans placed
    · cases back.symm.trans none
  · obtain rfl := Option.some.inj (back.symm.trans refers)
    obtain ⟨s, named, some⟩ := placed
    refine ⟨s, some, ?_⟩
    rw [stored, Keyed.find?_put, if_pos BEq.rfl, named]
    rfl

/-- A record is stored with values that its schema accepts without exemptions. -/
theorem initialValues_accepted {c : Catalog} {p : Payload} {parent : Option Record}
    (checked : p.contract.schema.Checked) (unbounded : p.contract.schema.RefersUnbounded)
    (built : p.Built c) (accepted : p.Accepted) (placed : p.Placed parent) :
    p.contract.schema.complaints (initialValues p parent) = .ok [] := by
  rw [Schema.complaints_eq_nil_iff]
  constructor
  · intro name inside
    rcases initialValues_cases p parent with ⟨-, stored⟩ | ⟨r, field, rfl, refers, stored⟩
    · rw [stored] at inside
      exact declares_own built inside
    · rw [stored] at inside
      rcases Keyed.mem_names_put inside with given | rfl
      · exact declares_own built given
      · obtain ⟨back, listed, same, -⟩ := built.known.referBack name refers
        exact Schema.declares_iff.mpr ⟨back, listed, same⟩
  · intro f listed
    by_cases back : p.contract.referBack = some f.name
    · obtain ⟨g, also, same, target⟩ := built.known.referBack f.name back
      obtain rfl := checked.eq_of_name also listed same
      obtain ⟨least, most⟩ := unbounded g also target
      obtain ⟨s, some, held⟩ := find?_initialValues_back placed back
      rw [Schema.fieldComplaint?_whole, held]
      exact Field.complaint?_reference (Field.kind_of_check (checked.fields g also) target)
        least most some
    · exact fieldComplaint?_initialValues parent checked built accepted listed back

end Engine

end RecordRules
