import RecordRules.Proofs.ConformingPayloads
import RecordRules.Proofs.GeneratedIds
import RecordRules.Proofs.ModifiedEvents
import RecordRules.Proofs.TypedSchemas
import RecordRules.Proofs.UpdateDecision

/-!
How calls of a host fail. Where the schemas are well typed and there are no reactions, whatever is
given as the payload of a new record, the creation succeeds or is refused. So does an update, with
one exception: the state of the record is checked before the kinds of the values are, and a value
that can be in no set cannot be looked up among those that the state allows.
-/
namespace RecordRules

open Step

namespace Step

variable {σ α β : Type} {P : Failure → Prop}

theorem faults_exec_bind {step : Step σ α} {next : α → Step σ β} {s : σ}
    (first : Faults P (exec step s).1)
    (later : ∀ x t, exec step s = (.ok x, t) → Faults P (exec (next x) t).1) :
    Faults P (exec (step >>= next) s).1 := by
  refine bind_ends (P := fun ended => Faults P ended.1) (fun failure t ran => ?_) later
  rw [ran] at first
  exact faults_error (first failure rfl)

theorem faults_ofExcept_bind {outcome : Except Failure α} {next : α → Step σ β} {s : σ}
    (first : Faults P outcome) (later : ∀ x, outcome = .ok x → Faults P (exec (next x) s).1) :
    Faults P (exec (ofExcept outcome >>= next) s).1 := by
  refine faults_exec_bind first fun x t ran => ?_
  obtain ⟨answered, rfl⟩ := Prod.mk.inj ran
  exact later x answered

end Step

theorem Failure.isDeclared_naming {keys : List Key} {failure : Failure}
    (declared : failure.IsDeclared) (short : keys.all Key.isWritable = true) :
    (naming keys failure).IsDeclared := by
  rwa [naming, if_pos short]

theorem Catalog.require_faults {c : Catalog} {name : Key} (short : name.isWritable = true) :
    Faults Failure.IsDeclared (c.require name) := by
  unfold require
  cases c.get? name with
  | none => exact faults_error (Failure.isDeclared_naming trivial (by simp [short]))
  | some s => exact faults_ok s

theorem Store.outcome_transaction {α : Type} (step : Step Store α) (s : Store) :
    (exec (transaction step) s).1 = (exec step s.enter).1 := by
  rw [transaction, exec_of]
  cases exec step s.enter with
  | mk outcome after => cases outcome <;> rfl

namespace Payload

variable {P : Payload → Prop}

mutual

theorem forall_levels : (p : Payload) → p.All P → ∀ q ∈ p.levels.flatten, P q
  | .node contract location data children, all, q, member => by
    cases all with
    | node here below =>
      rw [levels, List.flatten_cons] at member
      rcases List.mem_append.mp member with root | under
      · exact List.mem_singleton.mp root ▸ here
      · exact forall_levelsOfGroups children below q under

theorem forall_levelsOfGroups : (groups : List (String × List Payload)) →
    (∀ group ∈ groups, ∀ p ∈ group.2, p.All P) → ∀ q ∈ (levelsOfGroups groups).flatten, P q
  | [], _, q, member => by cases member
  | (key, nodes) :: rest, each, q, member => by
    rw [levelsOfGroups, mem_zipLevels] at member
    rcases member with here | later
    · exact forall_levelsOfAll nodes (each (key, nodes) List.mem_cons_self) q here
    · exact forall_levelsOfGroups rest (fun group listed =>
        each group (List.mem_cons_of_mem _ listed)) q later

theorem forall_levelsOfAll : (nodes : List Payload) → (∀ p ∈ nodes, p.All P) →
    ∀ q ∈ (levelsOfAll nodes).flatten, P q
  | [], _, q, member => by cases member
  | p :: rest, each, q, member => by
    rw [levelsOfAll, mem_zipLevels] at member
    rcases member with here | later
    · exact forall_levels p (each p List.mem_cons_self) q here
    · exact forall_levelsOfAll rest (fun r listed => each r (List.mem_cons_of_mem _ listed)) q later

end

end Payload

structure ChildRequirement.IsWritable (r : ChildRequirement) : Prop where
  least : r.minItems.value.isWritable = true
  most : ∀ bound, r.maxItems = some bound → bound.value.isWritable = true

def ContractBook.IsWritable (b : ContractBook) : Prop :=
  ∀ a ∈ b.augmentations, ∀ r ∈ a.children, r.IsWritable

namespace ContractBook

variable {b : ContractBook} {c : Catalog} {P : Contract → Prop}

/-- What holds of an object and its contract if it holds of its children, and of whatever is no
object, holds of every payload. -/
theorem payload_induction {M : Contract → Value → Prop} (b : ContractBook) (c : Catalog)
    (object : ∀ k entries, (∀ r ∈ k.children, ∀ item ∈ r.items entries, M (b.nested c k r) item) →
      M k (.object entries))
    (other : ∀ k v, (∀ entries, v ≠ .object entries) → M k v) (k : Contract) (payload : Value) :
    M k payload := by
  induction size : sizeOf payload using Nat.strongRecOn generalizing k payload with
  | ind n ih =>
    by_cases shape : ∃ entries, payload = .object entries
    · obtain ⟨entries, rfl⟩ := shape
      exact object k entries fun r child item among =>
        ih _ (size ▸ sizeOf_items_lt among) _ item rfl
    · exact other k payload fun entries same => shape ⟨entries, same⟩

theorem splitShape_other (b : ContractBook) (c : Catalog) (k : Contract) (location : Value)
    (isPartial : Bool) {payload : Value} (other : ∀ entries, payload ≠ .object entries) :
    b.splitShape c k location isPartial payload =
      (.node k location [] [], [.notAnObject location.embedded payload.kindName]) := by
  rw [splitShape.eq_def]
  dsimp only
  split
  · exact absurd rfl (other _)
  · rfl

section

variable {k : Contract} {r : ChildRequirement} {here place : String} {isPartial : Bool}
  {entries : Entries}

theorem mem_splitChild_fst {group : String × List Payload}
    (given : (b.splitChild c k here isPartial entries r).1 = some group) {p : Payload}
    (member : p ∈ group.2) : ∃ item ∈ r.items entries, ∃ spot,
      p = (b.splitShape c (b.nested c k r) spot false item).1 := by
  unfold splitChild at given
  dsimp only at given
  split at given
  · cases given
  · rename_i present
    split at given
    · cases given
    · rename_i items complaints taken
      obtain ⟨same, -⟩ := items_of_childItems (Bool.not_eq_true _ ▸ present) taken
      obtain rfl := Option.some.inj given
      obtain ⟨pair, split, rfl⟩ := List.mem_map.mp member
      obtain ⟨index, lt, rfl⟩ := List.mem_mapIdx.mp split
      exact ⟨items[index], by rw [same]; exact List.getElem_mem lt, _, rfl⟩

theorem countComplaints_writable (own : r.IsWritable) (count : Nat) :
    ∀ complaint ∈ countComplaints r place count, complaint.isWritable = true := by
  intro complaint member
  unfold countComplaints at member
  rcases List.mem_append.mp member with least | most
  · split at least
    · obtain rfl := List.mem_singleton.mp least
      exact own.least
    · cases least
  · split at most
    · rename_i bound upper
      split at most
      · obtain rfl := List.mem_singleton.mp most
        exact own.most bound upper
      · cases most
    · cases most

theorem childItems_writable (place : String) (own : r.IsWritable) (v : Value) :
    ∀ complaint ∈ (childItems r place v).2, complaint.isWritable = true := by
  intro complaint member
  unfold childItems at member
  split at member <;> split at member
  · obtain rfl := List.mem_singleton.mp member
    rfl
  · exact countComplaints_writable own _ complaint member
  · cases member
  · obtain rfl := List.mem_singleton.mp member
    rfl

theorem mem_splitChild_snd (own : r.IsWritable) {complaint : ShapeComplaint}
    (member : complaint ∈ (b.splitChild c k here isPartial entries r).2) :
    complaint.isWritable = true ∨ ∃ item ∈ r.items entries, ∃ spot,
      complaint ∈ (b.splitShape c (b.nested c k r) spot false item).2 := by
  unfold splitChild at member
  dsimp only at member
  split at member
  · left
    split at member
    · exact List.mem_singleton.mp member ▸ rfl
    · cases member
  · rename_i present
    have counted := childItems_writable (here ++ "." ++ r.key.embedded) own (given r.key entries)
    split at member
    · rename_i complaints taken
      rw [taken] at counted
      exact .inl (counted complaint member)
    · rename_i items complaints taken
      rw [taken] at counted
      obtain ⟨same, -⟩ := items_of_childItems (Bool.not_eq_true _ ▸ present) taken
      rcases List.mem_append.mp member with first | later
      · exact .inl (counted complaint first)
      · obtain ⟨all, listed, inside⟩ := List.mem_flatten.mp later
        obtain ⟨pair, split, rfl⟩ := List.mem_map.mp listed
        obtain ⟨index, lt, rfl⟩ := List.mem_mapIdx.mp split
        rcases List.mem_append.mp inside with lacks | nested
        · left
          unfold fieldsComplaint at lacks
          split at lacks
          · split at lacks
            · cases lacks
            · exact List.mem_singleton.mp lacks ▸ rfl
          · cases lacks
        · exact .inr ⟨items[index], by rw [same]; exact List.getElem_mem lt, _, nested⟩

end

theorem isWritable_of_mem_items {r : ChildRequirement} {entries : Entries} {item : Value}
    (writable : (Value.object entries).isWritable = true) (among : item ∈ r.items entries) :
    item.isWritable = true := by
  have whole : (given r.key entries).isWritable = true := by
    unfold given
    split
    · exact Value.isWritable_get writable _
    · rfl
  unfold ChildRequirement.items at among
  split at among
  · cases among
  · rename_i items value
    rw [value] at whole
    exact Value.areWritable_iff.mp whole item among
  · rw [List.mem_singleton.mp among]
    exact whole

section

variable (inherited : ∀ k r, P k → r ∈ k.children → P (b.nested c k r))

include inherited

/-- A kind of contracts that children inherit is that of all the records below a contract; and
their data can be written, if the payload can. -/
theorem splitShape_nodes (k : Contract) (payload : Value) : ∀ location isPartial, P k →
    payload.isWritable = true → (b.splitShape c k location isPartial payload).1.All fun p =>
      P p.contract ∧ (Value.object p.data).isWritable = true := by
  induction k, payload using payload_induction b c with
  | object k entries ih =>
    intro location isPartial here writable
    rw [splitShape_object]
    refine .node ⟨here, Value.isWritable_object_iff.mpr fun entry member => ?_⟩
      fun group inside p member => ?_
    · exact Value.isWritable_object_iff.mp writable entry (List.mem_filter.mp member).1
    · obtain ⟨part, listed, present⟩ := List.mem_filterMap.mp inside
      obtain ⟨r, child, rfl⟩ := List.mem_map.mp listed
      obtain ⟨item, among, spot, rfl⟩ := mem_splitChild_fst present member
      exact ih r child item among spot false (inherited k r here child)
        (isWritable_of_mem_items writable among)
  | other k v other =>
    intro location isPartial here _
    rw [splitShape_other b c k location isPartial other]
    exact .node ⟨here, rfl⟩ fun _ inside => by cases inside

theorem splitShape_complaints (own : ∀ k r, P k → r ∈ k.children → r.IsWritable) (k : Contract)
    (payload : Value) : ∀ location isPartial, P k →
      ∀ complaint ∈ (b.splitShape c k location isPartial payload).2,
        complaint.isWritable = true := by
  induction k, payload using payload_induction b c with
  | object k entries ih =>
    intro location isPartial here complaint member
    rw [splitShape_object] at member
    rcases List.mem_append.mp member with named | children
    · obtain ⟨name, -, complains⟩ := List.mem_filterMap.mp named
      unfold keyComplaint? at complains
      split at complains
      · cases complains
      · split at complains <;> exact Option.some.inj complains ▸ rfl
    · obtain ⟨all, listed, inside⟩ := List.mem_flatten.mp children
      obtain ⟨part, split, rfl⟩ := List.mem_map.mp listed
      obtain ⟨r, child, rfl⟩ := List.mem_map.mp split
      rcases mem_splitChild_snd (own k r here child) inside with short | ⟨item, among, spot, nested⟩
      · exact short
      · exact ih r child item among spot false (inherited k r here child) complaint nested
  | other k v other =>
    intro location isPartial _ complaint member
    rw [splitShape_other b c k location isPartial other] at member
    obtain rfl := List.mem_singleton.mp member
    rfl

end

theorem validateShape_faults {k : Contract} {payload : Value} {isPartial : Bool}
    (short : ∀ complaint ∈ (b.splitShape c k k.schema.name isPartial payload).2,
      complaint.isWritable = true) :
    Faults Failure.IsDeclared (b.validateShape c k payload isPartial) := by
  unfold validateShape
  split
  · exact faults_ok _
  · rename_i tree complaints _ split
    rw [split] at short
    rw [if_pos (List.all_eq_true.mpr short)]
    exact faults_error trivial

theorem validateRecords_faults {tree : Payload}
    (typed : ∀ p ∈ tree.records, ∀ f ∈ p.contract.schema.fields, f.WellTyped)
    (short : ∀ p ∈ tree.records, ∀ f ∈ p.contract.schema.fields, f.IsWritable)
    (writable : ∀ p ∈ tree.records, (Value.object p.data).isWritable = true) (isPartial : Bool) :
    Faults Failure.IsDeclared (validateRecords tree isPartial) := by
  have each (isPartial : Bool) (p : Payload) (member : p ∈ tree.records) :
      ∃ given, recordComplaints isPartial p = .ok given := by
    obtain ⟨given, checked⟩ := Schema.complaints_answers (typed p member) (short p member)
      (writable p member) isPartial p.contract.referBack.toList
    exact ⟨_, bind_eq_ok.mpr ⟨given, checked, rfl⟩⟩
  have complaints : ∃ given, treeComplaints tree isPartial = .ok given := by
    unfold treeComplaints
    split
    · exact ⟨[], rfl⟩
    · rename_i root rest records
      rw [records] at each
      obtain ⟨own, first⟩ := each isPartial root List.mem_cons_self
      obtain ⟨nested, others⟩ :=
        exists_mapM_eq_ok fun p listed => each false p (List.mem_cons_of_mem root listed)
      exact ⟨_, bind_eq_ok.mpr ⟨own, first, bind_eq_ok.mpr ⟨nested, others, rfl⟩⟩⟩
  obtain ⟨given, answered⟩ := complaints
  unfold validateRecords
  rw [answered]
  exact faults_ite (faults_error trivial) (faults_ok ())

end ContractBook

theorem Entries.isText_of_fieldComplaint? {data : Entries} {f : Field}
    (enumeration : f.isOf .enum = true)
    (accepted : Schema.fieldComplaint? data false [] f = .ok none) :
    (data.get f.name).isNull = true ∨ (data.get f.name).IsText := by
  rw [Schema.fieldComplaint?_whole] at accepted
  unfold get
  cases found : data.find? f.name with
  | none => exact .inl rfl
  | some v =>
    rw [found] at accepted
    exact Field.isText_of_enum (Field.kind_of_isOf enumeration) accepted

namespace Engine

variable {e : Engine} {s : Store} {k : Contract} {p : Payload} {parent : Option Record}

theorem fits_initialValues {c : Catalog} (parent : Option Record)
    (checked : p.contract.schema.Checked) (built : p.Built c) (accepted : p.Accepted) {f : Field}
    (listed : f ∈ p.contract.schema.fields) (enumeration : f.isOf .enum = true) :
    ((initialValues p parent).get f.name).isKey = true ∧
      ((initialValues p parent).get f.name).isWritable = true := by
  have given : Schema.fieldComplaint? (initialValues p parent) false [] f = .ok none := by
    refine fieldComplaint?_initialValues parent checked built accepted listed fun back => ?_
    obtain ⟨g, also, same, target⟩ := built.known.referBack f.name back
    obtain rfl := checked.eq_of_name also listed same
    have reference := Field.kind_of_check (checked.fields g also) target
    rw [Field.kind_of_isOf enumeration] at reference
    cases reference
  rcases Entries.isText_of_fieldComplaint? enumeration given with null | isText
  · rw [Value.eq_null_of_isNull null]
    exact ⟨rfl, rfl⟩
  · exact ⟨isText.isKey, isText.isWritable⟩

structure InUse (e : Engine) (s : Store) : Prop where
  links : s.Upholds e.catalog.Links
  numbered : s.Numbered

theorem Runs.inUse (runs : e.Runs s) : e.InUse s := ⟨runs.fits.2, runs.numbered⟩

theorem InUse.enter (use : e.InUse s) : e.InUse s.enter := ⟨use.links.enter, use.numbered.enter⟩

structure IsWritable (e : Engine) : Prop where
  fields : e.catalog.IsWritable
  children : e.contracts.IsWritable

theorem compose_faults (e : Engine) {schema : Key} (short : schema.isWritable = true)
    (target : Target) (placement : Placement) :
    Faults Failure.IsDeclared (e.compose schema target placement) :=
  faults_bind (Catalog.require_faults short) fun _ => faults_ok _

section

variable (built : e.Built) (fits : e.Fits) (typed : e.catalog.WellTyped)

include fits typed

theorem Composes.named (composes : e.Composes k) :
    ∃ name, Key.ofValue k.schema.name = .ok (.text name) ∧
      e.catalog.get? (.text name) = some k.schema ∧ k.schema.WellTyped := by
  obtain ⟨key, -, found, -⟩ := composes
  obtain ⟨-, own, called, stored⟩ := fits.catalog.of_get? found
  obtain ⟨other, -, listed⟩ := Keyed.mem_of_find? stored
  have wellTyped := typed other k.schema listed
  obtain ⟨name, named⟩ := wellTyped.name
  rw [named] at called
  obtain rfl : .text name = own := Except.ok.inj called
  exact ⟨name, by rw [named]; rfl, stored, wellTyped⟩

omit typed in
theorem Composes.child (composes : e.Composes k) {r : ChildRequirement} (listed : r ∈ k.children) :
    e.Composes (e.contracts.nested e.catalog k r) := by
  obtain ⟨key, s, -, found, same, -⟩ := composes.nested fits listed
  rw [same]
  exact composes_contractOf found _ _ _

omit typed in
theorem composes_of_validate {payload : Value} {tree : Payload} (composes : e.Composes k)
    (writable : payload.isWritable = true)
    (shaped : e.contracts.validateShape e.catalog k payload = .ok tree) :
    tree.All fun p => e.Composes p.contract ∧ (Value.object p.data).isWritable = true := by
  obtain ⟨rfl, -⟩ := ContractBook.validateShape_eq_ok.mp shaped
  exact ContractBook.splitShape_nodes (fun parent child composes listed =>
    composes.child fits listed) k payload _ false composes writable

variable (short : e.IsWritable)

include short

omit typed in
theorem validateShape_faults (composes : e.Composes k) (payload : Value) (isPartial : Bool) :
    Faults Failure.IsDeclared (e.contracts.validateShape e.catalog k payload isPartial) := by
  refine ContractBook.validateShape_faults (ContractBook.splitShape_complaints
    (fun parent child composes listed => composes.child fits listed)
    (fun parent child composes listed => ?_) k payload _ isPartial composes)
  obtain ⟨a, among, children, -⟩ := composes.exists_augmentation (List.ne_nil_of_mem listed)
  exact short.children a among child (children ▸ listed)

theorem validate_faults (composes : e.Composes k) {payload : Value}
    (writable : payload.isWritable = true) :
    Faults Failure.IsDeclared (e.contracts.validate e.catalog k payload) := by
  unfold ContractBook.validate
  cases shaped : e.contracts.validateShape e.catalog k payload with
  | error failure =>
    exact faults_error (validateShape_faults fits short composes payload false _ shaped)
  | ok tree =>
    change Faults _ (ContractBook.validateRecords tree >>= fun _ => .ok tree)
    have nodes := Payload.forall_levels tree (composes_of_validate fits composes writable shaped)
    have named (p : Payload) (member : p ∈ tree.records) :=
      (nodes p member).1.named fits typed
    refine faults_bind (ContractBook.validateRecords_faults (fun p member f listed => ?_)
      (fun p member f listed => ?_) (fun p member => (nodes p member).2) false)
      fun _ => faults_ok tree
    · obtain ⟨-, -, -, wellTyped⟩ := named p member
      exact wellTyped.fields f listed
    · obtain ⟨name, -, found, -⟩ := named p member
      obtain ⟨other, -, stored⟩ := Keyed.mem_of_find? found
      exact short.fields other _ stored f listed

include built

omit short in
theorem insertRecord_faults (composes : e.Composes p.contract) (fine : p.Built e.catalog)
    (accepted : p.Accepted) (placed : p.Placed parent) (use : e.InUse s) :
    Faults Failure.IsDeclared (exec (e.insertRecord p parent) s).1 := by
  obtain ⟨name, named, found, wellTyped⟩ := composes.named fits typed
  have checked := composes.checked fits
  let r : Record := ⟨.text name, .text "", initialValues p parent⟩
  have here : e.catalog.Links r.schema r.data :=
    (imparts_links built.catalog).created r.schema p parent fine accepted placed found
  obtain ⟨state, ⟨up, down, -, -, computed⟩, loaded⟩ := exists_hasState built use.links here
  have restricts := RecordState.restrictsEnums_of_compute found computed
  -- Only enumerations are restricted, and what they are given has been validated already.
  have fit (other : String) (restricted : (state.flagsOf other).subset.isSome = true) :
      (r.data.get other).isKey = true ∧ (r.data.get other).isWritable = true := by
    obtain ⟨f, declared, enumeration⟩ := restricts other restricted
    obtain rfl := Schema.name_of_field? declared
    exact fits_initialValues parent checked fine accepted (List.mem_of_find?_eq_some declared)
      enumeration
  unfold insertRecord
  refine faults_ofExcept_bind (by rw [named]; exact faults_ok _) fun schema given => ?_
  obtain rfl := Except.ok.inj (named.symm.trans given)
  refine faults_exec_bind (by rw [loaded]; exact faults_ok _) fun other t ran => ?_
  have numbered : t.Numbered := by
    have stays := e.stateOf_moves (R := Stays Store.Numbered) r s use.numbered
    rwa [ran] at stays
  rw [ran] at loaded
  obtain rfl := Except.ok.inj loaded
  refine faults_ofExcept_bind ?_ fun _ _ => ?_
  · refine RecordState.checkWrite_faults restricts checked wellTyped.fields found
      (fun name _ misfits => ?_) (fun name _ restricted => (fit name restricted).2) false
    exact Bool.false_ne_true (misfits.2.symm.trans (fit name misfits.1).1)
  · have required : e.catalog.require (.text name) = .ok p.contract.schema := by
      rw [Catalog.require, found]
    rw [Store.exec_insert required numbered]
    exact faults_ok _

omit short in
theorem insertRecord_safe (composes : e.Composes p.contract) (fine : p.Built e.catalog)
    (accepted : p.Accepted) : e.Insertable e.InUse Failure.IsDeclared p := by
  refine fun parent placed s use => ⟨⟨?_, ?_⟩, ?_, fun r answered => ?_⟩
  · exact insertRecord_upholds (imparts_links built.catalog) fine accepted placed s use.links
  · exact insertRecord_numbered p parent s use.numbered
  · exact insertRecord_faults built fits typed composes fine accepted placed use
  · exact insertRecord_referable p parent s r _ (Prod.ext answered rfl)

theorem create_faults {schema : Key} {payload : Value} (named : schema.isWritable = true)
    (proper : payload.isProper = true) (writable : payload.isWritable = true)
    (placement : Placement) (use : e.InUse s) :
    Faults Failure.IsDeclared (exec (e.create schema payload placement) s).1 := by
  unfold create
  refine faults_ofExcept_bind (e.compose_faults named .create placement) fun k composed => ?_
  obtain ⟨definition, found, same⟩ := compose_eq_ok.mp composed
  have composes : e.Composes k := same ▸ composes_contractOf found _ _ _
  have validated := validate_faults fits typed short composes writable
  refine faults_ofExcept_bind validated fun tree valid => ?_
  rw [Store.outcome_transaction]
  obtain ⟨under, all⟩ :=
    ContractBook.validate_ok fits.catalog (composes.known fits) proper valid
  obtain ⟨split, shaped, passed⟩ := bind_eq_ok.mp valid
  obtain ⟨_, -, passed⟩ := bind_eq_ok.mp passed
  obtain rfl : split = tree := Except.ok.inj passed
  have insertable : split.All (e.Insertable e.InUse Failure.IsDeclared) :=
    ((composes_of_validate fits composes writable shaped).and all).mono fun p fine =>
      insertRecord_safe built fits typed fine.1.1 fine.2.1 fine.2.2
  have root : split.Placed none := by
    rw [Payload.Placed, under, same]
    exact ContractBook.contractOf_alone e.contracts definition .create placement
  have inserted := (insertTree_safe split none insertable root s.enter use.enter).2.1
  refine faults_exec_bind inserted fun records t _ => ?_
  obtain ⟨cascade, ended⟩ := propagate_quiet built.quiet (records.map Event.created) t
  exact faults_exec_bind (by rw [ended]; exact faults_ok _) fun _ _ _ => faults_ok _

end

end Engine

/-- A state lets a write through to its values, but one of them is for a restricted field and can be
in no set. -/
def RecordState.StumblesOn (state : RecordState) (r : Record) (updates : Entries) : Prop :=
  (∀ name ∈ r.changedNames updates, name ∉ state.immutableFields) ∧
    ∃ name ∈ r.changedNames updates, state.Misfits name (updates.get name)

namespace Engine

variable {e : Engine} {s t : Store} {definition : Schema} {current : Record}
  {changes own : Entries} {state : RecordState}

def StumblesOn (e : Engine) (s : Store) (schema id : Key) (updates : Value) : Prop :=
  ∃ own stored state, e.readUpdates schema updates = .ok own ∧ s.row? schema id = some stored ∧
    e.HasState s ⟨schema, id, stored⟩ state ∧
      state.StumblesOn ⟨schema, id, stored⟩ (Record.changes ⟨schema, id, stored⟩ own)

theorem readUpdates_faults (fits : e.Fits) (short : e.IsWritable) {schema : Key}
    (named : schema.isWritable = true) (updates : Value) :
    Faults Failure.IsDeclared (e.readUpdates schema updates) := by
  unfold readUpdates
  cases composed : e.compose schema .edit .alone with
  | error failure => exact faults_error (e.compose_faults named .edit .alone failure composed)
  | ok k =>
    obtain ⟨definition, found, rfl⟩ := compose_eq_ok.mp composed
    have composes := composes_contractOf found .edit .alone .null
    change Faults _ (e.contracts.validateShape e.catalog _ updates true >>= _)
    refine faults_bind (validateShape_faults fits short composes updates true) fun tree => ?_
    exact faults_ite (faults_error trivial) (faults_ok _)

theorem isWritable_of_readUpdates {schema : Key} {updates : Value}
    (writable : updates.isWritable = true) (read : e.readUpdates schema updates = .ok own) :
    (Value.object own).isWritable = true := by
  rcases sublist_of_readUpdates read with rfl | ⟨entries, rfl, within⟩
  · rfl
  · exact Value.isWritable_object_iff.mpr fun entry member =>
      Value.isWritable_object_iff.mp writable entry (within.subset member)

theorem isWritable_changes (given : (Value.object own).isWritable = true) :
    (Value.object (current.changes own)).isWritable = true :=
  Value.isWritable_object_iff.mpr fun entry member =>
    Value.isWritable_object_iff.mp given entry (List.mem_filter.mp member).1

theorem overwrite_faults (stored : t.row? current.schema current.id = some current.data)
    (loaded : (exec (e.stateOf current) t).1 = .ok state)
    (checks : Faults Failure.IsDeclared (state.checkWrite e.catalog current changes))
    (typed : ∀ f ∈ definition.fields, f.WellTyped) (short : ∀ f ∈ definition.fields, f.IsWritable)
    (readable : (Value.object current.data).isWritable = true)
    (given : (Value.object changes).isWritable = true) :
    Faults Failure.IsDeclared (exec (e.overwrite definition current changes) t).1 := by
  unfold overwrite
  refine faults_exec_bind (by rw [loaded]; exact faults_ok _) fun other looked ran => ?_
  have same : Store.SameRows t looked := by
    have moved := e.stateOf_moves (R := Store.SameRows) current t
    rwa [ran] at moved
  rw [ran] at loaded
  obtain rfl := Except.ok.inj loaded
  refine faults_ofExcept_bind checks fun _ _ => ?_
  have whole := Value.isWritable_merge readable given
  refine faults_ofExcept_bind (Schema.validate_faults typed short whole _ _) fun _ _ => ?_
  rw [Store.exec_write, Store.row?_of_sameRows same, stored]
  exact faults_ok _

theorem overwrite_fails (definition : Schema) {failure : Failure}
    (loaded : (exec (e.stateOf current) t).1 = .ok state)
    (failed : state.checkWrite e.catalog current changes = .error failure) :
    (exec (e.overwrite definition current changes) t).1 = .error failure := by
  unfold overwrite
  rw [exec_bind]
  cases ran : exec (e.stateOf current) t with
  | mk outcome looked =>
    rw [ran] at loaded
    obtain rfl : outcome = .ok state := loaded
    simp only [exec_bind, exec_ofExcept, failed]

section

variable (quiet : e.rules.reactions = [])
  (stored : t.row? current.schema current.id = some current.data)
  (loaded : (exec (e.stateOf current) t).1 = .ok state)
  (known : e.catalog.get? current.schema = some definition) (checked : definition.Checked)
  (restricts : state.RestrictsEnums definition) (typed : ∀ f ∈ definition.fields, f.WellTyped)
  (given : (Value.object own).isWritable = true)

include loaded known checked restricts typed given

include quiet stored in
theorem revise_faults (short : ∀ f ∈ definition.fields, f.IsWritable)
    (readable : (Value.object current.data).isWritable = true)
    (firm : ¬state.StumblesOn current (current.changes own)) :
    Faults Failure.IsDeclared (exec (e.revise definition own current) t).1 := by
  -- Where something is locked, the values are not looked at.
  have checks : Faults Failure.IsDeclared
      (state.checkWrite e.catalog current (current.changes own)) := by
    by_cases unlocked :
        ∀ name ∈ current.changedNames (current.changes own), name ∉ state.immutableFields
    · exact RecordState.checkWrite_faults restricts checked typed known
        (fun name changed unfit => firm ⟨unlocked, name, changed, unfit⟩)
        (fun name _ _ => Value.isWritable_get (isWritable_changes given) name) true
    · exact RecordState.checkWrite_of_locked unlocked
  by_cases nothing : (current.changes own).isEmpty = true
  · rw [revise_of_isEmpty nothing]
    exact faults_ok _
  · rw [revise_of_not_isEmpty nothing]
    refine faults_exec_bind (overwrite_faults stored loaded checks typed short readable
      (isWritable_changes given)) fun written ended _ => ?_
    obtain ⟨cascade, propagated⟩ :=
      propagate_quiet quiet [.modifiedOf written (current.changes own).names] ended
    exact faults_exec_bind (by rw [propagated]; exact faults_ok _) fun _ _ _ => faults_ok _

theorem revise_of_stumblesOn (stumbles : state.StumblesOn current (current.changes own)) :
    ∃ v, (exec (e.revise definition own current) t).1 = .error (.notAKey v) := by
  obtain ⟨v, failed⟩ :=
    RecordState.checkWrite_of_misfits restricts checked typed known stumbles.1 stumbles.2
      fun name _ _ => Value.isWritable_get (isWritable_changes given) name
  have something : ¬(current.changes own).isEmpty = true := by
    intro nothing
    obtain ⟨-, name, changed, -⟩ := stumbles
    rw [List.isEmpty_iff.mp nothing] at changed
    cases changed
  have fails := overwrite_fails definition loaded failed
  refine ⟨v, ?_⟩
  rw [revise_of_not_isEmpty something, exec_bind]
  cases ran : exec (e.overwrite definition current (current.changes own)) t with
  | mk outcome ended =>
    rw [ran] at fails
    obtain rfl : outcome = .error (.notAKey v) := fails
    rfl

end

theorem outcome_update {schema id : Key} {updates : Value} {stored : Entries}
    (known : e.catalog.get? schema = some definition)
    (read : e.readUpdates schema updates = .ok own) (present : s.row? schema id = some stored) :
    ∃ t, Store.SameRows s t ∧ (exec (e.update schema id updates) s).1 =
      (exec (e.revise definition own ⟨schema, id, stored⟩) t).1 := by
  refine ⟨{ s.enter with trace := s.enter.trace ++ [(Access.get, schema)] },
    Store.sameRows_enter s, ?_⟩
  have required : e.catalog.require schema = .ok definition := by rw [Catalog.require, known]
  have found := Store.exec_require schema id s.enter
  rw [Store.row?_of_sameRows (Store.sameRows_enter s), present] at found
  rw [update_eq, required, read]
  change (exec (Store.transaction _) s).1 = _
  rw [Store.outcome_transaction, exec_bind, found]

section

variable (runs : e.Runs s) (typed : e.catalog.WellTyped) {schema id : Key} {updates : Value}
  (writable : updates.isWritable = true)

include runs typed

theorem Runs.of_stored {stored : Entries} (present : s.row? schema id = some stored) :
    ∃ definition state, e.catalog.get? schema = some definition ∧ definition.Checked ∧
      (∀ f ∈ definition.fields, f.WellTyped) ∧
      (e.catalog.IsWritable → ∀ f ∈ definition.fields, f.IsWritable) ∧
      e.HasState s ⟨schema, id, stored⟩ state ∧
      (exec (e.stateOf ⟨schema, id, stored⟩) s).1 = .ok state ∧
      state.RestrictsEnums definition := by
  obtain ⟨built, links⟩ := runs.fits
  let current : Record := ⟨schema, id, stored⟩
  have here : e.catalog.Links current.schema current.data := links.row? present
  obtain ⟨state, has, loaded⟩ := exists_hasState built links here
  obtain ⟨definition, known, -⟩ := here
  obtain ⟨checked, -⟩ := built.catalog.of_get? known
  obtain ⟨other, -, listed⟩ := Keyed.mem_of_find? known
  have restricts : state.RestrictsEnums definition := by
    obtain ⟨up, down, -, -, computed⟩ := has
    exact RecordState.restrictsEnums_of_compute known computed
  exact ⟨definition, state, known, checked, (typed other definition listed).fields,
    fun short => short other definition listed, has, loaded, restricts⟩

include writable

theorem update_faults (short : e.IsWritable) (named : schema.isWritable = true)
    (numbered : id.isWritable = true)
    (readable : ∀ stored, s.row? schema id = some stored → (Value.object stored).isWritable = true)
    (firm : ¬e.StumblesOn s schema id updates) :
    Faults Failure.IsDeclared (exec (e.update schema id updates) s).1 := by
  cases known : e.catalog.get? schema with
  | none =>
    have required : e.catalog.require schema =
        .error (.naming [schema] (.unknownSchema schema.toValue)) := by
      rw [Catalog.require, known]
    rw [update_eq, required]
    exact faults_error (Failure.isDeclared_naming trivial (by simp [named]))
  | some definition =>
    cases read : e.readUpdates schema updates with
    | error failure =>
      rw [update_eq, Catalog.require, known, read]
      exact faults_error (readUpdates_faults runs.registered.fits short named updates failure read)
    | ok own =>
      cases present : s.row? schema id with
      | none =>
        have absent := Store.exec_require schema id s.enter
        rw [Store.row?_of_sameRows (Store.sameRows_enter s), present] at absent
        rw [update_eq, Catalog.require, known, read]
        change Faults _ (exec (Store.transaction _) s).1
        rw [Store.outcome_transaction, exec_bind, absent]
        exact faults_error (Failure.isDeclared_naming trivial (by simp [named, numbered]))
      | some stored =>
        obtain ⟨other, state, found, checked, fields, small, has, loaded, restricts⟩ :=
          runs.of_stored typed present
        obtain rfl := Option.some.inj (known.symm.trans found)
        obtain ⟨t, same, outcome⟩ := outcome_update known read present
        rw [← e.stateOf_of_sameRows _ same] at loaded
        have there := (Store.row?_of_sameRows same schema id).trans present
        rw [outcome]
        exact revise_faults runs.fits.1.quiet there loaded known checked restricts fields
          (isWritable_of_readUpdates writable read) (small short.fields) (readable stored present)
          fun stumbles => firm ⟨own, stored, state, read, present, has, stumbles⟩

theorem update_of_stumblesOn (stumbles : e.StumblesOn s schema id updates) :
    ∃ v, (exec (e.update schema id updates) s).1 = .error (.notAKey v) := by
  obtain ⟨own, stored, state, read, present, also, stumbles⟩ := stumbles
  obtain ⟨definition, other, known, checked, fields, -, has, loaded, restricts⟩ :=
    runs.of_stored typed present
  obtain rfl := has.unique also
  obtain ⟨t, same, outcome⟩ := outcome_update known read present
  rw [← e.stateOf_of_sameRows _ same] at loaded
  rw [outcome]
  exact revise_of_stumblesOn loaded known checked restricts fields
    (isWritable_of_readUpdates writable read) stumbles

end

/-- Tasks that are open or done, of which only open ones are allowed. -/
def openTasks : Engine where
  catalog :=
    let status : Field :=
      { name := "status", kind := .known .enum, enumValues := [.text "open", .text "done"] }
    { schemas := [(.text "Task", { name := .text "Task", fields := [status] })] }
  rules :=
    { stateRules := [{ schema := .text "Task"
                       effect := { onFields := [.text "status"], subset := some [.text "open"] } }]
      stateReaches := [(.text "Task", {})] }

def blankTask : Store where
  tables := [(.text "Task", [(Store.generatedId "Task" 0, [])])]
  issued := 1
  trace := [(.insert, .text "Task")]

theorem openTasks_runs : openTasks.Runs blankTask := by
  let values : List Value := [.text "open", .text "done"]
  let status : Field := { name := "status", kind := .known .enum, enumValues := values }
  let task : Schema := { name := .text "Task", fields := [status] }
  let given : List Value := [.object [("name", .text "status"), ("kind", .text "enum"),
    ("enum_values", .list values)]]
  have fields : given.mapM Field.ofValue = .ok [status] := by
    have checked : status.check = .ok status := by
      simp [status, values, Field.check, Field.isOf, GivenKind.isKind, Field.target?,
        Field.checkBounds, Value.isTrue, Value.isNull]
    change (do return [← status.check]) = _
    rw [checked]
    rfl
  have read : Schema.ofValue (.object [("name", .text "Task"), ("fields", .list given)]) =
      .ok task := by
    change (given.mapM Field.ofValue >>= fun fields =>
      Schema.check { name := .text "Task", fields }) = _
    rw [fields]
    rfl
  let onlyOpen : StateRule :=
    { schema := .text "Task"
      effect := { onFields := [.text "status"], subset := some [.text "open"] } }
  have ruled : exec (addStateRule (.object [("schema", .text "Task"),
      ("on_fields", .list [.text "status"]), ("enum_subset", .list [.text "open"])]))
        { openTasks with rules := {} } = (.ok onlyOpen, openTasks) := by
    with_unfolding_all rfl
  let empty : Record := ⟨.text "Task", Store.generatedId "Task" 0, []⟩
  let contract : Contract :=
    { schema := task, target := .create, placement := .alone, ownFields := ["status"] }
  have composed : openTasks.compose (.text "Task") .create .alone = .ok contract := rfl
  have valid : openTasks.contracts.validate openTasks.catalog contract (.object []) =
      .ok (.node contract (.text "Task") [] []) := by
    with_unfolding_all rfl
  have inserted : exec (openTasks.insertTree (.node contract (.text "Task") [] []) none)
      ({} : Store).enter = (.ok [empty], { blankTask with scope := some ⟨0, []⟩ }) := rfl
  have before : openTasks.Runs {} := ((Runs.start {}).schema_of_read read rfl).stateRule ruled
  exact before.create_of_inserted rfl composed valid inserted

theorem openTasks_wellTyped : openTasks.catalog.WellTyped := by
  intro key schema listed
  obtain ⟨-, rfl⟩ := Prod.mk.inj (List.mem_singleton.mp listed)
  refine ⟨⟨"Task", rfl⟩, fun f member => ?_⟩
  obtain rfl := List.mem_singleton.mp member
  constructor
  case kind => exact ⟨.enum, rfl⟩
  case enumValues =>
    intro v among
    rcases List.mem_pair.mp among with rfl | rfl
    · exact ⟨"open", rfl⟩
    · exact ⟨"done", rfl⟩
  case min => exact .inl rfl
  case max => exact .inl rfl

theorem openTasks_isWritable : openTasks.IsWritable where
  fields := by
    intro key schema listed f member
    obtain ⟨-, rfl⟩ := Prod.mk.inj (List.mem_singleton.mp listed)
    obtain rfl := List.mem_singleton.mp member
    exact ⟨rfl, rfl, rfl⟩
  children := fun _ none => by cases none

theorem openTasks_stumblesOn : openTasks.StumblesOn blankTask (.text "Task")
    (Store.generatedId "Task" 0) (.object [("status", .list [.text "open"])]) := by
  let state : RecordState := ⟨.text "Task", [("status", { subset := some [.text "open"] })]⟩
  refine ⟨[("status", .list [.text "open"])], [], state, ?_, rfl, ⟨[], [], rfl, rfl, rfl⟩, ?_, ?_⟩
  · with_unfolding_all rfl
  · decide
  · exact ⟨"status", by decide, rfl, rfl⟩

/-- In an engine with well-typed schemas and without reactions, a creation succeeds or fails with an
error that the engine declares, whatever the payload says; and so does an update, unless the state
of the record stumbles on it: then it fails since a value can be in no set. All numbers must be
short enough to be written. -/
theorem writes_fail_declared (runs : e.Runs s) (typed : e.catalog.WellTyped)
    (short : e.IsWritable) :
    (∀ schema payload placement, schema.isWritable = true → payload.isProper = true →
      payload.isWritable = true →
        Faults Failure.IsDeclared (exec (e.create schema payload placement) s).1) ∧
    ∀ schema id updates, schema.isWritable = true → id.isWritable = true →
      updates.isWritable = true →
      (∀ stored, s.row? schema id = some stored → (Value.object stored).isWritable = true) →
        (¬e.StumblesOn s schema id updates →
          Faults Failure.IsDeclared (exec (e.update schema id updates) s).1) ∧
        (e.StumblesOn s schema id updates →
          ∃ v, (exec (e.update schema id updates) s).1 = .error (.notAKey v)) := by
  constructor
  · intro schema payload placement named proper writable
    exact create_faults runs.fits.1 runs.registered.fits typed short named proper writable placement
      runs.inUse
  · intro schema id updates named numbered writable readable
    exact ⟨update_faults runs typed writable short named numbered readable,
      update_of_stumblesOn runs typed writable⟩

theorem writes_fail_declared_tasks :
    let update (v : Value) := openTasks.update (.text "Task") (Store.generatedId "Task" 0)
      (.object [("status", v)])
    openTasks.Runs blankTask ∧ openTasks.catalog.WellTyped ∧ openTasks.IsWritable ∧
      Faults Failure.IsDeclared (exec (openTasks.create (.text "Task")
        (.object [("status", .list [.text "open"])]) .alone) blankTask).1 ∧
      Faults Failure.IsDeclared (exec (update (.text "done")) blankTask).1 ∧
      ∃ v, (exec (update (.list [.text "open"])) blankTask).1 = .error (.notAKey v) := by
  intro update
  obtain ⟨creations, updates⟩ :=
    writes_fail_declared openTasks_runs openTasks_wellTyped openTasks_isWritable
  have blank (stored : Entries) (present : blankTask.row? (.text "Task")
      (Store.generatedId "Task" 0) = some stored) : (Value.object stored).isWritable = true := by
    obtain rfl : [] = stored := Option.some.inj present
    rfl
  refine ⟨openTasks_runs, openTasks_wellTyped, openTasks_isWritable,
    creations _ _ _ rfl rfl rfl, (updates _ _ _ rfl rfl rfl blank).1 ?_,
    (updates _ _ _ rfl rfl rfl blank).2 openTasks_stumblesOn⟩
  rintro ⟨own, stored, state, read, present, -, -, name, changed, -, unfit⟩
  have given : openTasks.readUpdates (.text "Task") (.object [("status", .text "done")]) =
      .ok [("status", .text "done")] := by
    with_unfolding_all rfl
  obtain rfl := Except.ok.inj (given.symm.trans read)
  obtain rfl : [] = stored := Option.some.inj present
  obtain rfl := List.mem_singleton.mp changed
  cases unfit

/-- So the update by a list neither succeeds nor is refused. -/
theorem list_is_not_refused :
    openTasks.Runs blankTask ∧ openTasks.catalog.WellTyped ∧
      ∃ failure, (exec (openTasks.update (.text "Task") (Store.generatedId "Task" 0)
        (.object [("status", .list [.text "open"])])) blankTask).1 = .error failure ∧
          ¬failure.IsDeclared := by
  obtain ⟨v, failed⟩ :=
    update_of_stumblesOn openTasks_runs openTasks_wellTyped rfl openTasks_stumblesOn
  exact ⟨openTasks_runs, openTasks_wellTyped, .notAKey v, failed, fun declared => declared⟩

end Engine

end RecordRules
