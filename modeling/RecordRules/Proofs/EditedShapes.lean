import RecordRules.Proofs.QuietRuns
import RecordRules.Proofs.ValueEquality

/-!
The shape of updates. The data of an update pass for their shape, with no children in them, exactly
when they name own fields of the contract only, and aliases of children with nothing under them;
then they come to the own fields.
-/
namespace RecordRules

theorem Entries.get_of_mem {entries : Entries} (distinct : entries.names.Nodup) {name : String}
    {v : Value} (inside : (name, v) ∈ entries) : entries.get name = v := by
  rw [get, (Keyed.find?_eq_some_iff distinct name v).mpr inside]
  rfl

namespace Contract

def Selects (k : Contract) (entries : Entries) : Prop :=
  ∀ name v, (name, v) ∈ entries →
    name ∈ k.ownFields ∨ Value.isIn (.text name) k.aliases = true ∧ v.isNull = true

def ownEntries (k : Contract) (entries : Entries) : Entries :=
  entries.filter fun entry => k.ownFields.contains entry.1

/-- Own fields are declared ones, and the aliases of children are not. -/
structure Apart (k : Contract) : Prop where
  alone : k.referBack = none
  own : ∀ name ∈ k.ownFields, k.schema.declares name = true
  aliases : ∀ r ∈ k.children, k.schema.declaresNamed r.key = false

variable {k : Contract} {entries : Entries}

theorem exists_of_alias {name : String} (isAlias : Value.isIn (.text name) k.aliases = true) :
    ∃ r ∈ k.children, r.key = .text name := by
  obtain ⟨key, listed, same⟩ := Value.isIn_iff.mp isAlias
  obtain ⟨r, child, rfl⟩ := List.mem_map.mp listed
  exact ⟨r, child, Value.text_same_iff.mp same⟩

theorem Apart.not_declares_alias (apart : k.Apart) {name : String}
    (isAlias : Value.isIn (.text name) k.aliases = true) : k.schema.declares name = false := by
  obtain ⟨r, child, key⟩ := exists_of_alias isAlias
  have undeclared := apart.aliases r child
  rwa [key] at undeclared

theorem Apart.selects_iff (apart : k.Apart) (distinct : entries.names.Nodup) :
    k.Selects entries ↔ (∀ name ∈ entries.names, k.allows name = true) ∧
      ∀ r ∈ k.children, (ContractBook.given r.key entries).isNull = true := by
  constructor
  · intro selects
    constructor
    · intro name named
      obtain ⟨⟨_, v⟩, inside, rfl⟩ := List.mem_map.mp named
      unfold allows
      rcases selects _ v inside with own | ⟨isAlias, -⟩
      · simp [own]
      · simp [isAlias]
    · intro r child
      unfold ContractBook.given
      split
      · rename_i name key
        unfold Entries.get
        cases found : entries.find? name with
        | none => rfl
        | some v =>
          have inside := (Keyed.find?_eq_some_iff distinct name v).mp found
          rcases selects name v inside with own | ⟨-, null⟩
          · have undeclared := apart.aliases r child
            rw [key, Schema.declaresNamed, apart.own name own] at undeclared
            cases undeclared
          · exact null
      · rfl
  · rintro ⟨allowed, empty⟩ name v inside
    have allows := allowed name (List.mem_map_of_mem inside)
    unfold Contract.allows at allows
    rw [apart.alone] at allows
    by_cases own : name ∈ k.ownFields
    · exact .inl own
    · right
      have isAlias : Value.isIn (.text name) k.aliases = true := by
        simpa [own] using allows
      obtain ⟨r, child, key⟩ := exists_of_alias isAlias
      have null := empty r child
      rw [key, ContractBook.given, Entries.get_of_mem distinct inside] at null
      exact ⟨isAlias, null⟩

/-- Of what a contract selects, the declared entries are the own ones. -/
theorem Apart.declared_eq_ownEntries (apart : k.Apart) (selects : k.Selects entries) :
    (entries.filter fun entry => k.schema.declares entry.1) = k.ownEntries entries := by
  apply List.filter_congr
  intro entry inside
  rcases selects entry.1 entry.2 inside with own | ⟨isAlias, -⟩
  · rw [apart.own _ own, List.contains_iff_mem.mpr own]
  · have undeclared := apart.not_declares_alias isAlias
    rw [undeclared, eq_comm, Bool.eq_false_iff, Ne, List.contains_iff_mem]
    intro own
    rw [apart.own _ own] at undeclared
    cases undeclared

end Contract

namespace ContractBook

variable {b : ContractBook} {c : Catalog} {k : Contract}

theorem childItems_complains {r : ChildRequirement} {place : String} {v : Value}
    (none : (childItems r place v).1 = none) : (childItems r place v).2 ≠ [] := by
  unfold childItems at none ⊢
  split at none
  · cases shape : r.cardinality with
    | one => exact List.cons_ne_nil _ _
    | many =>
      rw [shape] at none
      cases none
  · cases shape : r.cardinality with
    | one =>
      rw [shape] at none
      cases none
    | many => exact List.cons_ne_nil _ _

theorem parts_empty_iff {children : List ChildRequirement}
    {part : ChildRequirement → Option (String × List Payload) × List ShapeComplaint}
    {Empty : ChildRequirement → Prop}
    (each : ∀ r, (part r).1 = none ∧ (part r).2 = [] ↔ Empty r) :
    (children.map part).filterMap Prod.fst = [] ∧ ((children.map part).map Prod.snd).flatten = [] ↔
      ∀ r ∈ children, Empty r := by
  rw [List.filterMap_eq_nil_iff, List.flatten_eq_nil_iff]
  simp only [List.forall_mem_map, ← each]
  exact ⟨fun all r child => ⟨all.1 r child, all.2 r child⟩,
    fun all => ⟨fun r child => (all r child).1, fun r child => (all r child).2⟩⟩

theorem splitShape_root (b : ContractBook) (c : Catalog) (k : Contract) (location : Value)
    (entries : Entries) :
    (b.splitShape c k location true (.object entries)).1.data =
      (entries.filter fun entry => k.schema.declares entry.1) ∧
    ((b.splitShape c k location true (.object entries)).1.children = [] ∧
      (b.splitShape c k location true (.object entries)).2 = [] ↔
        (∀ name ∈ entries.names, k.allows name = true) ∧
          ∀ r ∈ k.children, (given r.key entries).isNull = true) := by
  rw [splitShape.eq_def]
  dsimp only
  refine ⟨rfl, ?_⟩
  have names : ((Keyed.names entries).filterMap (keyComplaint? k location.embedded)) = [] ↔
      ∀ name ∈ entries.names, k.allows name = true := by
    rw [List.filterMap_eq_nil_iff]
    refine forall₂_congr fun name _ => ?_
    unfold keyComplaint?
    cases k.allows name with
    | true => simp
    | false => cases k.schema.declares name <;> simp
  change List.filterMap Prod.fst _ = [] ∧ _ ++ _ = [] ↔ _
  rw [List.append_eq_nil_iff, and_left_comm, names]
  refine and_congr_right fun _ => parts_empty_iff fun r => ?_
  by_cases null : (given r.key entries).isNull = true
  · simp [null]
  · rw [if_neg null]
    split
    · rename_i complaints taken
      have complains := childItems_complains (congrArg Prod.fst taken)
      rw [taken] at complains
      exact ⟨fun nothing => (complains nothing.2).elim, fun empty => (null empty).elim⟩
    · constructor
      · rintro ⟨nothing, -⟩
        cases nothing
      · exact fun empty => (null empty).elim

theorem validateShape_eq_ok {payload : Value} {isPartial : Bool} {tree : Payload} :
    b.validateShape c k payload isPartial = .ok tree ↔
      (b.splitShape c k k.schema.name isPartial payload).1 = tree ∧
        (b.splitShape c k k.schema.name isPartial payload).2 = [] := by
  unfold validateShape
  split
  · rename_i whole split
    rw [split]
    simp
  · rename_i whole complaints something split
    rw [split]
    simpa using fun _ => something

end ContractBook

namespace Engine

variable {e : Engine} {schema : Key} {s : Schema} {entries data : Entries}

theorem mem_of_ruleFor? {b : ContractBook} {key : Key} {target : Target} {placement : Placement}
    {a : Augmentation} (rule : b.ruleFor? key target placement = some a) :
    a ∈ b.augmentations ∧ a.schema.names key = true ∧ a.target = target := by
  have applies := List.find?_some rule
  simp only [Bool.and_eq_true, beq_iff_eq] at applies
  exact ⟨List.mem_of_find?_eq_some rule, applies.1.1, applies.1.2⟩

theorem mem_of_effective? {b : ContractBook} {name : Value} {target : Target}
    {placement : Placement} {a : Augmentation}
    (given : b.effective? name target placement = some a) :
    a ∈ b.augmentations ∧ ∃ key, Key.ofValue name = .ok key ∧ a.schema.names key = true := by
  obtain ⟨key, named, ruled⟩ := Option.bind_eq_some_iff.mp given
  have under : Key.ofValue name = .ok key := by rw [Key.ofValue, named]
  have rule : ∃ placement, b.ruleFor? key target placement = some a := by
    split at ruled
    · rename_i other found
      obtain rfl := Option.some.inj ruled
      exact ⟨_, found⟩
    · split at ruled
      · exact ⟨_, ruled⟩
      · cases ruled
  obtain ⟨_, rule⟩ := rule
  obtain ⟨listed, names, -⟩ := mem_of_ruleFor? rule
  exact ⟨listed, key, under, names⟩

def editing (e : Engine) (s : Schema) : Contract := e.contracts.contractOf s .edit .alone

theorem editing_apart (built : e.Built) (found : e.catalog.get? schema = some s) :
    (e.editing s).Apart := by
  have declared (names : List String) (within : ∀ name ∈ names, name ∈ s.fieldNames)
      (name : String) (own : name ∈ names) : s.declares name = true := by
    obtain ⟨f, listed, same⟩ := List.mem_map.mp (within name own)
    exact Schema.declares_iff.mpr ⟨f, listed, same⟩
  have alone := ContractBook.contractOf_alone e.contracts s .edit .alone
  unfold editing at *
  unfold ContractBook.contractOf at alone ⊢
  cases given : e.contracts.effective? s.name .edit .alone with
  | none =>
    rw [given] at alone
    exact ⟨alone, declared _ fun _ own => own, fun r child => by cases child⟩
  | some a =>
    rw [given] at alone
    refine ⟨alone, declared _ fun _ own => List.mem_of_mem_filter own, ?_⟩
    intro r child
    obtain ⟨listed, name, named, names⟩ := mem_of_effective? given
    obtain ⟨key, t, under, present, apart⟩ := built.aliases a listed
    obtain ⟨-, other, called, registered⟩ := built.catalog.of_get? found
    have same : key == name := by
      rwa [Value.names_of_key under] at names
    obtain rfl : name = other := Except.ok.inj (named.symm.trans called)
    rw [Catalog.get?, Keyed.find?_congr same] at present
    obtain rfl : t = s := Option.some.inj (present.symm.trans registered)
    exact apart r child

theorem readUpdates_eq_ok (built : e.Built) (found : e.catalog.get? schema = some s)
    (distinct : entries.names.Nodup) :
    e.readUpdates schema (.object entries) = .ok data ↔
      (e.editing s).Selects entries ∧ data = (e.editing s).ownEntries entries := by
  have apart := editing_apart built found
  have composed : e.compose schema .edit = .ok (e.editing s) := by
    unfold compose ContractBook.compose Catalog.require
    rw [found]
    rfl
  obtain ⟨own, empty⟩ := ContractBook.splitShape_root e.contracts e.catalog (e.editing s)
    (e.editing s).schema.name entries
  rw [← apart.selects_iff distinct] at empty
  unfold readUpdates
  rw [composed]
  constructor
  · intro read
    obtain ⟨_, same, read⟩ := bind_eq_ok.mp read
    obtain rfl := Except.ok.inj same
    obtain ⟨tree, shaped, read⟩ := bind_eq_ok.mp read
    obtain ⟨rfl, complaints⟩ := ContractBook.validateShape_eq_ok.mp shaped
    split at read
    · cases read
    · rename_i childless
      have selects := empty.mp ⟨by simpa using childless, complaints⟩
      refine ⟨selects, ?_⟩
      rw [← apart.declared_eq_ownEntries selects, ← own]
      exact (Except.ok.inj read).symm
  · rintro ⟨selects, rfl⟩
    obtain ⟨childless, complaints⟩ := empty.mpr selects
    have shaped := ContractBook.validateShape_eq_ok.mpr ⟨rfl, complaints⟩
    rw [← apart.declared_eq_ownEntries selects, ← own]
    simp only [shaped, childless, bind, Except.bind, List.isEmpty_nil, Bool.not_true,
      Bool.false_eq_true, ↓reduceIte]
    rfl

end Engine

end RecordRules
