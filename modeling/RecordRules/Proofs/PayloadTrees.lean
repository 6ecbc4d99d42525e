import RecordRules.Contract.Payload
import RecordRules.Proofs.SchemaRegistration

/-!
Payload trees. Splitting a payload gives a tree whose contracts are those of registered schemas and
whose data name declared fields only, each once. Once the tree is validated, the data of all its
records satisfy their schemas, up to the fields that refer back to a parent.
-/
namespace RecordRules

namespace Value

def isProper : Value → Bool
  | list items => properItems items
  | object entries => decide (Keyed.names entries).Nodup && properEntries entries
  | _ => true
where
  properItems : List Value → Bool
    | [] => true
    | v :: rest => isProper v && properItems rest
  properEntries : List (String × Value) → Bool
    | [] => true
    | (_, v) :: rest => isProper v && properEntries rest

theorem isProper_of_mem {items : List Value} (proper : (list items).isProper = true) {v : Value}
    (member : v ∈ items) : v.isProper = true := by
  rw [isProper] at proper
  induction items with
  | nil => cases member
  | cons first rest ih =>
    rw [isProper.properItems, Bool.and_eq_true] at proper
    rcases List.mem_cons.mp member with rfl | later
    · exact proper.1
    · exact ih proper.2 later

theorem nodup_of_isProper {entries : Entries} (proper : (object entries).isProper = true) :
    entries.names.Nodup := by
  rw [isProper, Bool.and_eq_true] at proper
  exact of_decide_eq_true proper.1

theorem isProper_get {entries : Entries} (proper : (object entries).isProper = true)
    (name : String) : (entries.get name).isProper = true := by
  rw [isProper, Bool.and_eq_true] at proper
  obtain ⟨-, each⟩ := proper
  induction entries with
  | nil => rfl
  | cons entry rest ih =>
    obtain ⟨key, v⟩ := entry
    rw [isProper.properEntries, Bool.and_eq_true] at each
    rw [Entries.get, Keyed.find?_cons]
    split
    · exact each.1
    · exact ih each.2

end Value

namespace Payload

variable {P Q : Payload → Prop}

inductive All (P : Payload → Prop) : Payload → Prop where
  | node {contract : Contract} {location : Value} {data : Entries}
      {children : List (String × List Payload)} (here : P (.node contract location data children))
      (below : ∀ group ∈ children, ∀ p ∈ group.2, All P p) :
      All P (.node contract location data children)

theorem All.mono {p : Payload} (all : p.All P) (weaker : ∀ q, P q → Q q) : p.All Q := by
  induction all with
  | node here below ih =>
    exact .node (weaker _ here) fun group member q inside => ih group member q inside

theorem All.and {p : Payload} (first : p.All P) (second : p.All Q) : p.All fun q => P q ∧ Q q := by
  induction first with
  | node here below ih =>
    cases second with
    | node also under =>
      exact .node ⟨here, also⟩ fun group member q inside =>
        ih group member q inside (under group member q inside)

theorem mem_zipLevels {α : Type} {x : α} {xs ys : List (List α)} :
    x ∈ (zipLevels xs ys).flatten ↔ x ∈ xs.flatten ∨ x ∈ ys.flatten := by
  fun_induction zipLevels xs ys with
  | case1 ys => simp
  | case2 xs _ => simp
  | case3 x xs y ys ih =>
    simp only [List.flatten_cons, List.mem_append, ih]
    tauto

mutual

theorem all_of_records : (p : Payload) → (∀ q ∈ p.levels.flatten, P q) → p.All P
  | .node contract location data children, each => by
    rw [levels, List.flatten_cons] at each
    refine .node (each _ (List.mem_append_left _ (List.mem_singleton.mpr rfl))) ?_
    exact all_of_groups children fun q member => each q (List.mem_append_right _ member)

theorem all_of_groups : (groups : List (String × List Payload)) →
    (∀ q ∈ (levelsOfGroups groups).flatten, P q) → ∀ group ∈ groups, ∀ p ∈ group.2, p.All P
  | [], _ => fun _ member => by cases member
  | (key, nodes) :: rest, each => by
    rw [levelsOfGroups] at each
    intro group member
    rcases List.mem_cons.mp member with same | later
    · rw [same]
      exact all_of_all nodes fun q inside => each q (mem_zipLevels.mpr (.inl inside))
    · have others := fun q inside => each q (mem_zipLevels.mpr (.inr inside))
      exact all_of_groups rest others group later

theorem all_of_all : (nodes : List Payload) → (∀ q ∈ (levelsOfAll nodes).flatten, P q) →
    ∀ p ∈ nodes, p.All P
  | [], _ => fun _ member => by cases member
  | p :: rest, each => by
    rw [levelsOfAll] at each
    intro q member
    rcases List.mem_cons.mp member with same | later
    · rw [same]
      exact all_of_records p fun r inside => each r (mem_zipLevels.mpr (.inl inside))
    · exact all_of_all rest (fun r inside => each r (mem_zipLevels.mpr (.inr inside))) q later

end

end Payload

/-- A contract is on the schema that is registered under its name, if there is one, and refers back
by a field that refers to other records. -/
structure Contract.Known (c : Catalog) (k : Contract) : Prop where
  registered : ∀ key s, Key.ofValue k.schema.name = .ok key → c.get? key = some s → s = k.schema
  referBack : ∀ field, k.referBack = some field →
    ∃ f ∈ k.schema.fields, f.name = field ∧ f.target?.isSome = true

/-- The record stands under a known contract, and its data are of declared fields, each once. -/
structure Payload.Built (c : Catalog) (p : Payload) : Prop where
  known : p.contract.Known c
  distinct : p.data.names.Nodup
  declared : ∀ name ∈ p.data.names, p.contract.schema.declares name = true

namespace ContractBook

variable {b : ContractBook} {c : Catalog}

theorem contractOf_schema (b : ContractBook) (s : Schema) (target : Target) (placement : Placement)
    (parent : Value) : (b.contractOf s target placement parent).schema = s := by
  rw [contractOf]
  split <;> rfl

theorem contractOf_referBack (b : ContractBook) (s : Schema) (target : Target)
    (placement : Placement) (parent : Value) :
    (b.contractOf s target placement parent).referBack =
      (s.fields.find? fun f => f.refersTo parent).map Field.name := by
  rw [contractOf]
  split <;> rfl

theorem known_contractOf {s : Schema}
    (registered : ∀ key t, Key.ofValue s.name = .ok key → c.get? key = some t → t = s)
    (target : Target) (placement : Placement) (parent : Value) :
    (b.contractOf s target placement parent).Known c := by
  constructor
  case registered => rwa [contractOf_schema]
  case referBack =>
    intro field named
    rw [contractOf_referBack] at named
    obtain ⟨f, found, rfl⟩ := Option.map_eq_some_iff.mp named
    have refers := List.find?_some found
    rw [Field.refersTo] at refers
    rw [contractOf_schema]
    refine ⟨f, List.mem_of_find?_eq_some found, rfl, ?_⟩
    cases target : f.target? with
    | none =>
      rw [target] at refers
      cases refers
    | some name => rfl

theorem registered_of_get? (registered : c.Registered) {name : Key} {s : Schema}
    (found : c.get? name = some s) (key : Key) (t : Schema) (named : Key.ofValue s.name = .ok key)
    (also : c.get? key = some t) : t = s := by
  obtain ⟨-, other, under, same⟩ := registered.of_get? found
  obtain rfl : key = other := Except.ok.inj (named.symm.trans under)
  exact Option.some.inj (also.symm.trans same)

theorem known_nested (registered : c.Registered) (parent : Contract) (r : ChildRequirement) :
    (b.nested c parent r).Known c := by
  refine known_contractOf (fun key t named found => ?_) _ _ _
  cases child : r.schema.key?.bind c.get? with
  | some s =>
    rw [child] at named
    obtain ⟨name, -, present⟩ := Option.bind_eq_some_iff.mp child
    exact registered_of_get? registered present key t named found
  | none =>
    rw [child] at named
    have given : r.schema.key? = some key := by
      have named : Key.ofValue r.schema = .ok key := named
      rw [Key.eq_of_ofValue named, Value.key?_toValue]
    rw [given, Option.bind_some, found] at child
    cases child

theorem isProper_of_childItems {r : ChildRequirement} {location : String} {v : Value}
    {items : List Value} (proper : v.isProper = true)
    (taken : (childItems r location v).1 = some items) {item : Value} (member : item ∈ items) :
    item.isProper = true := by
  unfold childItems at taken
  split at taken
  · rename_i given
    split at taken
    · cases taken
    · obtain rfl := Option.some.inj taken
      exact Value.isProper_of_mem proper member
  · split at taken
    · obtain rfl := Option.some.inj taken
      rw [List.mem_singleton.mp member]
      exact proper
    · cases taken

theorem isProper_given {entries : Entries} (proper : (Value.object entries).isProper = true)
    (name : Value) : (given name entries).isProper = true := by
  unfold given
  split
  · exact Value.isProper_get proper _
  · rfl

theorem splitShape_contract (b : ContractBook) (c : Catalog) (contract : Contract)
    (location : Value) (isPartial : Bool) (payload : Value) :
    (b.splitShape c contract location isPartial payload).1.contract = contract := by
  rw [splitShape.eq_def]
  dsimp only
  split <;> rfl

theorem splitShape_built (registered : c.Registered) (contract : Contract) (location : Value)
    (isPartial : Bool) (payload : Value) (known : contract.Known c)
    (proper : payload.isProper = true) :
    (b.splitShape c contract location isPartial payload).1.All (Payload.Built c) := by
  induction size : sizeOf payload using Nat.strongRecOn generalizing contract location isPartial
    payload with
  | ind n ih =>
    rw [splitShape.eq_def]
    dsimp only
    split
    · rename_i entries
      refine .node ⟨known, ?_, ?_⟩ ?_
      · exact Keyed.nodup_filter (Value.nodup_of_isProper proper) _
      · intro name named
        obtain ⟨entry, inside, rfl⟩ := List.mem_map.mp named
        exact (List.mem_filter.mp inside).2
      · intro group inside p member
        obtain ⟨part, listed, present⟩ := List.mem_filterMap.mp inside
        obtain ⟨r, child, rfl⟩ := List.mem_map.mp listed
        split at present
        · cases present
        · split at present
          · cases present
          · rename_i items complaints taken
            obtain rfl := Option.some.inj present
            obtain ⟨pair, split, rfl⟩ := List.mem_map.mp member
            obtain ⟨index, lt, rfl⟩ := List.mem_mapIdx.mp split
            have among := items.attach[index].2
            have took := congrArg Prod.fst taken
            have smaller := sizeOf_childItems_le took among
            have part := sizeOf_given_lt r.key entries
            refine ih _ ?_ _ _ _ _ (known_nested registered contract r) ?_ rfl
            · omega
            · exact isProper_of_childItems (isProper_given proper r.key) took among
    · exact .node ⟨known, List.nodup_nil, fun _ named => by cases named⟩
        fun _ inside => by cases inside

end ContractBook

def Payload.Accepted (p : Payload) : Prop :=
  p.contract.schema.complaints p.data false p.contract.referBack.toList = .ok []

namespace ContractBook

variable {b : ContractBook} {c : Catalog}

theorem accepted_of_recordComplaints {p : Payload} (none : recordComplaints false p = .ok []) :
    p.Accepted := by
  obtain ⟨complaints, found, none⟩ := bind_eq_ok.mp none
  obtain rfl : complaints = [] := List.map_eq_nil_iff.mp (Except.ok.inj none)
  exact found

theorem accepted_of_validateRecords {tree : Payload} (passed : validateRecords tree = .ok ()) :
    tree.All Payload.Accepted := by
  obtain ⟨complaints, found, passed⟩ := bind_eq_ok.mp passed
  have none : complaints = [] := by
    split at passed
    · cases passed
    · rename_i empty
      rwa [Bool.not_eq_true, Bool.not_eq_false', List.isEmpty_iff] at empty
  rw [none, treeComplaints] at found
  refine Payload.all_of_records tree fun q member => ?_
  have inside : q ∈ tree.records := member
  split at found
  · rename_i empty
    rw [empty] at inside
    cases inside
  · rename_i root rest records
    obtain ⟨own, first, found⟩ := bind_eq_ok.mp found
    obtain ⟨nested, others, found⟩ := bind_eq_ok.mp found
    obtain ⟨rfl, flat⟩ := List.append_eq_nil_iff.mp (Except.ok.inj found)
    rw [records] at inside
    rcases List.mem_cons.mp inside with same | later
    · rw [same]
      exact accepted_of_recordComplaints first
    · obtain ⟨complaints, listed, answered⟩ := exists_mem_of_mapM others later
      rw [List.flatten_eq_nil_iff.mp flat complaints listed] at answered
      exact accepted_of_recordComplaints answered

theorem validate_ok (registered : c.Registered) {contract : Contract} (known : contract.Known c)
    {payload : Value} (proper : payload.isProper = true) {tree : Payload}
    (passed : b.validate c contract payload = .ok tree) :
    tree.contract = contract ∧ tree.All fun p => p.Built c ∧ p.Accepted := by
  obtain ⟨split, shaped, passed⟩ := bind_eq_ok.mp passed
  obtain ⟨_, checked, passed⟩ := bind_eq_ok.mp passed
  obtain rfl : split = tree := Except.ok.inj passed
  have built :=
    b.splitShape_built registered contract contract.schema.name false payload known proper
  have under := b.splitShape_contract c contract contract.schema.name false payload
  rw [validateShape] at shaped
  split at shaped
  · rename_i given whole
    obtain rfl : given = split := Except.ok.inj shaped
    rw [whole] at built under
    exact ⟨under, built.and (accepted_of_validateRecords checked)⟩
  · cases shaped

end ContractBook

end RecordRules
