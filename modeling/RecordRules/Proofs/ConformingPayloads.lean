import RecordRules.Proofs.ComposedContracts
import RecordRules.Proofs.SplitPayloads
import RecordRules.Proofs.ValueOrder

/-!
Payloads that conform to a contract. The first layer of validation accepts them and no others, and
the tree that it answers holds all that they give: the declared entries of every object, and under
every alias one node for each child, in order.
-/
namespace RecordRules

open Step

/-- Where a bound lies. What is no number bounds nothing. -/
def Number.bound? (n : Number) : Option (WithBot (WithTop ℚ)) := n.value.number?.map Extended.line

namespace ChildRequirement

/-- What may stand under the alias of a requirement: nothing, a single object, or a list of a
length within the bounds. -/
inductive Takes (r : ChildRequirement) (isPartial : Bool) : Value → Prop where
  | nothing (optional : r.isMandatory = true → isPartial = true) : r.Takes isPartial .null
  | single {entries : Entries} (one : r.cardinality = .one) : r.Takes isPartial (.object entries)
  | several {items : List Value} (many : r.cardinality = .many)
      (atLeast : ∀ least, r.minItems.bound? = some least → least ≤ items.length)
      (atMost : ∀ bound, r.maxItems = some bound → ∀ most, bound.bound? = some most →
        items.length ≤ most) :
      r.Takes isPartial (.list items)

variable {r : ChildRequirement} {isPartial : Bool}

theorem takes_null_iff :
    r.Takes isPartial .null ↔ (r.isMandatory = true → isPartial = true) := by
  constructor
  · intro takes
    cases takes with
    | nothing optional => exact optional
  · exact .nothing

theorem takes_object_iff {entries : Entries} :
    r.Takes isPartial (.object entries) ↔ r.cardinality = .one := by
  constructor
  · intro takes
    cases takes with
    | single one => exact one
  · exact .single

theorem takes_list_iff {items : List Value} :
    r.Takes isPartial (.list items) ↔ r.cardinality = .many ∧
      (∀ least, r.minItems.bound? = some least → least ≤ items.length) ∧
        ∀ bound, r.maxItems = some bound → ∀ most, bound.bound? = some most →
          items.length ≤ most := by
  constructor
  · intro takes
    cases takes with
    | several many atLeast atMost => exact ⟨many, atLeast, atMost⟩
  · rintro ⟨many, atLeast, atMost⟩
    exact .several many atLeast atMost

def IsMetBy (r : ChildRequirement) (item : Value) : Prop :=
  ∃ entries, item = .object entries ∧
    ∀ name ∈ r.requiredFields, (ContractBook.given name entries).isNull = false

end ChildRequirement

namespace ContractBook

/-- A payload conforms to a contract: all its names are allowed, each requirement takes what stands
under its alias and is met by all children there, and these conform to their own contract. -/
inductive Conforms (b : ContractBook) (c : Catalog) : Contract → Bool → Value → Prop where
  | object {k : Contract} {isPartial : Bool} {entries : Entries}
      (named : ∀ name ∈ entries.names,
        name ∈ k.ownFields ∨ (∃ r ∈ k.children, r.key = .text name) ∨ k.referBack = some name)
      (taken : ∀ r ∈ k.children, r.Takes isPartial (given r.key entries))
      (met : ∀ r ∈ k.children, ∀ item ∈ r.items entries, r.IsMetBy item)
      (below : ∀ r ∈ k.children, ∀ item ∈ r.items entries,
        Conforms b c (b.nested c k r) false item) :
      Conforms b c k isPartial (.object entries)

def groups (k : Contract) (entries : Entries) (nodes : ChildRequirement → List Payload) :
    List (String × List Payload) :=
  (k.children.filter fun r => !(given r.key entries).isNull).map fun r =>
    (r.key.embedded, nodes r)

/-- A tree stands for a payload: its data are the declared entries, and under each alias there is
one node for each child, in order. No two groups have the same alias. -/
inductive StandsFor (b : ContractBook) (c : Catalog) : Contract → Value → Payload → Prop where
  | object {k : Contract} {entries : Entries} {location : Value}
      (nodes : ChildRequirement → List Payload)
      (apart : ((groups k entries nodes).map Prod.fst).Nodup)
      (all : ∀ r ∈ k.children, (nodes r).length = (r.items entries).length)
      (each : ∀ r ∈ k.children, ∀ pair ∈ (r.items entries).zip (nodes r),
        StandsFor b c (b.nested c k r) pair.1 pair.2) :
      StandsFor b c k (.object entries)
        (.node k location (k.declared entries) (groups k entries nodes))

variable {b : ContractBook} {c : Catalog} {k : Contract}

def splitItem (b : ContractBook) (c : Catalog) (k : Contract) (r : ChildRequirement)
    (place : String) (index : Nat) (item : Value) : Payload × List ShapeComplaint :=
  let spot := childLocation r place index
  let (node, nested) := b.splitShape c (b.nested c k r) (.text spot) false item
  (node, fieldsComplaint r spot item ++ nested)

def splitChild (b : ContractBook) (c : Catalog) (k : Contract) (here : String) (isPartial : Bool)
    (entries : Entries) (r : ChildRequirement) :
    Option (String × List Payload) × List ShapeComplaint :=
  let place := here ++ "." ++ r.key.embedded
  let v := given r.key entries
  if v.isNull then
    (none, if r.isMandatory && !isPartial then [.missingChild place r.schema] else [])
  else
    match childItems r place v with
    | (none, complaints) => (none, complaints)
    | (some items, complaints) =>
      let nodes := items.mapIdx (b.splitItem c k r place)
      (some (r.key.embedded, nodes.map Prod.fst), complaints ++ (nodes.map Prod.snd).flatten)

theorem mapIdx_attach {α β : Type} (xs : List α) (f : Nat → α → β) :
    (xs.attach.mapIdx fun i x => f i x.1) = xs.mapIdx f := by
  apply List.ext_getElem <;> simp

theorem splitShape_object (b : ContractBook) (c : Catalog) (k : Contract) (location : Value)
    (isPartial : Bool) (entries : Entries) :
    b.splitShape c k location isPartial (.object entries) =
      let parts := k.children.map (b.splitChild c k location.embedded isPartial entries)
      (.node k location (k.declared entries) (parts.filterMap Prod.fst),
        (Keyed.names entries).filterMap (keyComplaint? k location.embedded) ++
          (parts.map Prod.snd).flatten) := by
  rw [splitShape.eq_def]
  dsimp only
  generalize parts : List.map _ k.children = given
  have same : given = k.children.map (b.splitChild c k location.embedded isPartial entries) := by
    rw [← parts]
    refine List.map_congr_left fun r _ => ?_
    unfold splitChild
    dsimp only
    split
    · rfl
    · split
      · rename_i complaints taken
        rw [taken]
      · rename_i items complaints taken
        rw [taken]
        have nodes :=
          mapIdx_attach items (b.splitItem c k r (location.embedded ++ "." ++ r.key.embedded))
        dsimp only
        rw [← nodes]
        rfl
  rw [same]
  rfl

theorem line_natCast (count : Nat) : (Extended.ofInt count).line = count := by
  rw [Extended.ofInt, Extended.line, Scaled.rational_ofInt, Int.cast_natCast]
  rfl

theorem isLess_count_iff {count : Nat} {bound : Number} :
    (Value.int count).isLess bound.value = true ↔
      ∃ least, bound.bound? = some least ∧ (count : WithBot (WithTop ℚ)) < least := by
  rw [Value.isLess, Value.number_order? rfl, beq_iff_eq, Number.bound?]
  simp [Extended.order_eq_lt_iff, line_natCast]

theorem isGreater_count_iff {count : Nat} {bound : Number} :
    (Value.int count).isGreater bound.value = true ↔
      ∃ most, bound.bound? = some most ∧ most < (count : WithBot (WithTop ℚ)) := by
  rw [Value.isGreater, Value.number_order? rfl, beq_iff_eq, Number.bound?]
  simp [Extended.order_eq_gt_iff, line_natCast]

theorem countComplaints_eq_nil_iff {r : ChildRequirement} {place : String} {count : Nat} :
    countComplaints r place count = [] ↔
      (∀ least, r.minItems.bound? = some least → least ≤ count) ∧
        ∀ bound, r.maxItems = some bound → ∀ most, bound.bound? = some most → count ≤ most := by
  unfold countComplaints
  cases upper : r.maxItems with
  | none => simp [isLess_count_iff]
  | some bound => simp [isLess_count_iff, isGreater_count_iff]

theorem fieldsComplaint_eq_nil_iff {r : ChildRequirement} {spot : String} {entries : Entries} :
    fieldsComplaint r spot (.object entries) = [] ↔
      ∀ name ∈ r.requiredFields, (given name entries).isNull = false := by
  have lacks : (r.requiredFields.filter fun name => (given name entries).isNull) = [] ↔
      ∀ name ∈ r.requiredFields, (given name entries).isNull = false := by
    rw [List.filter_eq_nil_iff]
    simp only [Bool.not_eq_true]
  rw [← lacks, fieldsComplaint]
  split
  · rename_i none
    simp [none]
  · rename_i missing some_missing
    simpa using some_missing

theorem keyComplaint?_eq_none_iff {location name : String} :
    keyComplaint? k location name = none ↔ k.allows name = true := by
  unfold keyComplaint?
  cases k.allows name with
  | true => simp
  | false => cases k.schema.declares name <;> simp

theorem mapIdx_silent_iff {α β γ : Type} {xs : List α} {f : Nat → α → β × List γ}
    {P : α → Prop} (each : ∀ i, ∀ x ∈ xs, (f i x).2 = [] ↔ P x) :
    ((xs.mapIdx f).map Prod.snd).flatten = [] ↔ ∀ x ∈ xs, P x := by
  induction xs generalizing f with
  | nil => simp
  | cons x rest ih =>
    have later := ih (f := fun i => f (i + 1)) fun i y listed =>
      each (i + 1) y (List.mem_cons_of_mem x listed)
    rw [List.mapIdx_cons, List.map_cons, List.flatten_cons, List.append_eq_nil_iff, later,
      each 0 x List.mem_cons_self, List.forall_mem_cons]

theorem splitChild_silent_iff {r : ChildRequirement} {here : String} {isPartial : Bool}
    {entries : Entries} {P : Value → Prop}
    (each : ∀ item ∈ r.items entries, ∀ place i, (b.splitItem c k r place i item).2 = [] ↔ P item)
    (objects : ∀ item, P item → ∃ inner, item = .object inner) :
    (b.splitChild c k here isPartial entries r).2 = [] ↔
      r.Takes isPartial (given r.key entries) ∧ ∀ item ∈ r.items entries, P item := by
  have refused (other : ∀ inner, given r.key entries ≠ .object inner) :
      ¬ ∀ item ∈ [given r.key entries], P item := by
    intro all
    obtain ⟨inner, same⟩ := objects _ (all _ List.mem_cons_self)
    exact other inner same
  unfold splitChild
  unfold ChildRequirement.items at each ⊢
  cases value : given r.key entries with
  | null => simp [Value.isNull, ChildRequirement.takes_null_iff]
  | list items =>
    rw [value] at each
    cases shape : r.cardinality with
    | one => simp [Value.isNull, childItems, shape, ChildRequirement.takes_list_iff]
    | many =>
      simp only [Value.isNull, childItems, shape, Bool.false_eq_true, ↓reduceIte,
        List.append_eq_nil_iff, countComplaints_eq_nil_iff, ChildRequirement.takes_list_iff,
        true_and, and_assoc, mapIdx_silent_iff fun i item listed => each item listed _ i]
  | object inner =>
    rw [value] at each
    cases shape : r.cardinality with
    | one =>
      simp only [Value.isNull, childItems, shape, Bool.false_eq_true, ↓reduceIte,
        List.nil_append, ChildRequirement.takes_object_iff, true_and,
        mapIdx_silent_iff fun i item listed => each item listed _ i]
    | many => simp [Value.isNull, childItems, shape, ChildRequirement.takes_object_iff]
  | _ =>
    -- a value of any other kind is no child
    have other (inner : Entries) : given r.key entries ≠ .object inner := by
      rw [value]
      rintro ⟨⟩
    have none := refused other
    rw [value] at each none
    refine iff_of_false ?_ (not_and_of_not_right _ none)
    cases shape : r.cardinality with
    | one =>
      simp only [Value.isNull, childItems, shape, Bool.false_eq_true, ↓reduceIte,
        List.nil_append, mapIdx_silent_iff fun i item listed => each item listed _ i]
      exact none
    | many => simp [Value.isNull, childItems, shape]

theorem allows_iff {name : String} : k.allows name = true ↔
    name ∈ k.ownFields ∨ (∃ r ∈ k.children, r.key = .text name) ∨ k.referBack = some name := by
  have alias_iff : Value.isIn (.text name) k.aliases = true ↔
      ∃ r ∈ k.children, r.key = .text name := by
    refine ⟨Contract.exists_of_alias, ?_⟩
    rintro ⟨r, child, key⟩
    exact Value.isIn_iff.mpr ⟨r.key, List.mem_map_of_mem child, Value.text_same_iff.mpr key⟩
  rw [Contract.allows, Bool.or_eq_true, Bool.or_eq_true, List.contains_iff_mem, alias_iff,
    beq_iff_eq, or_assoc]

theorem sizeOf_items_lt {r : ChildRequirement} {entries : Entries} {item : Value}
    (among : item ∈ r.items entries) : sizeOf item < sizeOf (Value.object entries) := by
  have whole := sizeOf_given_lt r.key entries
  unfold ChildRequirement.items at among
  split at among
  · cases among
  · rename_i items value
    rw [value] at whole
    exact Nat.lt_of_le_of_lt (sizeOf_le_of_mem_list among) whole
  · rw [List.mem_singleton.mp among]
    exact whole

theorem Conforms.exists_object {isPartial : Bool} {payload : Value}
    (conforms : b.Conforms c k isPartial payload) : ∃ entries, payload = .object entries := by
  cases conforms with
  | object => exact ⟨_, rfl⟩

theorem splitItem_silent_iff {r : ChildRequirement} {item : Value}
    (each : ∀ spot, (b.splitShape c (b.nested c k r) spot false item).2 = [] ↔
      b.Conforms c (b.nested c k r) false item) (place : String) (i : Nat) :
    (b.splitItem c k r place i item).2 = [] ↔
      r.IsMetBy item ∧ b.Conforms c (b.nested c k r) false item := by
  unfold splitItem
  rw [List.append_eq_nil_iff, each]
  refine and_congr_left fun conforms => ?_
  obtain ⟨entries, rfl⟩ := conforms.exists_object
  rw [fieldsComplaint_eq_nil_iff]
  constructor
  · exact fun lacks => ⟨entries, rfl, lacks⟩
  · rintro ⟨_, ⟨⟩, lacks⟩
    exact lacks

theorem splitShape_silent_iff (location : Value) (isPartial : Bool) (payload : Value) :
    (b.splitShape c k location isPartial payload).2 = [] ↔ b.Conforms c k isPartial payload := by
  induction size : sizeOf payload using Nat.strongRecOn generalizing k location isPartial
    payload with
  | ind n ih =>
    by_cases shape : ∃ entries, payload = .object entries
    · obtain ⟨entries, rfl⟩ := shape
      have parts (r : ChildRequirement) :
          (b.splitChild c k location.embedded isPartial entries r).2 = [] ↔
            r.Takes isPartial (given r.key entries) ∧ ∀ item ∈ r.items entries,
              r.IsMetBy item ∧ b.Conforms c (b.nested c k r) false item := by
        refine splitChild_silent_iff (fun item among => splitItem_silent_iff fun spot => ?_)
          fun item holds => holds.2.exists_object
        exact ih _ (size ▸ sizeOf_items_lt among) spot false item rfl
      rw [splitShape_object, List.append_eq_nil_iff, List.filterMap_eq_nil_iff,
        List.flatten_eq_nil_iff]
      simp only [List.forall_mem_map, parts, keyComplaint?_eq_none_iff, allows_iff]
      constructor
      · rintro ⟨named, children⟩
        exact .object named (fun r child => (children r child).1)
          (fun r child item among => ((children r child).2 item among).1)
          fun r child item among => ((children r child).2 item among).2
      · rintro ⟨named, taken, met, below⟩
        exact ⟨named, fun r child => ⟨taken r child, fun item among =>
          ⟨met r child item among, below r child item among⟩⟩⟩
    · refine iff_of_false ?_ fun conforms => shape conforms.exists_object
      rw [splitShape.eq_def]
      dsimp only
      split
      · exact absurd ⟨_, rfl⟩ shape
      · exact List.cons_ne_nil _ _

theorem splitChild_fst {r : ChildRequirement} {here : String} {isPartial : Bool}
    {entries : Entries} (takes : r.Takes isPartial (given r.key entries)) :
    (b.splitChild c k here isPartial entries r).1 =
      if (given r.key entries).isNull then none
      else some (r.key.embedded, ((r.items entries).mapIdx
        (b.splitItem c k r (here ++ "." ++ r.key.embedded))).map Prod.fst) := by
  unfold splitChild ChildRequirement.items
  cases value : given r.key entries with
  | null => simp [Value.isNull]
  | list items =>
    rw [value] at takes
    have many := (ChildRequirement.takes_list_iff.mp takes).1
    simp [Value.isNull, childItems, many]
  | object inner =>
    rw [value] at takes
    have one := ChildRequirement.takes_object_iff.mp takes
    simp [Value.isNull, childItems, one]
  | _ =>
    rw [value] at takes
    cases takes

theorem filterMap_of_ite {α β γ : Type} {xs : List α} {part : α → Option β × γ} {left : α → Bool}
    {g : α → β} (each : ∀ x ∈ xs, (part x).1 = if left x then none else some (g x)) :
    (xs.map part).filterMap Prod.fst = (xs.filter fun x => !left x).map g := by
  induction xs with
  | nil => rfl
  | cons x rest ih =>
    have later := ih fun y listed => each y (List.mem_cons_of_mem x listed)
    have here := each x List.mem_cons_self
    cases shape : left x <;> simp [shape, here, later]

end ContractBook

namespace Engine

variable {e : Engine} {k : Contract}

theorem Composes.nested_composes (composes : e.Composes k) (fits : e.Fits) {r : ChildRequirement}
    (child : r ∈ k.children) : e.Composes (e.contracts.nested e.catalog k r) := by
  obtain ⟨key, s, -, found, same, -⟩ := composes.nested fits child
  rw [same]
  exact composes_contractOf found _ _ _

theorem Composes.groups_apart (composes : e.Composes k) (fits : e.Fits) (entries : Entries)
    (nodes : ChildRequirement → List Payload) :
    ((ContractBook.groups k entries nodes).map Prod.fst).Nodup := by
  obtain ⟨-, apart⟩ := composes.aliases fits
  have named : ∀ r : ChildRequirement, (ContractBook.given r.key entries).isNull = false →
      ∃ name, r.key = .text name := by
    intro r some_value
    unfold ContractBook.given at some_value
    split at some_value
    · rename_i name key
      exact ⟨name, key⟩
    · cases some_value
  rw [ContractBook.groups, List.map_map]
  refine List.pairwise_map.mpr (List.Pairwise.imp_of_mem ?_ (apart.sublist List.filter_sublist))
  intro r q first second unlike same
  obtain ⟨-, given⟩ := List.mem_filter.mp first
  obtain ⟨-, also⟩ := List.mem_filter.mp second
  obtain ⟨name, key⟩ := named r (by simpa using given)
  obtain ⟨other, key'⟩ := named q (by simpa using also)
  rw [key, key', Bool.eq_false_iff, Ne, Value.text_same_iff] at unlike
  simp only [Function.comp, key, key', Value.embedded] at same
  exact unlike (congrArg Value.text same.symm)

theorem Composes.standsFor (composes : e.Composes k) (fits : e.Fits) {isPartial : Bool}
    {payload : Value} (conforms : e.contracts.Conforms e.catalog k isPartial payload)
    (location : Value) :
    e.contracts.StandsFor e.catalog k payload
      (e.contracts.splitShape e.catalog k location isPartial payload).1 := by
  induction conforms generalizing location with
  | @object k isPartial entries named taken met below ih =>
    rw [ContractBook.splitShape_object]
    dsimp only
    rw [ContractBook.filterMap_of_ite fun r child => ContractBook.splitChild_fst (taken r child)]
    refine .object _ (composes.groups_apart fits _ _) (fun r child => ?_) ?_
    · simp
    · intro r child pair listed
      obtain ⟨i, bound, rfl⟩ := List.getElem_of_mem listed
      have inside : i < (r.items entries).length := by
        rw [List.length_zip] at bound
        omega
      simp only [List.getElem_zip, List.getElem_map, List.getElem_mapIdx]
      exact ih r child _ (List.getElem_mem inside) (composes.nested_composes fits child) _

variable {schema : Key} {target : Target} {placement : Placement} {parent : Value}

theorem composes_of_compose
    (composed : e.contracts.compose e.catalog schema target placement parent = .ok k) :
    e.Composes k := by
  obtain ⟨s, required, composed⟩ := bind_eq_ok.mp composed
  obtain rfl := Except.ok.inj composed
  exact composes_contractOf (Catalog.get?_of_require required) target placement parent

/-- The first layer of validation accepts exactly the payloads that conform to the contract, and
what it answers stands for the payload. -/
theorem validateShape_conforms (registered : e.Registered)
    (composed : e.contracts.compose e.catalog schema target placement parent = .ok k)
    (payload : Value) (isPartial : Bool) :
    ((∃ tree, e.contracts.validateShape e.catalog k payload isPartial = .ok tree) ↔
      e.contracts.Conforms e.catalog k isPartial payload) ∧
    ∀ tree, e.contracts.validateShape e.catalog k payload isPartial = .ok tree →
      e.contracts.StandsFor e.catalog k payload tree := by
  have accepted (tree : Payload) :
      e.contracts.validateShape e.catalog k payload isPartial = .ok tree ↔
        (e.contracts.splitShape e.catalog k k.schema.name isPartial payload).1 = tree ∧
          e.contracts.Conforms e.catalog k isPartial payload := by
    rw [ContractBook.validateShape_eq_ok, ContractBook.splitShape_silent_iff]
  constructor
  · constructor
    · rintro ⟨tree, passed⟩
      exact ((accepted tree).mp passed).2
    · exact fun conforms => ⟨_, (accepted _).mpr ⟨rfl, conforms⟩⟩
  · intro tree passed
    obtain ⟨rfl, conforms⟩ := (accepted tree).mp passed
    exact (composes_of_compose composed).standsFor registered.fits conforms _

theorem validateShape_conforms_folders : ∃ k tree payload,
    folders.Registered ∧
      folders.contracts.compose folders.catalog (.text "Folder") .create = .ok k ∧
      folders.contracts.validateShape folders.catalog k payload = .ok tree ∧
      folders.contracts.Conforms folders.catalog k false payload ∧
      folders.contracts.StandsFor folders.catalog k payload tree := by
  let title : Field := { name := "title", kind := .known .text, default := .text "new" }
  let within : Field := { name := "within", kind := .known .reference, refer := .text "Folder" }
  let contract : Contract :=
    { schema := { name := .text "Folder", fields := [title, within] }
      target := .create, placement := .alone, ownFields := ["title", "within"]
      children := [{ schema := .text "Folder", key := .text "folders" }] }
  let nested : Contract := { contract with placement := .nested, referBack := some "within" }
  let payload : Value := .object [("folders", .list [.object [("title", .text "a")]])]
  let tree : Payload := .node contract (.text "Folder") []
    [("folders", [.node nested (.text "Folder.folders[0]") [("title", .text "a")] []])]
  have composed : folders.contracts.compose folders.catalog (.text "Folder") .create =
      .ok contract := rfl
  have passed : folders.contracts.validateShape folders.catalog contract payload = .ok tree := by
    with_unfolding_all rfl
  obtain ⟨accepts, stands⟩ := validateShape_conforms folders_registered composed payload false
  exact ⟨contract, tree, payload, folders_registered, composed, passed, accepts.mp ⟨tree, passed⟩,
    stands tree passed⟩

end Engine

end RecordRules
