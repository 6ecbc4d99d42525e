import Mathlib.Data.List.Pairwise
import Mathlib.Logic.Relation
import RecordRules.Proofs.AcceptedPayloads

/-!
Payloads whose nested records leave out the field that refers back to their parent. The field is
filled in, and so a payload stays acceptable without it, unless the requirement on the children
lists it among the fields that they must have: then it is demanded, filled in or not.
-/
namespace RecordRules

open Step

namespace Keyed

variable {κ α : Type} [BEq κ]

theorem filter_put [LawfulBEq κ] {members : Keyed κ α} {name : κ} {kept : κ → Bool}
    (left : kept name = false) (member : α) :
    ((members.put name member).filter fun entry => kept entry.1) =
      members.filter fun entry => kept entry.1 := by
  induction members with
  | nil => simp [put, left]
  | cons head rest ih =>
    obtain ⟨key, old⟩ := head
    rw [put]
    split
    · rename_i same
      rw [eq_of_beq same]
      simp [left]
    · rw [List.filter_cons, List.filter_cons, ih]

theorem names_put_of_find? {members : Keyed κ α} {name : κ} {old member : α}
    (found : members.find? name = some old) : (members.put name member).names = members.names :=
  map_put_of_find? Prod.fst found fun _ => rfl

end Keyed

namespace ContractBook

variable {entries : Entries} {name : String} {v : Value}

theorem given_put_self (w : Value) : given (.text name) (entries.put name w) = w := by
  rw [given, Entries.get, Keyed.find?_put, beq_self_eq_true]
  rfl

theorem given_put_of_ne (unlike : v ≠ .text name) (w : Value) :
    given v (entries.put name w) = given v entries := by
  cases v with
  | text other =>
    have apart : (name == other) = false := by
      rw [beq_eq_false_iff_ne]
      rintro rfl
      exact unlike rfl
    rw [given, given, Entries.get, Entries.get, Keyed.find?_put, apart]
    rfl
  | _ => rfl

theorem given_erase_self : given (.text name) (entries.erase name) = .null := by
  rw [given, Entries.get, Keyed.find?_erase, beq_self_eq_true]
  rfl

theorem given_erase_of_ne (unlike : v ≠ .text name) :
    given v (entries.erase name) = given v entries := by
  cases v with
  | text other =>
    have apart : (name == other) = false := by
      rw [beq_eq_false_iff_ne]
      rintro rfl
      exact unlike rfl
    rw [given, given, Entries.get, Entries.get, Keyed.find?_erase, apart]
    rfl
  | _ => rfl

end ContractBook

namespace ChildRequirement

/-- Under the alias of a requirement, one child is replaced by another. -/
inductive Replaces (r : ChildRequirement) (old new entries : Entries) : Entries → Prop where
  | single {name : String} (key : r.key = .text name)
      (given : entries.find? name = some (.object old)) :
      r.Replaces old new entries (entries.put name (.object new))
  | member {name : String} {before after : List Value} (key : r.key = .text name)
      (given : entries.find? name = some (.list (before ++ .object old :: after))) :
      r.Replaces old new entries (entries.put name (.list (before ++ .object new :: after)))

variable {r : ChildRequirement} {old new entries other : Entries}

theorem IsMetBy.erase {field : String} (unlisted : Value.text field ∉ r.requiredFields)
    (met : r.IsMetBy (.object entries)) : r.IsMetBy (.object (entries.erase field)) := by
  obtain ⟨_, ⟨⟩, fields⟩ := met
  refine ⟨_, rfl, fun name listed => ?_⟩
  have unlike : name ≠ .text field := by
    rintro rfl
    exact unlisted listed
  rw [ContractBook.given_erase_of_ne unlike]
  exact fields name listed

theorem IsMetBy.put {name : String} {w : Value} (some_value : w.isNull = false)
    (met : r.IsMetBy (.object entries)) : r.IsMetBy (.object (Keyed.put entries name w)) := by
  obtain ⟨_, ⟨⟩, fields⟩ := met
  refine ⟨_, rfl, fun field listed => ?_⟩
  by_cases same : field = .text name
  · rwa [same, ContractBook.given_put_self]
  · rw [ContractBook.given_put_of_ne same]
    exact fields field listed

theorem Replaces.exists_values (replaces : r.Replaces old new entries other) :
    ∃ name v w before after, r.key = .text name ∧ entries.find? name = some v ∧
      other = entries.put name w ∧ w.isNull = false ∧
      r.items entries = before ++ .object old :: after ∧
      r.items other = before ++ .object new :: after ∧
      ∀ isPartial, r.Takes isPartial v → r.Takes isPartial w := by
  cases replaces with
  | @single name key given =>
    refine ⟨name, _, _, [], [], key, given, rfl, rfl, ?_, ?_, fun isPartial takes => ?_⟩
    · simp [items, ContractBook.given, key, Entries.get, given]
    · simp [items, key, ContractBook.given_put_self]
    · exact takes_object_iff.mpr (takes_object_iff.mp takes)
  | @member name before after key given =>
    refine ⟨name, _, _, before, after, key, given, rfl, rfl, ?_, ?_, fun isPartial takes => ?_⟩
    · simp [items, ContractBook.given, key, Entries.get, given]
    · simp [items, key, ContractBook.given_put_self]
    · rw [takes_list_iff] at takes ⊢
      simpa using takes

end ChildRequirement

namespace ContractBook

variable {b : ContractBook} {c : Catalog} {k : Contract}

/-- In one nested payload the field that refers back is left out; what the requirement on this child
and the field must be like is left open. -/
inductive Drops (b : ContractBook) (c : Catalog) (P : ChildRequirement → String → Prop) :
    Contract → Entries → Entries → Prop where
  | here {k : Contract} {r : ChildRequirement} {field : String} {inner entries other : Entries}
      (child : r ∈ k.children) (back : (b.nested c k r).referBack = some field) (may : P r field)
      (replaces : r.Replaces inner (inner.erase field) entries other) :
      Drops b c P k entries other
  | deeper {k : Contract} {r : ChildRequirement} {old new entries other : Entries}
      (child : r ∈ k.children) (drops : Drops b c P (b.nested c k r) old new)
      (replaces : r.Replaces old new entries other) :
      Drops b c P k entries other

theorem Drops.refused {entries other : Entries}
    (drops : b.Drops c (fun r field => Value.text field ∈ r.requiredFields) k entries other)
    (isPartial : Bool) : ¬ b.Conforms c k isPartial (.object other) := by
  induction drops generalizing isPartial with
  | @here k r field inner entries other child back listed replaces =>
    obtain ⟨name, v, w, before, after, -, -, -, -, -, now, -⟩ := replaces.exists_values
    intro conforms
    cases conforms with
    | object named taken met below =>
      obtain ⟨_, ⟨⟩, fields⟩ := met r child (.object (inner.erase field)) (by simp [now])
      have missing := fields (.text field) listed
      rw [given_erase_self] at missing
      cases missing
  | @deeper k r old new entries other child drops replaces ih =>
    obtain ⟨name, v, w, before, after, -, -, -, -, -, now, -⟩ := replaces.exists_values
    intro conforms
    cases conforms with
    | object named taken met below => exact ih false (below r child (.object new) (by simp [now]))

end ContractBook

namespace Engine

variable {e : Engine} {k : Contract} {r : ChildRequirement} {old new entries other : Entries}

namespace Composes

theorem eq_of_key (composes : e.Composes k) (fits : e.Fits) {q : ChildRequirement}
    (child : r ∈ k.children) (also : q ∈ k.children) {name : String} (key : r.key = .text name)
    (same : q.key = .text name) : r = q := by
  have unlike : k.children.Pairwise fun r q => ¬ (r.key = .text name ∧ q.key = .text name) := by
    refine (composes.aliases fits).2.imp fun {r q} apart both => ?_
    rw [both.1, both.2, Bool.eq_false_iff] at apart
    exact apart (Value.text_same_iff.mpr rfl)
  have : Std.Symm fun r q : ChildRequirement => ¬ (r.key = .text name ∧ q.key = .text name) :=
    ⟨fun _ _ apart both => apart both.symm⟩
  by_contra different
  exact unlike.forall child also different ⟨key, same⟩

theorem replaced (composes : e.Composes k) (fits : e.Fits) (child : r ∈ k.children)
    (replaces : r.Replaces old new entries other) :
    other.names = entries.names ∧ k.declared other = k.declared entries ∧
      (∀ isPartial, (∀ q ∈ k.children, q.Takes isPartial (ContractBook.given q.key entries)) →
        ∀ q ∈ k.children, q.Takes isPartial (ContractBook.given q.key other)) ∧
      ∀ P : ChildRequirement → Value → Prop, (P r (.object old) → P r (.object new)) →
        (∀ q ∈ k.children, ∀ item ∈ q.items entries, P q item) →
          ∀ q ∈ k.children, ∀ item ∈ q.items other, P q item := by
  obtain ⟨name, v, w, before, after, key, found, rfl, -, was, now, takes⟩ :=
    replaces.exists_values
  have others (q : ChildRequirement) (also : q ∈ k.children) (different : r ≠ q) :
      ContractBook.given q.key (entries.put name w) = ContractBook.given q.key entries :=
    ContractBook.given_put_of_ne
      (fun same => different (composes.eq_of_key fits child also key same)) w
  refine ⟨Keyed.names_put_of_find? found, ?_, fun isPartial all q also => ?_,
    fun P here all q also item listed => ?_⟩
  · have undeclared : k.schema.declares name = false := by
      have apart := (composes.aliases fits).1 r child
      rwa [key] at apart
    exact Keyed.filter_put undeclared w
  · by_cases same : r = q
    · subst same
      have before := all r child
      rw [key, ContractBook.given, Entries.get, found] at before
      rw [key, ContractBook.given_put_self]
      exact takes isPartial before
    · rw [others q also same]
      exact all q also
  · by_cases same : r = q
    · subst same
      rw [now] at listed
      have each := all r child
      rw [was] at each
      rcases List.mem_append.mp listed with first | later
      · exact each item (List.mem_append_left _ first)
      · rcases List.mem_cons.mp later with rfl | last
        · exact here (each (.object old) (by simp))
        · exact each item (List.mem_append_right _ (List.mem_cons_of_mem _ last))
    · refine all q also item ?_
      rwa [ChildRequirement.items, others q also same] at listed

variable {isPartial : Bool} {field : String}

theorem conforms_replaced (composes : e.Composes k) (fits : e.Fits) (child : r ∈ k.children)
    (replaces : r.Replaces old new entries other)
    (met : r.IsMetBy (.object old) → r.IsMetBy (.object new))
    (deeper : e.contracts.Conforms e.catalog (e.contracts.nested e.catalog k r) false
        (.object old) →
      e.contracts.Conforms e.catalog (e.contracts.nested e.catalog k r) false (.object new))
    (conforms : e.contracts.Conforms e.catalog k isPartial (.object entries)) :
    e.contracts.Conforms e.catalog k isPartial (.object other) := by
  obtain ⟨names, -, takes, each⟩ := composes.replaced fits child replaces
  cases conforms with
  | object named taken all below =>
    have all' := each ChildRequirement.IsMetBy met all
    refine .object ?_ (takes isPartial taken) all' (each _ deeper below)
    rwa [names]

theorem satisfies_replaced (composes : e.Composes k) (fits : e.Fits) (child : r ∈ k.children)
    (replaces : r.Replaces old new entries other)
    (deeper : e.contracts.Satisfies e.catalog (e.contracts.nested e.catalog k r) false
        (.object old) →
      e.contracts.Satisfies e.catalog (e.contracts.nested e.catalog k r) false (.object new))
    (satisfies : e.contracts.Satisfies e.catalog k isPartial (.object entries)) :
    e.contracts.Satisfies e.catalog k isPartial (.object other) := by
  obtain ⟨-, data, -, each⟩ := composes.replaced fits child replaces
  cases satisfies with
  | object own below =>
    refine .object ?_ (each _ deeper below)
    rwa [data]

theorem given_erase (composes : e.Composes k) (fits : e.Fits) (back : k.referBack = some field)
    (child : r ∈ k.children) :
    ContractBook.given r.key (entries.erase field) = ContractBook.given r.key entries := by
  obtain ⟨f, declared, rfl, -⟩ := (composes.known fits).referBack field back
  apply ContractBook.given_erase_of_ne
  intro key
  have undeclared := (composes.aliases fits).1 r child
  rw [key, Schema.declaresNamed, Schema.declares_iff.mpr ⟨f, declared, rfl⟩] at undeclared
  cases undeclared

theorem items_erase (composes : e.Composes k) (fits : e.Fits) (back : k.referBack = some field)
    (child : r ∈ k.children) : r.items (entries.erase field) = r.items entries := by
  rw [ChildRequirement.items, ChildRequirement.items, composes.given_erase fits back child]

theorem conforms_erase (composes : e.Composes k) (fits : e.Fits) (back : k.referBack = some field)
    (conforms : e.contracts.Conforms e.catalog k isPartial (.object entries)) :
    e.contracts.Conforms e.catalog k isPartial (.object (entries.erase field)) := by
  cases conforms with
  | object named taken met below =>
    constructor
    case named =>
      exact fun name listed => named name ((Keyed.names_filter_sublist _ _).subset listed)
    case taken =>
      intro r child
      rw [composes.given_erase fits back child]
      exact taken r child
    case met =>
      intro r child
      rw [composes.items_erase fits back child]
      exact met r child
    case below =>
      intro r child
      rw [composes.items_erase fits back child]
      exact below r child

theorem satisfies_erase (composes : e.Composes k) (fits : e.Fits) (back : k.referBack = some field)
    (satisfies : e.contracts.Satisfies e.catalog k isPartial (.object entries)) :
    e.contracts.Satisfies e.catalog k isPartial (.object (entries.erase field)) := by
  cases satisfies with
  | object own below =>
    constructor
    case own =>
      have data : k.declared (entries.erase field) = Keyed.erase (k.declared entries) field := by
        simp only [Contract.declared, Keyed.erase, List.filter_filter, Bool.and_comm]
      rw [data]
      rw [Schema.complaints_eq_nil_iff] at own ⊢
      obtain ⟨names, fields⟩ := own
      refine ⟨fun name listed => names name ((Keyed.names_filter_sublist _ _).subset listed),
        fun f declared => ?_⟩
      rw [Schema.fieldComplaint?, Keyed.find?_erase]
      by_cases same : field = f.name
      · simp [back, same]
      · have apart : (field == f.name) = false := beq_eq_false_iff_ne.mpr same
        rw [apart]
        exact fields f declared
    case below =>
      intro r child
      rw [composes.items_erase fits back child]
      exact below r child

end Composes

end Engine

namespace ContractBook.Drops

variable {e : Engine} {k : Contract} {entries other : Entries}

theorem isMetBy {P : ChildRequirement → String → Prop}
    (drops : e.contracts.Drops e.catalog P k entries other) (r : ChildRequirement)
    (met : r.IsMetBy (.object entries)) : r.IsMetBy (.object other) := by
  cases drops with
  | here _ _ _ replaces =>
    obtain ⟨_, _, _, _, _, -, -, rfl, some_value, -⟩ := replaces.exists_values
    exact met.put some_value
  | deeper _ _ replaces =>
    obtain ⟨_, _, _, _, _, -, -, rfl, some_value, -⟩ := replaces.exists_values
    exact met.put some_value

theorem kept (drops : e.contracts.Drops e.catalog
      (fun r field => Value.text field ∉ r.requiredFields) k entries other)
    (composes : e.Composes k) (fits : e.Fits) (isPartial : Bool) :
    (e.contracts.Conforms e.catalog k isPartial (.object entries) →
      e.contracts.Conforms e.catalog k isPartial (.object other)) ∧
    (e.contracts.Satisfies e.catalog k isPartial (.object entries) →
      e.contracts.Satisfies e.catalog k isPartial (.object other)) := by
  induction drops generalizing isPartial with
  | here child back unlisted replaces =>
    have inner := composes.nested_composes fits child
    exact ⟨composes.conforms_replaced fits child replaces (.erase unlisted)
        (inner.conforms_erase fits back),
      composes.satisfies_replaced fits child replaces (inner.satisfies_erase fits back)⟩
  | deeper child drops replaces ih =>
    obtain ⟨conforms, satisfies⟩ := ih (composes.nested_composes fits child) false
    exact ⟨composes.conforms_replaced fits child replaces (drops.isMetBy _) conforms,
      composes.satisfies_replaced fits child replaces satisfies⟩

end ContractBook.Drops

namespace Engine

variable {e : Engine} {k : Contract} {schema : Key} {target : Target} {placement : Placement}
  {parent : Value}

/-- An accepted payload stays so when nested payloads leave out the fields that refer back, however
many and at whatever depth, as long as no requirement lists them. A payload that leaves out a
listed one is refused. -/
theorem validate_drops (registered : e.Registered)
    (composed : e.contracts.compose e.catalog schema target placement parent = .ok k)
    (isPartial : Bool) (entries other : Entries) :
    (Relation.ReflTransGen (e.contracts.Drops e.catalog
        (fun r field => Value.text field ∉ r.requiredFields) k) entries other →
      (∃ tree, e.contracts.validate e.catalog k (.object entries) isPartial = .ok tree) →
      ∃ tree, e.contracts.validate e.catalog k (.object other) isPartial = .ok tree) ∧
    (e.contracts.Drops e.catalog
        (fun r field => Value.text field ∈ r.requiredFields) k entries other →
      ¬ ∃ tree, e.contracts.validate e.catalog k (.object other) isPartial = .ok tree) := by
  have composes := composes_of_compose composed
  have fits := registered.fits
  simp only [composes.validate_iff fits]
  constructor
  · intro dropped accepted
    induction dropped with
    | refl => exact accepted
    | tail _ drops ih =>
      obtain ⟨conforms, satisfies⟩ := drops.kept composes fits isPartial
      exact ⟨conforms ih.1, satisfies ih.2⟩
  · exact fun drops accepted => drops.refused isPartial accepted.1

def strictFolders : Engine where
  catalog := folders.catalog
  contracts :=
    { augmentations :=
        [{ schema := .text "Folder", target := .create
           children := [{ schema := .text "Folder", key := .text "folders"
                          requiredFields := [.text "within"] }] }] }

theorem strictFolders_registered : strictFolders.Registered :=
  folders_schema_runs.registered.augmentation (.object [("schema", .text "Folder"),
    ("target", .text "toCreate"),
    ("refers", .list [.object [("schema", .text "Folder"), ("alias", .text "folders"),
      ("requiredFields", .list [.text "within"])]])])

def placed : Entries :=
  [("folders", .list [.object [("title", .text "a"), ("within", .text "folder_1")]])]

def unplaced : Entries := [("folders", .list [.object [("title", .text "a")]])]

theorem placed_drops {e : Engine} {k : Contract} {P : ChildRequirement → String → Prop}
    {r : ChildRequirement} (child : r ∈ k.children) (key : r.key = .text "folders")
    (back : (e.contracts.nested e.catalog k r).referBack = some "within") (may : P r "within") :
    e.contracts.Drops e.catalog P k placed unplaced := by
  let inner : Entries := [("title", .text "a"), ("within", .text "folder_1")]
  have given : placed.find? "folders" = some (.list ([] ++ .object inner :: [])) := rfl
  exact .here child back may (.member key given)

theorem validate_drops_folders : ∃ k,
    folders.contracts.compose folders.catalog (.text "Folder") .create = .ok k ∧
      (∃ tree, folders.contracts.validate folders.catalog k (.object placed) = .ok tree) ∧
      ∃ tree, folders.contracts.validate folders.catalog k (.object unplaced) = .ok tree := by
  obtain ⟨k, composed⟩ : ∃ k,
    folders.contracts.compose folders.catalog (.text "Folder") .create = .ok k := ⟨_, rfl⟩
  obtain ⟨kept, -⟩ := validate_drops folders_registered composed false placed unplaced
  have accepted :
      ∃ tree, folders.contracts.validate folders.catalog k (.object placed) = .ok tree := by
    obtain rfl := Except.ok.inj composed
    exact ⟨_, by with_unfolding_all rfl⟩
  refine ⟨k, composed, accepted, kept (.single ?_) accepted⟩
  obtain rfl := Except.ok.inj composed
  exact placed_drops List.mem_cons_self rfl rfl List.not_mem_nil

/-- The field that refers back is demanded of a nested folder if the requirement lists it. -/
theorem listed_reference_is_demanded : ∃ k tree, strictFolders.Registered ∧
    strictFolders.contracts.compose strictFolders.catalog (.text "Folder") .create = .ok k ∧
    strictFolders.contracts.Drops strictFolders.catalog (fun _ _ => True) k placed unplaced ∧
    strictFolders.contracts.validate strictFolders.catalog k (.object placed) = .ok tree ∧
    strictFolders.contracts.validate strictFolders.catalog k (.object unplaced) =
      .error (.refused (.shape (.text "Folder"))
        ["Folder.folders[0]: missing required fields ['within']"]) := by
  refine ⟨_, _, strictFolders_registered, rfl, ?_, by with_unfolding_all rfl,
    by with_unfolding_all rfl⟩
  exact placed_drops List.mem_cons_self rfl rfl trivial

end Engine

end RecordRules
