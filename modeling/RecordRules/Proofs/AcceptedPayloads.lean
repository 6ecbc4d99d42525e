import RecordRules.Proofs.ConformingPayloads
import RecordRules.Proofs.InitialRows

/-!
Payloads that both layers of validation accept: those that conform to the contract and all of whose
records satisfy their schemas, up to the fields that refer back to a parent.
-/
namespace RecordRules

open Step

namespace Payload

variable {P : Payload → Prop}

mutual

theorem records_of_all : (p : Payload) → p.All P → ∀ q ∈ p.levels.flatten, P q
  | .node contract location data children, all => by
    cases all with
    | node here below =>
      rw [levels, List.flatten_cons]
      intro q member
      rcases List.mem_append.mp member with same | later
      · rw [List.mem_singleton.mp same]
        exact here
      · exact records_of_groups children below q later

theorem records_of_groups : (groups : List (String × List Payload)) →
    (∀ group ∈ groups, ∀ p ∈ group.2, p.All P) → ∀ q ∈ (levelsOfGroups groups).flatten, P q
  | [], _ => fun _ member => by cases member
  | (key, nodes) :: rest, all => by
    rw [levelsOfGroups]
    intro q member
    rcases mem_zipLevels.mp member with first | later
    · exact records_of_nodes nodes (all _ List.mem_cons_self) q first
    · exact records_of_groups rest
        (fun group listed => all group (List.mem_cons_of_mem _ listed)) q later

theorem records_of_nodes : (nodes : List Payload) → (∀ p ∈ nodes, p.All P) →
    ∀ q ∈ (levelsOfAll nodes).flatten, P q
  | [], _ => fun _ member => by cases member
  | p :: rest, all => by
    rw [levelsOfAll]
    intro q member
    rcases mem_zipLevels.mp member with first | later
    · exact records_of_all p (all p List.mem_cons_self) q first
    · exact records_of_nodes rest (fun r listed => all r (List.mem_cons_of_mem _ listed)) q later

end

end Payload

namespace ContractBook

variable {b : ContractBook} {c : Catalog} {k : Contract} {isPartial : Bool}

theorem recordComplaints_eq_nil_iff {p : Payload} : recordComplaints isPartial p = .ok [] ↔
    p.contract.schema.complaints p.data isPartial p.contract.referBack.toList = .ok [] := by
  unfold recordComplaints
  rw [bind_eq_ok]
  constructor
  · rintro ⟨complaints, found, none⟩
    rwa [List.map_eq_nil_iff.mp (Except.ok.inj none)] at found
  · exact fun none => ⟨[], none, rfl⟩

theorem validateRecords_eq_ok_iff {location : Value} {data : Entries}
    {children : List (String × List Payload)} :
    validateRecords (.node k location data children) isPartial = .ok () ↔
      k.schema.complaints data isPartial k.referBack.toList = .ok [] ∧
        ∀ group ∈ children, ∀ p ∈ group.2, p.All Payload.Accepted := by
  have silent : validateRecords (.node k location data children) isPartial = .ok () ↔
      treeComplaints (.node k location data children) isPartial = .ok [] := by
    unfold validateRecords
    rw [bind_eq_ok]
    constructor
    · rintro ⟨complaints, found, passed⟩
      cases complaints with
      | nil => exact found
      | cons complaint rest => cases passed
    · exact fun none => ⟨[], none, rfl⟩
  have records : (Payload.node k location data children).records =
      .node k location data children :: (Payload.levelsOfGroups children).flatten := by
    rw [Payload.records, Payload.levels, List.flatten_cons]
    rfl
  have own : recordComplaints isPartial (.node k location data children) = .ok [] ↔
      k.schema.complaints data isPartial k.referBack.toList = .ok [] :=
    recordComplaints_eq_nil_iff
  rw [silent, treeComplaints, records]
  dsimp only
  constructor
  · intro none
    obtain ⟨root, first, none⟩ := bind_eq_ok.mp none
    obtain ⟨nested, others, none⟩ := bind_eq_ok.mp none
    obtain ⟨rfl, flat⟩ := List.append_eq_nil_iff.mp (Except.ok.inj none)
    refine ⟨own.mp first, Payload.all_of_groups children fun q member => ?_⟩
    obtain ⟨complaints, listed, answered⟩ := exists_mem_of_mapM others member
    rw [List.flatten_eq_nil_iff.mp flat complaints listed] at answered
    exact accepted_of_recordComplaints answered
  · rintro ⟨root, below⟩
    have others := mapM_eq_map fun q member => recordComplaints_eq_nil_iff.mpr
      (Payload.records_of_groups children below q member)
    rw [own.mpr root, others]
    simp [bind, Except.bind, pure, Except.pure]

/-- All records of a payload satisfy their schemas; the fields that refer back to a parent may be
left out. Below the root, nothing else may be. -/
inductive Satisfies (b : ContractBook) (c : Catalog) : Contract → Bool → Value → Prop where
  | object {k : Contract} {isPartial : Bool} {entries : Entries}
      (own : k.schema.complaints (k.declared entries) isPartial k.referBack.toList = .ok [])
      (below : ∀ r ∈ k.children, ∀ item ∈ r.items entries,
        Satisfies b c (b.nested c k r) false item) :
      Satisfies b c k isPartial (.object entries)

theorem forall_zip_iff {α β : Type} {xs : List α} {ys : List β} {P : α → Prop} {Q : β → Prop}
    (equal : ys.length = xs.length) (each : ∀ pair ∈ xs.zip ys, Q pair.2 ↔ P pair.1) :
    (∀ y ∈ ys, Q y) ↔ ∀ x ∈ xs, P x := by
  induction xs generalizing ys with
  | nil => simp [List.length_eq_zero_iff.mp equal]
  | cons x rest ih =>
    cases ys with
    | nil => cases equal
    | cons y others =>
      rw [List.zip_cons_cons, List.forall_mem_cons] at each
      rw [List.forall_mem_cons, List.forall_mem_cons, each.1, ih (Nat.succ.inj equal) each.2]

theorem forall_groups_iff {entries : Entries} {nodes : ChildRequirement → List Payload}
    {P : ChildRequirement → Value → Prop} {Q : Payload → Prop}
    (all : ∀ r ∈ k.children, (nodes r).length = (r.items entries).length)
    (each : ∀ r ∈ k.children, ∀ pair ∈ (r.items entries).zip (nodes r), Q pair.2 ↔ P r pair.1) :
    (∀ group ∈ groups k entries nodes, ∀ p ∈ group.2, Q p) ↔
      ∀ r ∈ k.children, ∀ item ∈ r.items entries, P r item := by
  unfold groups
  simp only [List.forall_mem_map, List.mem_filter, and_imp]
  refine forall₂_congr fun r child => ?_
  rw [← forall_zip_iff (all r child) (each r child)]
  cases null : (given r.key entries).isNull with
  | false => simp
  | true =>
    have none := all r child
    rw [items_of_isNull null] at none
    simp [List.length_eq_zero_iff.mp none]

theorem all_accepted_iff {payload : Value} {tree : Payload}
    (stands : b.StandsFor c k payload tree) :
    tree.All Payload.Accepted ↔ b.Satisfies c k false payload := by
  induction stands with
  | @object k entries location nodes apart all each ih =>
    have below := forall_groups_iff all ih
    constructor
    · intro accepted
      cases accepted with
      | node here children => exact .object here (below.mp children)
    · intro satisfies
      cases satisfies with
      | object own children => exact .node own (below.mpr children)

theorem validateRecords_iff {payload : Value} {tree : Payload}
    (stands : b.StandsFor c k payload tree) :
    validateRecords tree isPartial = .ok () ↔ b.Satisfies c k isPartial payload := by
  cases stands with
  | @object _ entries location nodes apart all each =>
    have below := forall_groups_iff all fun r child pair listed =>
      all_accepted_iff (each r child pair listed)
    rw [validateRecords_eq_ok_iff, below]
    constructor
    · exact fun both => .object both.1 both.2
    · intro satisfies
      cases satisfies with
      | object own children => exact ⟨own, children⟩

end ContractBook

namespace Engine

variable {e : Engine} {k : Contract}

/-- A payload is accepted exactly if it conforms to the contract and its records satisfy their
schemas. -/
theorem Composes.validate_iff (composes : e.Composes k) (fits : e.Fits) {payload : Value}
    {isPartial : Bool} :
    (∃ tree, e.contracts.validate e.catalog k payload isPartial = .ok tree) ↔
      e.contracts.Conforms e.catalog k isPartial payload ∧
        e.contracts.Satisfies e.catalog k isPartial payload := by
  unfold ContractBook.validate
  simp only [bind_eq_ok, ContractBook.validateShape_eq_ok, ContractBook.splitShape_silent_iff]
  constructor
  · rintro ⟨tree, _, ⟨rfl, conforms⟩, _, passed, -⟩
    have stands := composes.standsFor fits conforms k.schema.name
    exact ⟨conforms, (ContractBook.validateRecords_iff stands).mp passed⟩
  · rintro ⟨conforms, satisfies⟩
    have stands := composes.standsFor fits conforms k.schema.name
    exact ⟨_, _, ⟨rfl, conforms⟩, (), (ContractBook.validateRecords_iff stands).mpr satisfies, rfl⟩

end Engine

end RecordRules
