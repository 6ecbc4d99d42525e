import RecordRules.Proofs.EditedShapes

/-!
The tree that a payload is split into. Where there is nothing to complain about, every object of
the payload gives one node: its data are the entries that the schema declares, and below it are
those of the children that it gives, in the order of the contract.
-/
namespace RecordRules

open Step

/-- What a payload gives for a child requirement: a single value, a list of them, or nothing. -/
def ChildRequirement.items (r : ChildRequirement) (entries : Entries) : List Value :=
  match ContractBook.given r.key entries with
  | .null => []
  | .list items => items
  | v => [v]

def Contract.declared (k : Contract) (entries : Entries) : Entries :=
  entries.filter fun entry => k.schema.declares entry.1

namespace ContractBook

mutual

/-- A payload is split along a contract into a tree. -/
inductive Splits (b : ContractBook) (c : Catalog) : Contract → Value → Payload → Prop where
  | object {k : Contract} {entries : Entries} {location : Value}
      {groups : List (String × List Payload)}
      (allowed : ∀ name ∈ entries.names, k.allows name = true)
      (children : SplitsBelow b c k entries k.children groups) :
      Splits b c k (.object entries) (.node k location (k.declared entries) groups)

inductive SplitsBelow (b : ContractBook) (c : Catalog) : Contract → Entries →
    List ChildRequirement → List (String × List Payload) → Prop where
  | nil {k : Contract} {entries : Entries} : SplitsBelow b c k entries [] []
  | absent {k : Contract} {entries : Entries} {r : ChildRequirement}
      {rest : List ChildRequirement} {groups : List (String × List Payload)}
      (nothing : r.items entries = []) (others : SplitsBelow b c k entries rest groups) :
      SplitsBelow b c k entries (r :: rest) groups
  | given {k : Contract} {entries : Entries} {r : ChildRequirement}
      {rest : List ChildRequirement} {key : String} {nodes : List Payload}
      {groups : List (String × List Payload)}
      (single : r.cardinality = .one → (r.items entries).length = 1)
      (each : SplitsEach b c (b.nested c k r) (r.items entries) nodes)
      (others : SplitsBelow b c k entries rest groups) :
      SplitsBelow b c k entries (r :: rest) ((key, nodes) :: groups)

inductive SplitsEach (b : ContractBook) (c : Catalog) : Contract → List Value → List Payload →
    Prop where
  | nil {k : Contract} : SplitsEach b c k [] []
  | cons {k : Contract} {item : Value} {rest : List Value} {node : Payload} {nodes : List Payload}
      (first : Splits b c k item node) (others : SplitsEach b c k rest nodes) :
      SplitsEach b c k (item :: rest) (node :: nodes)

end

variable {b : ContractBook} {c : Catalog} {k : Contract}

theorem splitsEach_of_forall {items : List Value} {nodes : List Payload}
    (each : List.Forall₂ (Splits b c k) items nodes) : SplitsEach b c k items nodes := by
  induction each with
  | nil => exact .nil
  | cons first _ ih => exact .cons first ih

theorem items_of_isNull {r : ChildRequirement} {entries : Entries}
    (null : (given r.key entries).isNull = true) : r.items entries = [] := by
  unfold ChildRequirement.items
  cases value : given r.key entries with
  | null => rfl
  | _ =>
    rw [value] at null
    cases null

theorem forall₂_of_mapIdx {α β γ : Type} {xs : List α} {f : Nat → { x // x ∈ xs } → β × List γ}
    {P : α → β → Prop} (each : ∀ i x, (f i x).2 = [] → P x.1 (f i x).1)
    (none : ((xs.attach.mapIdx f).map Prod.snd).flatten = []) :
    List.Forall₂ P xs ((xs.attach.mapIdx f).map Prod.fst) := by
  rw [List.flatten_eq_nil_iff] at none
  refine List.forall₂_iff_get.mpr ⟨by simp, fun i bound bound' => ?_⟩
  have inside : i < xs.attach.length := by simpa using bound
  have empty := none (f i xs.attach[i]).2 (by
    refine List.mem_map_of_mem (List.mem_iff_getElem.mpr ⟨i, by simpa using bound, ?_⟩)
    rw [List.getElem_mapIdx])
  have holds := each i xs.attach[i] empty
  simpa using holds

theorem items_of_childItems {r : ChildRequirement} {place : String} {entries : Entries}
    {items : List Value} {complaints : List ShapeComplaint}
    (some_value : (given r.key entries).isNull = false)
    (taken : childItems r place (given r.key entries) = (some items, complaints)) :
    r.items entries = items ∧ (r.cardinality = .one → items.length = 1) := by
  unfold childItems at taken
  unfold ChildRequirement.items
  split at taken
  · rename_i listed value
    split at taken
    · cases taken
    · rename_i many
      rw [value, many]
      exact ⟨Option.some.inj (Prod.mk.inj taken).1, fun one => nomatch one⟩
  · rename_i single
    split at taken
    · obtain rfl := Option.some.inj (Prod.mk.inj taken).1
      refine ⟨?_, fun _ => rfl⟩
      split
      · rename_i null
        rw [null] at some_value
        cases some_value
      · rename_i listed value
        exact absurd value (single listed)
      · rfl
    · cases taken

theorem splitsBelow_of_parts {entries : Entries} {requirements : List ChildRequirement}
    {part : ChildRequirement → Option (String × List Payload) × List ShapeComplaint}
    (each : ∀ r, (part r).2 = [] → ((part r).1 = none ∧ r.items entries = []) ∨
      ∃ key nodes, (part r).1 = some (key, nodes) ∧
        (r.cardinality = .one → (r.items entries).length = 1) ∧
          SplitsEach b c (b.nested c k r) (r.items entries) nodes)
    (none : ((requirements.map part).map Prod.snd).flatten = []) :
    SplitsBelow b c k entries requirements ((requirements.map part).filterMap Prod.fst) := by
  induction requirements with
  | nil => exact .nil
  | cons r rest ih =>
    obtain ⟨here, later⟩ := List.append_eq_nil_iff.mp none
    rcases each r here with ⟨absent, nothing⟩ | ⟨key, nodes, given, single, splits⟩
    · rw [List.map_cons, List.filterMap_cons_none absent]
      exact .absent nothing (ih later)
    · rw [List.map_cons, List.filterMap_cons_some given]
      exact .given single splits (ih later)

theorem allows_of_keyComplaint? {location : String} {names : List String}
    (none : names.filterMap (keyComplaint? k location) = []) :
    ∀ name ∈ names, k.allows name = true := by
  intro name listed
  have silent := List.filterMap_eq_nil_iff.mp none name listed
  unfold keyComplaint? at silent
  split at silent
  · assumption
  · split at silent <;> cases silent

theorem splits_of_splitShape (location : Value) (isPartial : Bool) (payload : Value)
    (none : (b.splitShape c k location isPartial payload).2 = []) :
    b.Splits c k payload (b.splitShape c k location isPartial payload).1 := by
  induction size : sizeOf payload using Nat.strongRecOn generalizing k location isPartial
    payload with
  | ind n ih =>
    rw [splitShape.eq_def] at none ⊢
    dsimp only at none ⊢
    split at none
    · rename_i entries
      obtain ⟨own, parts⟩ := List.append_eq_nil_iff.mp none
      refine .object (allows_of_keyComplaint? own)
        (splitsBelow_of_parts (fun r nothing => ?_) parts)
      by_cases null : (given r.key entries).isNull = true
      · left
        rw [if_pos null]
        exact ⟨rfl, items_of_isNull null⟩
      · right
        rw [if_neg null] at nothing ⊢
        split at nothing
        · rename_i complaints taken
          have complains := childItems_complains (congrArg Prod.fst taken)
          rw [taken] at complains
          exact absurd nothing complains
        · rename_i items complaints taken
          obtain ⟨-, others⟩ := List.append_eq_nil_iff.mp nothing
          have smaller : ∀ item ∈ items, sizeOf item < n := by
            intro item among
            have part := sizeOf_childItems_le (congrArg Prod.fst taken) among
            have whole := sizeOf_given_lt r.key entries
            omega
          obtain ⟨same, single⟩ := items_of_childItems (Bool.not_eq_true _ ▸ null) taken
          rw [same]
          refine ⟨_, _, rfl, single, splitsEach_of_forall (forall₂_of_mapIdx ?_ others)⟩
          intro i item empty
          obtain ⟨-, nested⟩ := List.append_eq_nil_iff.mp empty
          exact ih _ (smaller item item.2) _ _ _ nested rfl
    · cases none

theorem splits_of_validate {payload : Value} {isPartial : Bool} {tree : Payload}
    (passed : b.validate c k payload isPartial = .ok tree) : b.Splits c k payload tree := by
  obtain ⟨split, shaped, passed⟩ := bind_eq_ok.mp passed
  obtain ⟨_, -, passed⟩ := bind_eq_ok.mp passed
  obtain rfl : split = tree := Except.ok.inj passed
  obtain ⟨rfl, none⟩ := validateShape_eq_ok.mp shaped
  exact splits_of_splitShape _ _ _ none

end ContractBook

end RecordRules
