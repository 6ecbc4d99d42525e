import RecordRules.Proofs.RegisteredEngines

/-!
Contracts as engines compose them. Each is of a schema that is there, and so are those of the
children below it; the schemas of the children refer to that of their parent, and no alias is the
name of a field.
-/
namespace RecordRules

open Step

theorem ContractBook.contractOf_target (b : ContractBook) (s : Schema) (target : Target)
    (placement : Placement) (parent : Value) :
    (b.contractOf s target placement parent).target = target := by
  rw [contractOf]
  split <;> rfl

theorem ContractBook.contractOf_placement (b : ContractBook) (s : Schema) (target : Target)
    (placement : Placement) (parent : Value) :
    (b.contractOf s target placement parent).placement = placement := by
  rw [contractOf]
  split <;> rfl

theorem Field.refersTo_of_names {f : Field} {v : Value} {key : Key} (refers : f.refersTo v = true)
    (names : v.names key = true) : f.refersTo key.toValue = true := by
  unfold refersTo at refers ⊢
  cases target : f.target? with
  | none =>
    rw [target] at refers
    cases refers
  | some given =>
    rw [target] at refers
    exact Value.same_trans refers names

namespace Engine

/-- An engine composes a contract: it is of a schema that is there, alone or below a parent. -/
def Composes (e : Engine) (k : Contract) : Prop :=
  ∃ key parent, e.catalog.get? key = some k.schema ∧
    k = e.contracts.contractOf k.schema k.target k.placement parent

variable {e : Engine} {k : Contract}

theorem composes_contractOf {key : Key} {s : Schema} (found : e.catalog.get? key = some s)
    (target : Target) (placement : Placement) (parent : Value) :
    e.Composes (e.contracts.contractOf s target placement parent) := by
  refine ⟨key, parent, ?_, ?_⟩
  · rw [ContractBook.contractOf_schema, found]
  · rw [ContractBook.contractOf_schema, ContractBook.contractOf_target,
      ContractBook.contractOf_placement]

theorem compose_eq_ok {schema : Key} {target : Target} {placement : Placement} :
    e.compose schema target placement = .ok k ↔ ∃ s, e.catalog.get? schema = some s ∧
      k = e.contracts.contractOf s target placement := by
  unfold compose ContractBook.compose
  rw [bind_eq_ok]
  constructor
  · rintro ⟨s, required, composed⟩
    exact ⟨s, Catalog.get?_of_require required, (Except.ok.inj composed).symm⟩
  · rintro ⟨s, found, rfl⟩
    exact ⟨s, by rw [Catalog.require, found], rfl⟩

namespace Composes

theorem known (composes : e.Composes k) (fits : e.Fits) : k.Known e.catalog := by
  obtain ⟨key, parent, found, same⟩ := composes
  rw [same]
  exact ContractBook.known_contractOf
    (fun other t => ContractBook.registered_of_get? fits.catalog found other t) _ _ _

theorem checked (composes : e.Composes k) (fits : e.Fits) : k.schema.Checked := by
  obtain ⟨key, parent, found, -⟩ := composes
  exact (fits.catalog.of_get? found).1

theorem exists_augmentation (composes : e.Composes k) (some_child : k.children ≠ []) :
    ∃ a ∈ e.contracts.augmentations, a.children = k.children ∧
      ∃ key, Key.ofValue k.schema.name = .ok key ∧ a.schema.names key = true := by
  obtain ⟨key, parent, found, same⟩ := composes
  unfold ContractBook.contractOf at same
  cases effective : e.contracts.effective? k.schema.name k.target k.placement with
  | none =>
    rw [effective] at same
    rw [same] at some_child
    exact absurd rfl some_child
  | some a =>
    rw [effective] at same
    obtain ⟨listed, names⟩ := mem_of_effective? effective
    exact ⟨a, listed, by rw [same], names⟩

theorem nested (composes : e.Composes k) (fits : e.Fits) {r : ChildRequirement}
    (child : r ∈ k.children) :
    ∃ key s, Key.ofValue r.schema = .ok key ∧ e.catalog.get? key = some s ∧
      e.contracts.nested e.catalog k r =
        e.contracts.contractOf s k.target .nested k.schema.name ∧
      s.fields.any (fun f => f.refersTo k.schema.name) = true := by
  obtain ⟨a, listed, children, name, named, names⟩ :=
    composes.exists_augmentation (List.ne_nil_of_mem child)
  rw [← children] at child
  obtain ⟨key, s, given, found, refers⟩ := (fits.augmentations a listed).refers r child
  refine ⟨key, s, given, found, ?_, ?_⟩
  · unfold ContractBook.nested
    have looked : r.schema.key? = some key := by
      rw [Key.eq_of_ofValue given, Value.key?_toValue]
    rw [looked, Option.bind_some, found]
    rfl
  · obtain ⟨f, declared, refers⟩ := List.any_eq_true.mp refers
    rw [Key.eq_of_ofValue named]
    exact List.any_eq_true.mpr ⟨f, declared, Field.refersTo_of_names refers names⟩

theorem aliases (composes : e.Composes k) (fits : e.Fits) :
    (∀ r ∈ k.children, k.schema.declaresNamed r.key = false) ∧
      k.children.Pairwise fun r q => r.key.same q.key = false := by
  by_cases none : k.children = []
  · rw [none]
    exact ⟨fun r child => absurd child List.not_mem_nil, .nil⟩
  · obtain ⟨a, listed, children, name, named, names⟩ := composes.exists_augmentation none
    have fitting := fits.augmentations a listed
    rw [← children]
    refine ⟨?_, fitting.aliases⟩
    obtain ⟨key, s, given, found, apart⟩ := fitting.separates
    obtain ⟨other, parent, stored, -⟩ := composes
    obtain ⟨-, own, called, registered⟩ := fits.catalog.of_get? stored
    obtain rfl : name = own := Except.ok.inj (named.symm.trans called)
    rw [Value.names_of_key given] at names
    rw [Catalog.get?, Keyed.find?_congr names] at found
    obtain rfl : s = k.schema := Option.some.inj (found.symm.trans registered)
    exact apart

end Composes

end Engine

end RecordRules
