import RecordRules.Proofs.Rendering

/-!
Rules that mirror each other: with each record, the same children are created and viewed. Main
statements: the contracts by which a record is created and viewed have the same children and show
all fields; and there is one edge along which the children under an alias are found.
-/
namespace RecordRules

open Step

def ContractBook.childrenOf (b : ContractBook) (schema : Key) (target : Target) :
    List ChildRequirement :=
  match b.ruleFor? schema target .alone with
  | some a => a.children
  | none => []

/-- The augmentations for creating and for viewing mirror each other. They are for records on their
own, with all fields and with the same children for both; the schemas of these children are
different, and each has one field that refers to its parent. The names `id` and `$state` are kept
for what views add. -/
structure Engine.Mirrors (e : Engine) : Prop where
  alone : ∀ a ∈ e.contracts.augmentations, a.target ≠ .edit →
    a.placement = .alone ∧ a.select = .all
  same : ∀ schema, e.contracts.childrenOf schema .view = e.contracts.childrenOf schema .create
  distinct : ∀ a ∈ e.contracts.augmentations, a.target ≠ .edit →
    a.children.Pairwise fun r q => r.schema.same q.schema = false
  single : ∀ a ∈ e.contracts.augmentations, a.target ≠ .edit → ∀ r ∈ a.children, ∀ key s,
    Key.ofValue r.schema = .ok key → e.catalog.get? key = some s →
      (s.fields.filter fun f => f.refersTo a.schema).length = 1
  fields : ∀ key s, (key, s) ∈ e.catalog.schemas →
    s.declares "id" = false ∧ s.declares "$state" = false
  aliases : ∀ a ∈ e.contracts.augmentations, a.target ≠ .edit → ∀ r ∈ a.children,
    ∃ name, r.key = .text name ∧ name ≠ "id" ∧ name ≠ "$state"

structure Contract.Mirrored (k v : Contract) : Prop where
  schema : v.schema = k.schema
  children : v.children = k.children
  own : v.ownFields = k.schema.fieldNames

namespace Engine

variable {e : Engine} {k v : Contract}

namespace Mirrors

theorem effective?_eq (mirrors : e.Mirrors) {schema : Value} {name : Key}
    (named : Key.ofValue schema = .ok name) {target : Target} (reads : target ≠ .edit)
    (placement : Placement) :
    e.contracts.effective? schema target placement = e.contracts.ruleFor? name target .alone := by
  have called : schema.key? = some name := by
    rw [Key.eq_of_ofValue named, Value.key?_toValue]
  unfold ContractBook.effective?
  rw [called, Option.bind_some]
  cases placement with
  | alone => cases e.contracts.ruleFor? name target .alone <;> rfl
  | nested =>
    cases rule : e.contracts.ruleFor? name target .nested with
    | none => rfl
    | some a =>
      have applies := List.find?_some rule
      simp only [Bool.and_eq_true, beq_iff_eq] at applies
      have alone := (mirrors.alone a (List.mem_of_find?_eq_some rule) (applies.1.2 ▸ reads)).1
      rw [applies.2] at alone
      cases alone

theorem contract (mirrors : e.Mirrors) (fits : e.Fits) (composes : e.Composes k)
    (reads : k.target ≠ .edit) : k.ownFields = k.schema.fieldNames ∧
      ∃ name, Key.ofValue k.schema.name = .ok name ∧
        k.children = e.contracts.childrenOf name k.target := by
  obtain ⟨key, parent, found, same⟩ := composes
  obtain ⟨-, name, named, -⟩ := fits.catalog.of_get? found
  have applies := mirrors.effective?_eq named reads k.placement
  unfold ContractBook.contractOf at same
  rw [applies] at same
  have own := congrArg Contract.ownFields same
  have children := congrArg Contract.children same
  suffices k.ownFields = k.schema.fieldNames ∧
      k.children = e.contracts.childrenOf name k.target from ⟨this.1, name, named, this.2⟩
  unfold ContractBook.childrenOf
  cases rule : e.contracts.ruleFor? name k.target .alone with
  | none =>
    rw [rule] at own children
    exact ⟨own, children⟩
  | some a =>
    rw [rule] at own children
    obtain ⟨listed, -, target⟩ := mem_of_ruleFor? rule
    refine ⟨?_, children⟩
    rw [own]
    dsimp only
    rw [(mirrors.alone a listed (target ▸ reads)).2]
    exact List.filter_eq_self.mpr fun _ _ => rfl

theorem mirrored (mirrors : e.Mirrors) (fits : e.Fits) (creates : e.Composes k)
    (target : k.target = .create) (shows : e.Composes v) (views : v.target = .view)
    (schema : v.schema = k.schema) : k.Mirrored v := by
  have creating : k.target ≠ .edit := by rw [target]; decide
  have viewing : v.target ≠ .edit := by rw [views]; decide
  obtain ⟨-, name, named, children⟩ := mirrors.contract fits creates creating
  obtain ⟨own, other, called, shown⟩ := mirrors.contract fits shows viewing
  rw [schema] at own called
  obtain rfl : name = other := Except.ok.inj (named.symm.trans called)
  rw [views, mirrors.same, ← target, ← children] at shown
  exact ⟨schema, shown, own⟩

theorem augmentation (mirrors : e.Mirrors) (fits : e.Fits) (composes : e.Composes k)
    (reads : k.target ≠ .edit) (some_child : k.children ≠ []) :
    ∃ a ∈ e.contracts.augmentations, a.target ≠ .edit ∧ a.children = k.children ∧
      ∃ name, Key.ofValue k.schema.name = .ok name ∧ a.schema.names name = true := by
  obtain ⟨-, name, named, children⟩ := mirrors.contract fits composes reads
  unfold ContractBook.childrenOf at children
  cases rule : e.contracts.ruleFor? name k.target .alone with
  | none =>
    rw [rule] at children
    exact absurd children some_child
  | some a =>
    rw [rule] at children
    obtain ⟨listed, names, target⟩ := mem_of_ruleFor? rule
    exact ⟨a, listed, target ▸ reads, children.symm, name, named, names⟩

theorem children_apart (mirrors : e.Mirrors) (fits : e.Fits) (composes : e.Composes k)
    (reads : k.target ≠ .edit) :
    (∀ child ∈ k.children, ∃ name, child.key = .text name ∧ name ≠ "id" ∧ name ≠ "$state" ∧
      k.schema.declares name = false) ∧
      (k.children.Pairwise fun child other => child.key.embedded ≠ other.key.embedded) ∧
      k.children.Pairwise fun child other => child.schema.same other.schema = false := by
  by_cases none : k.children = []
  · rw [none]
    exact ⟨fun child absent => absurd absent List.not_mem_nil, .nil, .nil⟩
  · obtain ⟨a, listed, target, children, -⟩ := mirrors.augmentation fits composes reads none
    obtain ⟨undeclared, apart⟩ := composes.aliases fits
    have named (child : ChildRequirement) (given : child ∈ k.children) :
        ∃ name, child.key = .text name ∧ name ≠ "id" ∧ name ≠ "$state" ∧
          k.schema.declares name = false := by
      obtain ⟨name, key, id, state⟩ := mirrors.aliases a listed target child (children ▸ given)
      have free := undeclared child given
      rw [key] at free
      exact ⟨name, key, id, state, free⟩
    refine ⟨named, ?_, children ▸ mirrors.distinct a listed target⟩
    refine apart.imp_of_mem fun {child other} here there different equal => ?_
    obtain ⟨name, key, -⟩ := named child here
    obtain ⟨another, called, -⟩ := named other there
    rw [key, called] at different equal
    obtain rfl : name = another := equal
    exact absurd (Value.text_same_iff.mpr rfl) (Bool.not_eq_true _ ▸ different)

theorem single_field (mirrors : e.Mirrors) (fits : e.Fits) (composes : e.Composes k)
    (reads : k.target ≠ .edit) {child : ChildRequirement} (listed : child ∈ k.children) {key : Key}
    {s : Schema} (named : Key.ofValue child.schema = .ok key)
    (found : e.catalog.get? key = some s) :
    ∃ f, s.fields.filter (fun f => f.refersTo k.schema.name) = [f] := by
  obtain ⟨a, among, target, children, name, called, names⟩ :=
    mirrors.augmentation fits composes reads (List.ne_nil_of_mem listed)
  obtain ⟨own, -, given, -⟩ := (fits.augmentations a among).separates
  have single := mirrors.single a among target child (children ▸ listed) key s named found
  rw [Value.names_of_key given] at names
  have same (f : Field) : f.refersTo a.schema = f.refersTo k.schema.name := by
    rw [Key.eq_of_ofValue given, Key.eq_of_ofValue called, Bool.eq_iff_iff]
    constructor <;> intro refers
    · exact Field.refersTo_of_names refers ((Value.same_toValue own name).trans names)
    · exact Field.refersTo_of_names refers ((Value.same_toValue name own).trans (BEq.symm names))
  simp only [same] at single
  exact List.length_eq_one_iff.mp single

end Mirrors

end Engine

end RecordRules
