import RecordRules.Proofs.RuleAcceptance
import RecordRules.Proofs.StateMerge

/-!
The order of state rules. Whether rules contradict each other, and whether their conditions exclude
each other, does not depend on which of them comes first. So a list of rules is accepted in every
order or in none, and the states that it makes are the same in every order in which it is accepted.
-/
namespace RecordRules

open Step

namespace Value

theorem any_isIn_comm {s t : List Value} (hs : ∀ v ∈ s, v.WellFormed) (ht : ∀ v ∈ t, v.WellFormed) :
    s.any (fun v => v.isIn t) = t.any fun v => v.isIn s := by
  rw [Bool.eq_iff_iff, List.any_eq_true, List.any_eq_true]
  constructor
  · rintro ⟨v, member, inside⟩
    obtain ⟨w, among, equal⟩ := isIn_iff.mp inside
    exact ⟨w, among, isIn_iff.mpr ⟨v, member, (hs v member).same_symm equal⟩⟩
  · rintro ⟨w, among, inside⟩
    obtain ⟨v, member, equal⟩ := isIn_iff.mp inside
    exact ⟨v, member, isIn_iff.mpr ⟨w, among, (ht w among).same_symm equal⟩⟩

end Value

theorem Path.sameAs_iff {p q : Path} : p.sameAs q = true ↔
    p.origin = q.origin ∧ p.index = q.index ∧ p.schema = q.schema ∧ p.tail = q.tail := by
  unfold sameAs
  simp only [Bool.and_eq_true, beq_iff_eq, and_assoc]

namespace Condition

theorem wellFormed_admission {c : Condition} (formed : c.WellFormed) {a : Admission}
    (listed : c.admission? = some a) : (Value.set a.values).WellFormed := by
  obtain ⟨path, operator, operand⟩ := c
  have single {v : Value} (key : v.isKey = true) (whole : v.WellFormed) :
      (Value.set [v]).WellFormed := by
    apply Value.WellFormed.set <;> simp [key, whole]
  cases operand with
  | path p => cases listed
  | value v =>
    have whole : v.WellFormed := formed v rfl
    cases operator with
    | eq | neq =>
      by_cases key : v.isKey = true
      · simp only [admission?, key, ↓reduceIte, Option.map_some, Option.some.injEq] at listed
        rw [← listed]
        exact single key whole
      · simp [admission?, key] at listed
    | isIn | notIn =>
      cases v with
      | set items =>
        simp only [admission?, Option.map_some, Option.some.injEq] at listed
        rw [← listed]
        exact whole
      | text s =>
        simp only [admission?, Option.map_some, Option.some.injEq] at listed
        rw [← listed]
        exact single rfl whole
      | _ => simp [admission?] at listed
    | _ => cases listed

theorem Admission.excludes_comm {a b : Admission} (ha : (Value.set a.values).WellFormed)
    (hb : (Value.set b.values).WellFormed) : a.excludes b = b.excludes a := by
  unfold Admission.excludes
  cases a.only <;> cases b.only <;> simp only [Value.any_isIn_comm ha.members hb.members]

theorem excludes_comm {a b : Condition} (ha : a.WellFormed) (hb : b.WellFormed) :
    excludes a b = excludes b a := by
  have paths : (a.path.sameAs b.path && a.path.origin != .modified) =
      (b.path.sameAs a.path && b.path.origin != .modified) := by
    rw [Bool.eq_iff_iff]
    simp only [Bool.and_eq_true, bne_iff_ne, Path.sameAs_iff]
    constructor
    · rintro ⟨⟨origin, index, schema, tail⟩, stored⟩
      exact ⟨⟨origin.symm, index.symm, schema.symm, tail.symm⟩, origin ▸ stored⟩
    · rintro ⟨⟨origin, index, schema, tail⟩, stored⟩
      exact ⟨⟨origin.symm, index.symm, schema.symm, tail.symm⟩, origin ▸ stored⟩
  unfold excludes
  rw [paths]
  cases first : a.admission? with
  | none => cases b.admission? <;> rfl
  | some x =>
    cases second : b.admission? with
    | none => rfl
    | some y =>
      simp only [Admission.excludes_comm (wellFormed_admission ha first)
        (wellFormed_admission hb second)]

theorem exclusive_comm {as bs : List Condition} (ha : ∀ c ∈ as, c.WellFormed)
    (hb : ∀ c ∈ bs, c.WellFormed) : exclusive as bs = exclusive bs as := by
  unfold exclusive
  rw [Bool.eq_iff_iff]
  simp only [List.any_eq_true]
  constructor
  · rintro ⟨a, inA, b, inB, excluded⟩
    exact ⟨b, inB, a, inA, excludes_comm (ha a inA) (hb b inB) ▸ excluded⟩
  · rintro ⟨b, inB, a, inA, excluded⟩
    exact ⟨a, inA, b, inB, excludes_comm (hb b inB) (ha a inA) ▸ excluded⟩

end Condition

namespace StateRule

variable {r other : StateRule}

theorem clashes_comm (hr : r.WellFormed) (ho : other.WellFormed) :
    r.effect.clashes other.effect = other.effect.clashes r.effect := by
  have apart : Effect.disjoint r.effect.subset other.effect.subset =
      Effect.disjoint other.effect.subset r.effect.subset := by
    cases first : r.effect.subset with
    | none => cases other.effect.subset <;> rfl
    | some s =>
      cases second : other.effect.subset with
      | none => rfl
      | some t =>
        simp only [Effect.disjoint]
        rw [Value.any_isIn_comm (hr.subset s first).members (ho.subset t second).members]
  unfold Effect.clashes
  rw [apart, Bool.and_comm r.effect.required, Bool.and_comm r.effect.hidden,
    Bool.or_comm (other.effect.hidden && r.effect.required)]

theorem Compatible.symm {fields : List String} (hr : r.WellFormed) (ho : other.WellFormed)
    (compatible : r.Compatible fields other) : other.Compatible fields r := by
  unfold Compatible at *
  have conflicts : r.effect.conflict? other.effect fields =
      other.effect.conflict? r.effect fields := by
    unfold Effect.conflict?
    simp only [clashes_comm hr ho, Bool.and_comm (r.effect.covers _)]
  rwa [← conflicts, ← Condition.exclusive_comm hr.conditions ho.conditions]

end StateRule

namespace Engine

variable {e : Engine} {definitions others : List Value}

theorem Agree.symm {r other : StateRule} (hr : r.WellFormed) (ho : other.WellFormed)
    (agree : e.Agree r other) : e.Agree other r := by
  intro wanted key s named found sameSchema
  obtain ⟨own, equal, same⟩ := Value.key_of_same sameSchema
  have named' : Key.ofValue r.schema = .ok own := by
    rw [equal, Key.ofValue, Value.key?_toValue]
  have found' : e.catalog.get? own = some s := by
    rw [Catalog.get?, Keyed.find?_congr same]
    exact found
  have back : other.schema.names own = true := by
    rw [Value.names_of_key named]
    exact BEq.symm same
  exact (agree wanted own s named' found' back).symm hr ho

theorem wellFormed_of_admits {rules : List StateRule}
    (formed : ∀ definition ∈ definitions, definition.WellFormed)
    (admitted : List.Forall₂ e.Admits definitions rules) : ∀ r ∈ rules, r.WellFormed := by
  induction admitted with
  | nil => exact fun r none => absurd none List.not_mem_nil
  | cons first _ ih =>
    obtain ⟨here, later⟩ := List.forall_mem_cons.mp formed
    intro r member
    rcases List.mem_cons.mp member with rfl | member
    · exact StateRule.wellFormed_ofValue here first.read
    · exact ih later r member

/-- In another order, the same rules are admitted and agree with each other. -/
theorem accepted_of_perm (formed : ∀ definition ∈ definitions, definition.WellFormed)
    (perm : definitions.Perm others) {rules : List StateRule} {next : Engine}
    (ran : exec (definitions.mapM addStateRule) e = (.ok rules, next)) :
    ∃ rules' next', exec (others.mapM addStateRule) e = (.ok rules', next') ∧
      rules.Perm rules' := by
  obtain ⟨admitted, agreed, among, -⟩ := addStateRules_accepted ran
  obtain ⟨rules', admitted', perm'⟩ : ∃ rules', List.Forall₂ e.Admits others rules' ∧
      rules'.Perm rules := by
    obtain ⟨rules', each, same⟩ := List.perm_comp_forall₂ perm.symm admitted
    exact ⟨rules', each, same⟩
  have whole := wellFormed_of_admits formed admitted
  have mutual' : rules.Pairwise fun r other => e.Agree r other ∧ e.Agree other r := by
    apply among.imp_of_mem
    intro earlier later he hl agree
    exact ⟨agree.symm (whole later hl) (whole earlier he), agree⟩
  have among' : rules'.Pairwise fun r other => e.Agree r other ∧ e.Agree other r :=
    (perm'.pairwise_iff fun agree => agree.symm).mpr mutual'
  obtain ⟨next', ran'⟩ := addStateRules_accepts admitted'
    (fun r member => agreed r (perm'.mem_iff.mp member)) (among'.imp fun agree => agree.2)
  exact ⟨rules', next', ran', perm'.symm⟩

/-- Rules are accepted in every order or in none; and if they are, then states do not depend on the
order. A state says of each field what the rules that apply to the record say together. -/
theorem addStateRules_perm (e : Engine) (known : ∀ r ∈ e.rules.stateRules, r.WellFormed)
    (definitions others : List Value) (perm : definitions.Perm others)
    (formed : ∀ definition ∈ definitions, definition.WellFormed) :
    ((∃ rules, (exec (definitions.mapM addStateRule) e).1 = .ok rules) ↔
      ∃ rules, (exec (others.mapM addStateRule) e).1 = .ok rules) ∧
    ∀ rules a, exec (definitions.mapM addStateRule) e = (.ok rules, a) →
    ∀ rules' b, exec (others.mapM addStateRule) e = (.ok rules', b) →
    ∀ (r : Record) (ancestors descendants : List Record),
      (e.catalog.get? r.schema = none →
        RecordState.compute a.catalog a.rules r ancestors descendants =
            .error (.naming [r.schema] (.unknownSchema r.schema.toValue)) ∧
          RecordState.compute b.catalog b.rules r ancestors descendants =
            .error (.naming [r.schema] (.unknownSchema r.schema.toValue))) ∧
      ∀ s, e.catalog.get? r.schema = some s →
        ∃ x y, RecordState.compute a.catalog a.rules r ancestors descendants = .ok x ∧
          RecordState.compute b.catalog b.rules r ancestors descendants = .ok y ∧
          x.Same y ∧
          x.Summarizes r.schema s ((e.rules.stateRules ++ rules).filter fun rule =>
            rule.applies r ancestors descendants) := by
  have formed' : ∀ definition ∈ others, definition.WellFormed :=
    fun definition member => formed definition (perm.mem_iff.mpr member)
  have accepts {xs ys : List Value} (same : xs.Perm ys)
      (whole : ∀ definition ∈ xs, definition.WellFormed)
      (accepted : ∃ rules, (exec (xs.mapM addStateRule) e).1 = .ok rules) :
      ∃ rules, (exec (ys.mapM addStateRule) e).1 = .ok rules := by
    obtain ⟨rules, accepted⟩ := accepted
    obtain ⟨rules', next', ran', -⟩ := accepted_of_perm whole same (Prod.ext accepted rfl)
    exact ⟨rules', by rw [ran']⟩
  refine ⟨⟨accepts perm formed, accepts perm.symm formed'⟩, ?_⟩
  intro rules a ran rules' b ran' r ancestors descendants
  obtain ⟨admitted, -, -, step⟩ := addStateRules_accepted ran
  obtain ⟨-, -, -, step'⟩ := addStateRules_accepted ran'
  obtain ⟨_, _, same, perm'⟩ := accepted_of_perm formed perm ran
  rw [ran'] at same
  obtain ⟨rfl, -⟩ : rules' = _ ∧ b = _ := by simpa using same
  rw [step.catalog, step'.catalog]
  constructor
  case left =>
    intro unknown
    rw [RecordState.compute_eq, RecordState.compute_eq, Catalog.require, unknown]
    exact ⟨rfl, rfl⟩
  case right =>
    intro s found
    have whole : ∀ rule ∈ e.rules.stateRules ++ rules, rule.WellFormed := by
      intro rule member
      rcases List.mem_append.mp member with old | new
      · exact known rule old
      · exact wellFormed_of_admits formed admitted rule new
    have together : (e.rules.stateRules ++ rules).Perm (e.rules.stateRules ++ rules') :=
      perm'.append_left _
    rw [← step.stateRules] at whole together
    rw [← step'.stateRules] at together
    obtain ⟨x, computed, summary⟩ :=
      RecordState.compute_summarizes found whole ancestors descendants
    obtain ⟨y, computed', summary'⟩ := RecordState.compute_summarizes found
      (fun rule member => whole rule (together.mem_iff.mpr member)) ancestors descendants
    rw [← step.stateRules]
    exact ⟨x, y, computed, computed', summary.same summary' (together.filter _), summary⟩

theorem addStateRules_swap :
    let status : Field :=
      { name := "status", kind := .known .enum, enumValues := [.text "open", .text "done"] }
    let task : Schema := { name := .text "Task", fields := [status] }
    let e : Engine := { catalog := { schemas := [(.text "Task", task)] } }
    let lock : Value := .object [("schema", .text "Task"), ("immutable", .bool true)]
    let limit : Value := .object [("schema", .text "Task"), ("on_fields", .text "status"),
      ("enum_subset", .list [.text "done"]),
      ("conditions", .list [.list [.text "$eventObject.status", .text "eq", .text "open"]])]
    (∃ rules, (exec ([lock, limit].mapM addStateRule) e).1 = .ok rules) ∧
      ∃ rules, (exec ([limit, lock].mapM addStateRule) e).1 = .ok rules := by
  intro status task e lock limit
  have accepted : ∃ rules, (exec ([lock, limit].mapM addStateRule) e).1 = .ok rules :=
    exists_of_isOk (by decide +kernel +zetaReduce)
  have formed : ∀ definition ∈ [lock, limit], definition.WellFormed := by
    intro definition member
    simp only [List.mem_cons, List.not_mem_nil, or_false] at member
    rcases member with rfl | rfl <;> exact Value.wellFormed_of_isPlain rfl rfl
  have none_yet : ∀ r ∈ e.rules.stateRules, r.WellFormed := fun r none => by cases none
  have perm : [lock, limit].Perm [limit, lock] := .swap limit lock []
  exact ⟨accepted, (addStateRules_perm e none_yet _ _ perm formed).1.mp accepted⟩

end Engine

end RecordRules
