import RecordRules.Proofs.Reach
import RecordRules.Proofs.SchemaRegistration
import RecordRules.Proofs.StateRuleOrder

/-!
What the check for contradictions is good for. Conditions that exclude each other do not hold
together, as long as no set is asked for its members; a stored set can meet many values, and two
conditions that it meets can both hold. Main statements: lists of conditions that exclude each
other are not both true of plain data; with the check, however state rules are added, no state
restricts a field to values that it does not declare, and no field is both required and hidden, as
long as the conditions read no sets.
-/
namespace RecordRules

open Step

namespace Value

variable {v : Value}

theorem wellFormed_of_isKey (key : v.isKey = true)
    (sets : ∀ members, v = .set members → v.WellFormed) : v.WellFormed := by
  cases v with
  | null => exact .null
  | bool b => exact .bool b
  | int n => exact .int n
  | float x => exact .float x
  | nan mark => exact .nan mark
  | text s => exact .text s
  | set members => exact sets members rfl
  | _ => cases key

end Value

namespace Condition

/-- What a condition reads is equal to itself, and a set is read only to be compared as a whole.
Membership of a set is a matter of its members. -/
def ReadsPlainly (c : Condition) (scene : Scene) : Prop :=
  c.path.origin ≠ .modified → ∀ v, c.path.resolve scene = some v → v.isNaN = false ∧
    ∀ members, v = .set members → c.operator.isMembership = false ∧ v.WellFormed

structure PlainScene (scene : Scene) : Prop where
  object : ∀ r, scene.object = some r → (Value.object r.data).isPlain = true
  ancestors : ∀ r ∈ scene.ancestors, (Value.object r.data).isPlain = true
  descendants : ∀ r ∈ scene.descendants, (Value.object r.data).isPlain = true

theorem isPlain_descend {v w : Value} (plain : v.isPlain = true) {names : List String}
    (reached : Path.descend v names = some w) : w.isPlain = true := by
  induction names generalizing v with
  | nil =>
    cases v <;> cases reached <;> exact plain
  | cons name rest ih =>
    cases v with
    | object entries =>
      simp only [Path.descend] at reached
      cases found : Keyed.find? entries name with
      | none => simp [found] at reached
      | some inner =>
        rw [found] at reached
        obtain ⟨key, -, member⟩ := Keyed.mem_of_find? found
        exact ih (Value.isPlain_of_entry plain member) reached
    | _ => cases reached

theorem isPlain_follow {r : Record} (plain : (Value.object r.data).isPlain = true)
    {names : List String} {v : Value} (reached : Path.follow r names = some v) :
    v.isPlain = true ∨ v = r.toValue := by
  cases names with
  | nil => exact .inr (Option.some.inj reached).symm
  | cons field rest =>
    have own : (r.get field).isPlain = true := by
      unfold Record.get
      split
      · cases r.id <;> rfl
      · unfold Entries.get
        cases found : Keyed.find? r.data field with
        | none => rfl
        | some v =>
          obtain ⟨key, -, member⟩ := Keyed.mem_of_find? found
          exact Value.isPlain_of_entry plain member
    exact .inl (isPlain_descend own reached)

theorem PlainScene.readsPlainly {scene : Scene} (plain : PlainScene scene) (c : Condition) :
    c.ReadsPlainly scene := by
  intro stored v read
  suffices found : v.isPlain = true ∨ ∃ r : Record, v = r.toValue by
    rcases found with own | ⟨r, rfl⟩
    · cases v with
      | nan mark => cases own
      | set members => cases own
      | _ => exact ⟨rfl, fun members other => nomatch other⟩
    · exact ⟨rfl, fun members other => nomatch other⟩
  unfold Path.resolve at read
  cases origin : c.path.origin with
  | modified => exact absurd origin stored
  | object =>
    rw [origin] at read
    obtain ⟨r, found, reached⟩ := Option.bind_eq_some_iff.mp read
    exact (isPlain_follow (plain.object r found) reached).imp_right fun same => ⟨r, same⟩
  | parent =>
    rw [origin] at read
    obtain ⟨r, found, reached⟩ := Option.bind_eq_some_iff.mp read
    exact (isPlain_follow (plain.ancestors r (Path.mem_of_pick found)) reached).imp_right
      fun same => ⟨r, same⟩
  | child =>
    rw [origin] at read
    obtain ⟨r, found, reached⟩ := Option.bind_eq_some_iff.mp read
    exact (isPlain_follow (plain.descendants r (Path.mem_of_pick found)) reached).imp_right
      fun same => ⟨r, same⟩

/-- A value is among those that are admitted, or else not among those that are rejected. -/
def Admission.Admits (a : Admission) (v : Value) : Prop := v.isIn a.values = a.only

theorem isIn_singleton (v w : Value) : v.isIn [w] = v.same w := by
  simp [Value.isIn]

theorem contains_set {items : List Value} (formed : (Value.set items).WellFormed) {v : Value}
    (noSet : ∀ members, v ≠ .set members) : Operator.contains (.set items) v = v.isIn items := by
  have keys : ∀ w ∈ items, w.isKey = true := by
    cases formed with
    | set keys _ _ => exact keys
  have pool : Operator.pool? (.set items) = some items := by
    simp only [Operator.pool?]
    rw [if_pos (List.all_eq_true.mpr keys)]
  have fit : (v.isKey && v.isIn items) = v.isIn items := by
    rw [Bool.eq_iff_iff, Bool.and_eq_true]
    constructor
    · exact And.right
    · intro inside
      obtain ⟨w, member, equal⟩ := Value.isIn_iff.mp inside
      exact ⟨Value.isKey_of_same equal (keys w member), inside⟩
  unfold Operator.contains
  rw [pool]
  cases v with
  | set members => exact absurd rfl (noSet members)
  | _ => exact fit

theorem contains_text {s : String} {v : Value} (noSet : ∀ members, v ≠ .set members) :
    Operator.contains (.text s) v = v.isIn [.text s] := by
  have formed : (Value.set [.text s]).WellFormed := by
    apply Value.WellFormed.set
    · simp [Value.isKey]
    · exact List.pairwise_singleton _ _
    · simp [Value.WellFormed.text]
  exact contains_set formed noSet

theorem admits_of_holds {c : Condition} (formed : c.WellFormed) {scene : Scene}
    (stored : c.path.origin ≠ .modified) (plain : c.ReadsPlainly scene) {a : Admission}
    (listed : c.admission? = some a) (holds : c.holds scene = true) :
    ∃ v, c.path.resolve scene = some v ∧ a.Admits v := by
  obtain ⟨path, operator, operand⟩ := c
  cases operand with
  | path p => cases listed
  | value w =>
    unfold Condition.holds expected? at holds
    cases read : path.resolve scene with
    | none => simp [read] at holds
    | some v =>
      refine ⟨v, rfl, ?_⟩
      simp only [read] at holds
      have noSet (membership : operator.isMembership = true) : ∀ members, v ≠ .set members := by
        rintro members rfl
        have whole := ((plain stored _ read).2 members rfl).1
        rw [membership] at whole
        cases whole
      have number : v.isNaN = false := (plain stored v read).1
      have whole : w.WellFormed := formed w rfl
      unfold Admission.Admits
      cases operator with
      | eq | neq =>
        by_cases key : w.isKey = true
        · simp only [admission?, key, ↓reduceIte, Option.map_some, Option.some.injEq] at listed
          rw [← listed, isIn_singleton]
          simpa [Operator.compare, Value.equals, number] using holds
        · simp [admission?, key] at listed
      | isIn | notIn =>
        cases w with
        | set items =>
          simp only [admission?, Option.map_some, Option.some.injEq] at listed
          rw [← listed, ← contains_set whole (noSet rfl)]
          simpa [Operator.compare] using holds
        | text s =>
          simp only [admission?, Option.map_some, Option.some.injEq] at listed
          rw [← listed, ← contains_text (noSet rfl)]
          simpa [Operator.compare] using holds
        | _ => simp [admission?] at listed
      | _ => cases listed

theorem Admission.not_admits_both {a b : Admission} (ha : (Value.set a.values).WellFormed)
    (excluded : a.excludes b = true) {v : Value}
    (sets : ∀ members, v = .set members → v.WellFormed) (first : a.Admits v) : ¬ b.Admits v := by
  intro second
  unfold Admission.Admits at first second
  unfold Admission.excludes at excluded
  cases onlyA : a.only with
  | true =>
    rw [onlyA] at first
    obtain ⟨w, member, equal⟩ := Value.isIn_iff.mp first
    have key : w.isKey = true := by
      cases ha with
      | set keys _ _ => exact keys w member
    have formed : v.WellFormed :=
      Value.wellFormed_of_isKey (Value.isKey_of_same equal key) sets
    cases onlyB : b.only with
    | true =>
      rw [onlyB] at second
      have common : w.isIn b.values = true := Value.isIn_of_same (formed.same_symm equal) second
      simp only [onlyA, onlyB, Bool.not_eq_true', List.any_eq_false] at excluded
      exact excluded w member common
    | false =>
      rw [onlyB] at second
      simp only [onlyA, onlyB] at excluded
      have inside := Value.isIn_of_same equal (Value.subset_iff.mp excluded w member)
      rw [second] at inside
      cases inside
  | false =>
    rw [onlyA] at first
    cases onlyB : b.only with
    | true =>
      rw [onlyB] at second
      simp only [onlyA, onlyB] at excluded
      obtain ⟨w, member, equal⟩ := Value.isIn_iff.mp second
      have inside := Value.isIn_of_same equal (Value.subset_iff.mp excluded w member)
      rw [first] at inside
      cases inside
    | false => simp [onlyA, onlyB] at excluded

theorem resolve_of_sameAs {p q : Path} (same : p.sameAs q = true) (scene : Scene) :
    p.resolve scene = q.resolve scene := by
  obtain ⟨origin, index, schema, tail⟩ := Path.sameAs_iff.mp same
  unfold Path.resolve
  rw [origin, index, schema, tail]

theorem not_both_hold {a b : Condition} (ha : a.WellFormed) (hb : b.WellFormed)
    (excluded : excludes a b = true) {scene : Scene} (plainA : a.ReadsPlainly scene)
    (plainB : b.ReadsPlainly scene) (first : a.holds scene = true) : b.holds scene = false := by
  rw [← Bool.not_eq_true]
  intro second
  unfold excludes at excluded
  cases listedA : a.admission? with
  | none => simp [listedA] at excluded
  | some x =>
    cases listedB : b.admission? with
    | none => simp [listedA, listedB] at excluded
    | some y =>
      simp only [listedA, listedB, Bool.and_eq_true, bne_iff_ne] at excluded
      obtain ⟨⟨same, stored⟩, excluded⟩ := excluded
      have stored' : b.path.origin ≠ .modified := (Path.sameAs_iff.mp same).1 ▸ stored
      obtain ⟨v, read, admitted⟩ := admits_of_holds ha stored plainA listedA first
      obtain ⟨w, read', admitted'⟩ := admits_of_holds hb stored' plainB listedB second
      obtain rfl : v = w := by
        rw [resolve_of_sameAs same, read'] at read
        exact (Option.some.inj read).symm
      have sets : ∀ members, v = .set members → v.WellFormed := by
        rintro members rfl
        exact ((plainA stored _ read).2 members rfl).2
      exact Admission.not_admits_both (wellFormed_admission ha listedA) excluded sets admitted
        admitted'

theorem not_allHold_both {as bs : List Condition} (ha : ∀ c ∈ as, c.WellFormed)
    (hb : ∀ c ∈ bs, c.WellFormed) (excluded : exclusive as bs = true) {scene : Scene}
    (plainA : ∀ c ∈ as, c.ReadsPlainly scene) (plainB : ∀ c ∈ bs, c.ReadsPlainly scene)
    (first : allHold as scene = true) : allHold bs scene = false := by
  rw [← Bool.not_eq_true]
  intro second
  unfold exclusive at excluded
  simp only [List.any_eq_true] at excluded
  obtain ⟨a, inA, b, inB, excluded⟩ := excluded
  have holdsA := List.all_eq_true.mp first a inA
  have holdsB := List.all_eq_true.mp second b inB
  rw [not_both_hold (ha a inA) (hb b inB) excluded (plainA a inA) (plainB b inB) holdsA] at holdsB
  cases holdsB

/-- Where the check finds that two given lists of conditions exclude each other, they are not both
true: whatever plain data the records of the scene hold, related ones included, and whichever
fields were modified. -/
theorem not_allHold_of_exclusive {given others : Value} (formed : given.WellFormed)
    (formed' : others.WellFormed) {as bs : List Condition} (read : readAll given = .ok as)
    (read' : readAll others = .ok bs) (excluded : exclusive as bs = true) {scene : Scene}
    (plain : PlainScene scene) : ¬ (allHold as scene = true ∧ allHold bs scene = true) := by
  rintro ⟨first, second⟩
  have refused := not_allHold_both (wellFormed_readAll formed read)
    (wellFormed_readAll formed' read') excluded (fun c _ => plain.readsPlainly c)
    (fun c _ => plain.readsPlainly c) first
  rw [second] at refused
  cases refused

/-- Of a task that is open or new, it is not said that it is done. -/
theorem open_task_not_done :
    let given : Value := .list [.list [.text "status", .text "in",
      .list [.text "open", .text "new"]], .list [.text "effort", .text "gt", .int 2]]
    let others : Value := .list [.list [.text "status", .text "eq", .text "done"]]
    let task : Record :=
      ⟨.text "Task", .int 1, [("status", .text "open"), ("effort", .int 3)]⟩
    let scene : Scene := { object := some task, modified := [.text "status"] }
    ∃ as bs, readAll given = .ok as ∧ readAll others = .ok bs ∧ exclusive as bs = true ∧
      allHold as scene = true ∧ ¬ (allHold as scene = true ∧ allHold bs scene = true) := by
  intro given others task scene
  have excluded : ((readAll given).bind fun as => (readAll others).map fun bs =>
      exclusive as bs && allHold as scene).toOption = some true := by
    decide +kernel +zetaReduce
  cases read : readAll given with
  | error failure => simp [read, Except.bind, Except.toOption] at excluded
  | ok as =>
    cases read' : readAll others with
    | error failure => simp [read, read', Except.bind, Except.map, Except.toOption] at excluded
    | ok bs =>
      simp only [read, read', Except.bind, Except.map, Except.toOption, Option.some.injEq,
        Bool.and_eq_true] at excluded
      have plain : PlainScene scene := by
        constructor
        · rintro _ ⟨⟩
          rfl
        · simp [scene]
        · simp [scene]
      exact ⟨as, bs, rfl, rfl, excluded.1, excluded.2,
        not_allHold_of_exclusive (Value.wellFormed_of_isPlain rfl rfl)
          (Value.wellFormed_of_isPlain rfl rfl) read read' excluded.1 plain⟩

end Condition

namespace Effect

variable {effect : Effect} {s : Schema} {f : Field}

theorem mem_fieldsIn (covers : effect.covers f.name = true) (declared : f ∈ s.fields) :
    f.name ∈ effect.fieldsIn s := by
  unfold fieldsIn
  split
  · exact List.mem_map_of_mem declared
  · rename_i some_fields
    unfold Effect.covers at covers
    rw [Bool.not_eq_true] at some_fields
    rw [some_fields, Bool.false_or] at covers
    obtain ⟨v, listed, equal⟩ := Value.isIn_iff.mp covers
    obtain rfl := Value.text_same_iff.mp equal
    have known : s.declares f.name = true := Schema.declares_iff.mpr ⟨f, declared, rfl⟩
    exact List.mem_filterMap.mpr ⟨_, listed, by simp [known]⟩

end Effect

theorem Schema.Checked.field?_name {s : Schema} (checked : s.Checked) {f : Field}
    (declared : f ∈ s.fields) : s.field? f.name = some f := by
  unfold Schema.field?
  cases found : s.fields.find? fun g => g.name == f.name with
  | none => simpa using List.find?_eq_none.mp found f declared
  | some g =>
    have same : g.name = f.name := by simpa using List.find?_some found
    rw [checked.eq_of_name (List.mem_of_find?_eq_some found) declared same]

namespace StateRule

theorem declared_of_checkSubset {r : StateRule} {s : Schema} (schema : s.Checked)
    (fitting : r.checkSubset s = .ok ()) {f : Field} (declared : f ∈ s.fields)
    (enumeration : f.isOf .enum = true) (covers : r.effect.covers f.name = true)
    {own : List Value} (restricts : r.effect.subset = some own) :
    ∀ v ∈ own, v.isIn f.enumValues = true := by
  unfold checkSubset at fitting
  rw [restricts] at fitting
  have each := forM_eq_ok.mp fitting f.name (Effect.mem_fieldsIn covers declared)
  simp only [schema.field?_name declared, enumeration, Bool.not_true, Bool.false_eq_true,
    ↓reduceIte] at each
  split at each
  · cases each
  · split at each
    · rename_i none_extra
      intro v member
      simpa using List.filter_eq_nil_iff.mp none_extra v member
    · obtain ⟨_, -, refused⟩ := bind_eq_ok.mp each
      cases refused

theorem Compatible.not_both {a b : StateRule} {s : Schema}
    (compatible : a.Compatible s.fieldNames b) {f : Field} (declared : f ∈ s.fields)
    (coversA : a.effect.covers f.name = true) (coversB : b.effect.covers f.name = true)
    (clash : a.effect.clashes b.effect = true) :
    Condition.exclusive a.conditions b.conditions = true := by
  rcases compatible with none | exclusive
  · unfold Effect.conflict? at none
    have apart := List.find?_eq_none.mp none f.name (List.mem_map_of_mem declared)
    simp [coversA, coversB, clash] at apart
  · exact exclusive

end StateRule

namespace Engine

/-- Contradictions are rejected, every state rule was admitted, and any two agree. -/
structure Consistent (e : Engine) : Prop where
  rejects : e.settings.rejectContradictoryState = true
  wellFormed : ∀ r ∈ e.rules.stateRules, r.WellFormed
  admitted : ∀ r ∈ e.rules.stateRules, ∃ definition, e.Admits definition r
  agree : e.rules.stateRules.Pairwise fun earlier later => e.Agree later earlier

variable {e next : Engine} {definition : Value}

theorem addStateRule_cases (e : Engine) (definition : Value) :
    (exec (addStateRule definition) e).2 = e ∨
      ∃ r next, exec (addStateRule definition) e = (.ok r, next) := by
  unfold addStateRule
  rw [exec_bind, exec_ofExcept]
  cases StateRule.ofValue definition with
  | error failure => exact .inl rfl
  | ok r =>
    simp only [exec_bind, exec_get, exec_ofExcept]
    split
    · exact .inr ⟨r, _, rfl⟩
    · rename_i refused
      exact .inl (Prod.mk.inj refused).2.symm

theorem Consistent.addStateRule (consistent : e.Consistent) (formed : definition.WellFormed) :
    ∃ added, e.Extends added (exec (Engine.addStateRule definition) e).2 ∧
      (exec (Engine.addStateRule definition) e).2.Consistent := by
  rcases addStateRule_cases e definition with same | ⟨r, next, ran⟩
  · rw [same]
    exact ⟨[], .refl e, consistent⟩
  · obtain ⟨admitted, agreed, step⟩ := addStateRule_accepted ran
    rw [ran]
    refine ⟨[r], step, ?_⟩
    constructor
    case rejects => rw [step.settings, consistent.rejects]
    case wellFormed =>
      rw [step.stateRules]
      intro other listed
      rcases List.mem_append.mp listed with old | new
      · exact consistent.wellFormed other old
      · obtain rfl := List.mem_singleton.mp new
        exact StateRule.wellFormed_ofValue formed admitted.read
    case admitted =>
      rw [step.stateRules]
      intro other listed
      rcases List.mem_append.mp listed with old | new
      · obtain ⟨definition, before⟩ := consistent.admitted other old
        exact ⟨definition, step.admits_iff.mpr before⟩
      · obtain rfl := List.mem_singleton.mp new
        exact ⟨definition, step.admits_iff.mpr admitted⟩
    case agree =>
      rw [step.stateRules]
      apply List.pairwise_append.mpr
      refine ⟨consistent.agree.imp step.agree_iff.mpr, List.pairwise_singleton _ r, ?_⟩
      intro other old new member
      obtain rfl := List.mem_singleton.mp member
      exact step.agree_iff.mpr (agreed other old)

def addStateRules (e : Engine) (definitions : List Value) : Engine :=
  definitions.foldl (fun e definition => (exec (Engine.addStateRule definition) e).2) e

theorem Consistent.addStateRules {definitions : List Value} (consistent : e.Consistent)
    (formed : ∀ definition ∈ definitions, definition.WellFormed) :
    ∃ added, e.Extends added (e.addStateRules definitions) ∧
      (e.addStateRules definitions).Consistent := by
  induction definitions generalizing e with
  | nil => exact ⟨[], .refl e, consistent⟩
  | cons definition rest ih =>
    obtain ⟨here, later⟩ := List.forall_mem_cons.mp formed
    obtain ⟨first, step, kept⟩ := consistent.addStateRule here
    obtain ⟨others, steps, kept⟩ := ih kept later
    exact ⟨first ++ others, step.trans steps, kept⟩

theorem Admits.schema {r : StateRule} (admitted : e.Admits definition r) {schema : Key}
    (names : r.schema.names schema = true) :
    ∃ key s, Key.ofValue r.schema = .ok key ∧ (key == schema) = true ∧
      e.catalog.get? key = some s ∧ e.catalog.get? schema = some s ∧ r.checkSubset s = .ok () := by
  obtain ⟨key, s, named, found, fitting⟩ := admitted.fitting
  rw [Value.names_of_key named] at names
  refine ⟨key, s, named, names, found, ?_, fitting⟩
  rw [Catalog.get?, ← Keyed.find?_congr names]
  exact found

section

variable {schema : Key} {s : Schema}

theorem Consistent.compatible_of_agree (consistent : e.Consistent)
    (found : e.catalog.get? schema = some s) {a b : StateRule} (ha : a ∈ e.rules.stateRules)
    (namesA : a.schema.names schema = true) (namesB : b.schema.names schema = true)
    (agree : e.Agree a b) : a.Compatible s.fieldNames b := by
  obtain ⟨definition, admitted⟩ := consistent.admitted a ha
  obtain ⟨key, t, named, same, known, found', -⟩ := admitted.schema namesA
  obtain rfl : s = t := Option.some.inj (found.symm.trans found')
  exact agree consistent.rejects key s named known (Value.names_of_beq namesB (BEq.symm same))

theorem Consistent.compatible (consistent : e.Consistent)
    (found : e.catalog.get? schema = some s) {a b : StateRule} (ha : a ∈ e.rules.stateRules)
    (hb : b ∈ e.rules.stateRules) (namesA : a.schema.names schema = true)
    (namesB : b.schema.names schema = true) : a = b ∨ a.Compatible s.fieldNames b := by
  have turned : e.rules.stateRules.Pairwise fun earlier later => e.Agree earlier later := by
    apply consistent.agree.imp_of_mem
    intro earlier later he hl agree
    exact agree.symm (consistent.wellFormed later hl) (consistent.wellFormed earlier he)
  have agree : a = b ∨ e.Agree a b :=
    List.Pairwise.forall_of_forall_of_flip (R := fun a b => a = b ∨ e.Agree a b)
      (fun _ _ => .inl rfl) (turned.imp .inr) (consistent.agree.imp .inr) ha hb
  exact agree.imp_right (consistent.compatible_of_agree found ha namesA namesB)

theorem Consistent.not_clashes (consistent : e.Consistent) {r : Record}
    {ancestors descendants : List Record}
    (plain : ∀ rule ∈ e.rules.stateRules, rule.schema.names r.schema = true →
      ∀ c ∈ rule.conditions, c.ReadsPlainly (Scene.ofRecord r ancestors descendants))
    {a b : StateRule} (ha : a ∈ e.rules.stateRules) (hb : b ∈ e.rules.stateRules)
    (appliesA : a.applies r ancestors descendants = true)
    (appliesB : b.applies r ancestors descendants = true) (compatible : a.Compatible s.fieldNames b)
    {f : Field} (declared : f ∈ s.fields) (coversA : a.effect.covers f.name = true)
    (coversB : b.effect.covers f.name = true) : a.effect.clashes b.effect = false := by
  rw [← Bool.not_eq_true]
  intro clash
  unfold StateRule.applies at appliesA appliesB
  rw [Bool.and_eq_true] at appliesA appliesB
  obtain ⟨namesA, holdsA⟩ := appliesA
  obtain ⟨namesB, holdsB⟩ := appliesB
  have exclusive := compatible.not_both declared coversA coversB clash
  have apart := Condition.not_allHold_both (consistent.wellFormed a ha).conditions
    (consistent.wellFormed b hb).conditions exclusive (plain a ha namesA) (plain b hb namesB) holdsA
  rw [holdsB] at apart
  cases apart

theorem Consistent.not_required_and_hidden (consistent : e.Consistent) {r : Record}
    (found : e.catalog.get? r.schema = some s) {ancestors descendants : List Record}
    (plain : ∀ rule ∈ e.rules.stateRules, rule.schema.names r.schema = true →
      ∀ c ∈ rule.conditions, c.ReadsPlainly (Scene.ofRecord r ancestors descendants))
    {a b : StateRule} (ha : a ∈ e.rules.stateRules) (hb : b ∈ e.rules.stateRules)
    (appliesA : a.applies r ancestors descendants = true)
    (appliesB : b.applies r ancestors descendants = true) {f : Field} (declared : f ∈ s.fields)
    (coversA : a.effect.covers f.name = true) (coversB : b.effect.covers f.name = true)
    (required : a.effect.required = true) : b.effect.hidden = false := by
  rw [← Bool.not_eq_true]
  intro hidden
  have namesA := (Bool.and_eq_true_iff.mp appliesA).1
  have namesB := (Bool.and_eq_true_iff.mp appliesB).1
  rcases consistent.compatible found ha hb namesA namesB with rfl | compatible
  · obtain ⟨definition, admitted⟩ := consistent.admitted a ha
    have apart := admitted.consistent consistent.rejects
    rw [required, hidden] at apart
    cases apart
  · have clash : a.effect.clashes b.effect = true := by
      unfold Effect.clashes
      simp [required, hidden]
    rw [consistent.not_clashes plain ha hb appliesA appliesB compatible declared coversA coversB]
      at clash
    cases clash

theorem Consistent.declared (consistent : e.Consistent) (checked : s.Checked) {r : Record}
    (found : e.catalog.get? r.schema = some s) {ancestors descendants : List Record} {f : Field}
    (declared : f ∈ s.fields) {flags : Flags}
    (combines : flags.Combines f ((e.rules.stateRules.filter fun rule =>
      rule.applies r ancestors descendants).filter fun rule => rule.effect.covers f.name))
    {values : List Value} (restricted : flags.subset = some values) :
    f.isOf .enum = true ∧ ∀ v ∈ values, v.isIn f.enumValues = true := by
  obtain ⟨enumeration, rule, among, own, restricts, inside⟩ :=
    combines.exists_restriction restricted
  simp only [List.mem_filter] at among
  obtain ⟨⟨among, applies⟩, covers⟩ := among
  obtain ⟨definition, admitted⟩ := consistent.admitted rule among
  obtain ⟨_, t, -, -, -, same, fitting⟩ := admitted.schema (Bool.and_eq_true_iff.mp applies).1
  obtain rfl : s = t := Option.some.inj (found.symm.trans same)
  refine ⟨enumeration, fun v listed => ?_⟩
  obtain ⟨w, common, equal⟩ := Value.isIn_iff.mp (inside v listed)
  have known := StateRule.declared_of_checkSubset checked fitting declared enumeration covers
    restricts w common
  exact Value.isIn_of_same equal known

end

/-- However state rules are added while contradictions are rejected: no state restricts a field to
values that it does not declare, and none has a field that is both required and hidden, as long as
the conditions of the rules look into no stored set and read nothing that differs from itself. -/
theorem addStateRules_uncontradicted (e : Engine) (registered : e.catalog.Registered)
    (fresh : e.rules.stateRules = []) (rejects : e.settings.rejectContradictoryState = true)
    (definitions : List Value) (formed : ∀ definition ∈ definitions, definition.WellFormed)
    (r : Record) (ancestors descendants : List Record) (state : RecordState)
    (computed : RecordState.compute (e.addStateRules definitions).catalog
      (e.addStateRules definitions).rules r ancestors descendants = .ok state) :
    (∀ entry ∈ state.fields, ∀ values, entry.2.subset = some values →
      ∃ s f, e.catalog.get? r.schema = some s ∧ s.field? entry.1 = some f ∧
        f.isOf .enum = true ∧ ∀ v ∈ values, v.isIn f.enumValues = true) ∧
    ((∀ rule ∈ (e.addStateRules definitions).rules.stateRules,
        rule.schema.names r.schema = true → ∀ c ∈ rule.conditions,
          c.ReadsPlainly (Scene.ofRecord r ancestors descendants)) →
      ∀ entry ∈ state.fields, (entry.2.required && entry.2.hidden) = false) := by
  have start : e.Consistent := by
    constructor
    case rejects => exact rejects
    all_goals
      rw [fresh]
      simp
  obtain ⟨added, step, consistent⟩ := start.addStateRules formed
  rw [step.catalog] at computed
  cases found : e.catalog.get? r.schema with
  | none => simp [RecordState.compute_eq, Catalog.require, found, Except.map] at computed
  | some s =>
    obtain ⟨_, computed', listed⟩ :=
      RecordState.compute_summarizes found consistent.wellFormed ancestors descendants
    obtain rfl := Except.ok.inj (computed'.symm.trans computed)
    have found' : (e.addStateRules definitions).catalog.get? r.schema = some s := by
      rw [step.catalog, found]
    have applied {rule : StateRule} {f : Field}
        (member : rule ∈ ((e.addStateRules definitions).rules.stateRules.filter fun rule =>
          rule.applies r ancestors descendants).filter fun rule => rule.effect.covers f.name) :
        rule ∈ (e.addStateRules definitions).rules.stateRules ∧
          rule.applies r ancestors descendants = true ∧ rule.effect.covers f.name = true := by
      simp only [List.mem_filter] at member
      exact ⟨member.1.1, member.1.2, member.2⟩
    constructor
    case left =>
      intro entry member values restricted
      obtain ⟨f, declared, name, combines⟩ := listed.of_mem member
      have checked := (registered.of_get? found).1
      obtain ⟨enumeration, known⟩ := consistent.declared checked found' declared combines restricted
      exact ⟨s, f, rfl, name ▸ checked.field?_name declared, enumeration, known⟩
    case right =>
      intro plain entry member
      obtain ⟨f, declared, name, combines⟩ := listed.of_mem member
      rw [combines.required, combines.hidden, ← Bool.not_eq_true, Bool.and_eq_true]
      simp only [List.any_eq_true]
      rintro ⟨⟨a, inA, required⟩, b, inB, hidden⟩
      obtain ⟨ha, appliesA, coversA⟩ := applied inA
      obtain ⟨hb, appliesB, coversB⟩ := applied inB
      have visible := consistent.not_required_and_hidden found' plain ha hb appliesA appliesB
        declared coversA coversB required
      rw [hidden] at visible
      cases visible

theorem addStateRules_open_task :
    let status : Field :=
      { name := "status", kind := .known .enum, enumValues := [.text "open", .text "done"] }
    let title : Field := { name := "title", kind := .known .text }
    let task : Schema := { name := .text "Task", fields := [status, title] }
    let e : Engine := { catalog := (exec (Catalog.register task) {}).2 }
    let given (status : String) (flag : String) : Value :=
      .object [("schema", .text "Task"), ("on_fields", .text "title"), (flag, .bool true),
        ("conditions", .list [.list [.text "$eventObject.status", .text "eq", .text status]])]
    let definitions := [given "open" "required", given "done" "hidden"]
    let r : Record := ⟨.text "Task", .text "first", [("status", .text "open")]⟩
    ∃ state, RecordState.compute (e.addStateRules definitions).catalog
        (e.addStateRules definitions).rules r [] [] = .ok state ∧
      state.fields.names = ["title"] ∧
      ∀ entry ∈ state.fields, (entry.2.required && entry.2.hidden) = false := by
  intro status title task e given definitions r
  have checked : task.Checked := by
    refine ⟨rfl, fun f listed => ?_⟩
    rcases List.mem_pair.mp listed with rfl | rfl <;>
      simp [status, title, Field.check, Field.isOf, GivenKind.isKind, Field.target?,
        Field.checkBounds, Value.isTrue, Value.isNull]
  have registered : e.catalog.Registered := .register .empty checked
  have formed : ∀ definition ∈ definitions, definition.WellFormed := by
    intro definition member
    rcases List.mem_pair.mp member with rfl | rfl <;> exact Value.wellFormed_of_isPlain rfl rfl
  have plain : Condition.PlainScene (Scene.ofRecord r [] []) := by
    constructor
    · rintro _ ⟨⟩
      rfl
    · simp [Scene.ofRecord]
    · simp [Scene.ofRecord]
  have listed : ((RecordState.compute (e.addStateRules definitions).catalog
      (e.addStateRules definitions).rules r [] []).map fun state => state.fields.names).toOption =
        some ["title"] := by
    decide +kernel +zetaReduce
  cases computed : RecordState.compute (e.addStateRules definitions).catalog
      (e.addStateRules definitions).rules r [] [] with
  | error failure => simp [computed, Except.map, Except.toOption] at listed
  | ok state =>
    refine ⟨state, rfl, by simpa [computed, Except.map, Except.toOption] using listed, ?_⟩
    exact (addStateRules_uncontradicted e registered rfl rfl definitions formed r [] [] state
      computed).2 fun rule _ _ c _ => plain.readsPlainly c

/-- Both rules are accepted, since nothing is in both lists; but a stored set of two tags meets
both, and then the title is required and hidden. -/
theorem tagged_title_required_and_hidden :
    let tags : Field := { name := "tags", kind := .known .json }
    let title : Field := { name := "title", kind := .known .text }
    let task : Schema := { name := .text "Task", fields := [tags, title] }
    let e : Engine := { catalog := (exec (Catalog.register task) {}).2 }
    let given (tag : String) (flag : String) : Value :=
      .object [("schema", .text "Task"), ("on_fields", .text "title"), (flag, .bool true),
        ("conditions", .list
          [.list [.text "$eventObject.tags", .text "in", .list [.text tag]]])]
    let definitions := [given "title" "required", given "note" "hidden"]
    let r : Record :=
      ⟨.text "Task", .text "first", [("tags", .set [.text "title", .text "note"])]⟩
    e.settings.rejectContradictoryState = true ∧
      (exec (definitions.mapM addStateRule) e).1.isOk = true ∧
      ∃ state, RecordState.compute (e.addStateRules definitions).catalog
          (e.addStateRules definitions).rules r [] [] = .ok state ∧
        ∃ entry ∈ state.fields, entry.2.required = true ∧ entry.2.hidden = true := by
  intro tags title task e given definitions r
  have accepted : (exec (definitions.mapM addStateRule) e).1.isOk = true := by
    decide +kernel +zetaReduce
  have marked : ((RecordState.compute (e.addStateRules definitions).catalog
      (e.addStateRules definitions).rules r [] []).map fun state =>
        state.fields.any fun entry => entry.2.required && entry.2.hidden).toOption = some true := by
    decide +kernel +zetaReduce
  refine ⟨rfl, accepted, ?_⟩
  cases computed : RecordState.compute (e.addStateRules definitions).catalog
      (e.addStateRules definitions).rules r [] [] with
  | error failure => simp [computed, Except.map, Except.toOption] at marked
  | ok state =>
    refine ⟨state, rfl, ?_⟩
    simpa [computed, Except.map, Except.toOption] using marked

end Engine

end RecordRules
