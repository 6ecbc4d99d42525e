import RecordRules.Proofs.Contradictions

/-!
Common values. Restrictions on an enumeration are compared two at a time when rules are accepted, so
what is certain of rules that apply together is that any two of them leave a common value. Main
statement: the values that a state leaves an enumeration run out only if a rule that stands alone
leaves none, or if at least three rules restrict it; and values are allowed as long as the state
leaves some. Three rules can leave none.
-/
namespace RecordRules

open Step

namespace Value

theorem isIn_distinct {members : List Value} {v : Value} (inside : v.isIn members = true) :
    v.isIn (distinct members) = true := by
  suffices kept : ∀ seen, v.isIn members = true ∨ v.isIn seen = true → v.isIn (members.foldl
      (fun seen w => if w.isIn seen then seen else seen ++ [w]) seen) = true from
    kept [] (.inl inside)
  clear inside
  induction members with
  | nil =>
    rintro seen (none | found)
    · cases none
    · exact found
  | cons w rest ih =>
    intro seen inside
    rw [List.foldl_cons]
    apply ih
    simp only [isIn, List.any_cons, Bool.or_eq_true] at inside
    rcases inside with (here | later) | before
    · right
      split
      · rename_i known
        exact isIn_of_same here known
      · simp [isIn, here]
    · exact .inl later
    · right
      split
      · exact before
      · simp only [isIn, List.any_append, before, Bool.true_or]

theorem distinct_ne_nil {members : List Value} (some : members ≠ []) : distinct members ≠ [] := by
  have kept (members : List Value) : ∀ seen, seen ≠ [] → members.foldl
      (fun seen w => if w.isIn seen then seen else seen ++ [w]) seen ≠ [] := by
    induction members with
    | nil => exact fun seen some => some
    | cons w rest ih =>
      intro seen some
      apply ih
      dsimp only
      split
      · exact some
      · exact List.append_ne_nil_of_left_ne_nil some [w]
  cases members with
  | nil => exact absurd rfl some
  | cons v rest => exact kept rest [v] (List.cons_ne_nil v [])

end Value

def Effect.Meets (a b : Effect) : Prop :=
  ∀ s t, a.subset = some s → b.subset = some t → ∃ v ∈ s, v.isIn t = true

theorem Effect.meets_of_not_clashes {a b : Effect} (apart : a.clashes b = false) : a.Meets b := by
  intro s t restrictsA restrictsB
  simp only [clashes, Bool.or_eq_false_iff, restrictsA, restrictsB, disjoint] at apart
  simpa using apart.2

def RuleBook.restricting (b : RuleBook) (r : Record) (ancestors descendants : List Record)
    (field : String) : List StateRule :=
  ((b.stateRules.filter fun rule => rule.applies r ancestors descendants).filter fun rule =>
    rule.effect.covers field).filter fun rule => rule.effect.subset.isSome

theorem StateRule.restrictions_filter {rules : List StateRule} {f : Field}
    (enumeration : f.isOf .enum = true) :
    restrictions rules f = (rules.filter fun rule => rule.effect.subset.isSome).filterMap
      fun rule => rule.effect.subset := by
  unfold restrictions
  rw [if_pos enumeration, List.filterMap_filter]
  congr 1
  funext rule
  cases rule.effect.subset <;> rfl

theorem Flags.IsMeet.ne_nil {subset : Option (List Value)} {restrictions : List (List Value)}
    (meet : IsMeet subset restrictions) {v : Value} (formed : v.WellFormed)
    (common : ∀ own ∈ restrictions, v.isIn own = true) : subset ≠ some [] := by
  intro none
  have inside := (meet.isIn_iff [] none v formed).mpr common
  cases inside

namespace Flags

variable {flags : Flags} {f : Field} {rules : List StateRule}

/-- Where any two restrictions have a common value, it takes three of them to leave none, unless one
alone does. -/
theorem Combines.emptied (combines : flags.Combines f rules)
    (enumeration : f.isOf .enum = true) (formed : ∀ rule ∈ rules, rule.WellFormed)
    (meets : (rules.filter fun rule => rule.effect.subset.isSome).Pairwise
      fun a b => a.effect.Meets b.effect) (none : flags.subset = some []) :
    (∃ rule, rules.filter (fun rule => rule.effect.subset.isSome) = [rule] ∧
        rule.effect.subset = some []) ∨
      3 ≤ (rules.filter fun rule => rule.effect.subset.isSome).length := by
  have meet := combines.subset
  rw [StateRule.restrictions_filter enumeration] at meet
  have each : ∀ rule ∈ rules.filter fun rule => rule.effect.subset.isSome,
      rule.WellFormed ∧ ∃ own, rule.effect.subset = some own := by
    intro rule member
    obtain ⟨listed, restricts⟩ := List.mem_filter.mp member
    exact ⟨formed rule listed, Option.isSome_iff_exists.mp restricts⟩
  generalize rules.filter (fun rule => rule.effect.subset.isSome) = restricting at meet meets each
  match restricting with
  | [] =>
    rw [none] at meet
    cases meet.none_iff.mpr rfl
  | [a] =>
    obtain ⟨whole, own, restricts⟩ := each a List.mem_cons_self
    left
    refine ⟨a, rfl, ?_⟩
    cases own with
    | nil => exact restricts
    | cons v rest =>
      have known := (whole.subset _ restricts).members v List.mem_cons_self
      refine absurd none (meet.ne_nil known ?_)
      simp [restricts, Value.isIn, known.same_refl]
  | [a, b] =>
    obtain ⟨wholeA, s, restrictsA⟩ := each a List.mem_cons_self
    obtain ⟨wholeB, t, restrictsB⟩ := each b (List.mem_cons_of_mem a List.mem_cons_self)
    obtain ⟨v, member, common⟩ := (List.pairwise_pair.mp meets) s t restrictsA restrictsB
    have known := (wholeA.subset s restrictsA).members v member
    refine absurd none (meet.ne_nil known ?_)
    have own : v.isIn s = true := Value.isIn_iff.mpr ⟨v, member, known.same_refl⟩
    simp [restrictsA, restrictsB, own, common]
  | a :: b :: c :: rest =>
    right
    simp

end Flags

theorem Flags.eq_of_isDefault {flags : Flags} (default : flags.isDefault = true) : flags = {} := by
  obtain ⟨immutable, required, hidden, subset⟩ := flags
  simpa [isDefault, and_assoc] using default

namespace RecordState

theorem flagsOf_ofRules {s : Schema} (schema : Key) {rules : List StateRule}
    (formed : ∀ r ∈ rules, r.WellFormed) {f : Field} (named : f ∈ s.namedFields) :
    (ofRules schema s rules).flagsOf f.name = mergedFlags rules f := by
  have listed : f.name ∈ s.fieldNames :=
    List.mem_map_of_mem (Schema.mem_fields_of_mem_namedFields named)
  rw [← said_mergedEffects named formed, said, flagsOf, ofRules, Keyed.find?_filterMap,
    if_pos listed]
  cases (mergedEffects s rules).find? f.name with
  | none => rfl
  | some flags =>
    cases default : flags.isDefault with
    | false => simp [Option.filter_some, default]
    | true => simpa [Option.filter_some, default] using (Flags.eq_of_isDefault default).symm

theorem eq_of_mem_ofRules {s : Schema} {schema : Key} {rules : List StateRule}
    {entry : String × Flags} (listed : entry ∈ (ofRules schema s rules).fields) :
    ∃ f ∈ s.fields, entry = (f.name, (ofRules schema s rules).flagsOf f.name) := by
  obtain ⟨name, named, made⟩ := List.mem_filterMap.mp listed
  obtain ⟨flags, marked, rfl⟩ := Option.map_eq_some_iff.mp made
  obtain ⟨f, declared, rfl⟩ := List.mem_map.mp named
  refine ⟨f, declared, ?_⟩
  rw [flagsOf, ofRules, Keyed.find?_filterMap, if_pos named, marked, Option.getD_some]

theorem allowed?_eq_nil_iff {state : RecordState} {f : Field}
    (formed : ∀ values, (state.flagsOf f.name).subset = some values →
      (Value.set values).WellFormed)
    (declared : ∀ values, (state.flagsOf f.name).subset = some values →
      ∀ v ∈ values, v.isIn f.enumValues = true)
    {allowed : Option (List Value)} (answered : state.allowed? f = .ok allowed) :
    allowed = some [] ↔ (state.flagsOf f.name).subset = some [] := by
  unfold allowed? at answered
  split at answered
  · obtain rfl := Except.ok.inj answered
    rfl
  · rename_i listed
    obtain ⟨known, collected, answered⟩ := bind_eq_ok.mp answered
    obtain rfl := Except.ok.inj answered
    obtain ⟨_, same, collected⟩ := bind_eq_ok.mp collected
    obtain rfl := Except.ok.inj same
    obtain rfl : Value.distinct f.enumValues = known := by
      split at collected
      · cases collected
      · exact Except.ok.inj collected
    rw [Option.some.injEq]
    cases left : (state.flagsOf f.name).subset with
    | none => simpa using Value.distinct_ne_nil (by simpa using listed)
    | some values =>
      dsimp only
      cases values with
      | nil => simp [Value.meet]
      | cons v rest =>
        have own := (formed _ left).members v List.mem_cons_self
        have here : v.isIn (v :: rest) = true :=
          Value.isIn_iff.mpr ⟨v, List.mem_cons_self, own.same_refl⟩
        have there := Value.isIn_distinct (declared _ left v List.mem_cons_self)
        have common := (Value.isIn_meet own).mpr ⟨there, here⟩
        simp only [Option.some.injEq, reduceCtorEq, iff_false]
        intro none
        rw [none] at common
        cases common

end RecordState

namespace Engine

/-- However state rules are added while contradictions are rejected, as long as the conditions of
the rules look into no stored set: any two rules that restrict a field of a record leave it a common
value. So the values of the field only run out if a single rule leaves none, or if at least three
rules restrict it; and then only is nothing allowed. -/
theorem addStateRules_overlapping (e : Engine) (registered : e.catalog.Registered)
    (fresh : e.rules.stateRules = []) (rejects : e.settings.rejectContradictoryState = true)
    (definitions : List Value) (formed : ∀ definition ∈ definitions, definition.WellFormed)
    (r : Record) (ancestors descendants : List Record)
    (plain : ∀ rule ∈ (e.addStateRules definitions).rules.stateRules,
      rule.schema.names r.schema = true → ∀ c ∈ rule.conditions,
        c.ReadsPlainly (Scene.ofRecord r ancestors descendants))
    (state : RecordState) (computed : RecordState.compute (e.addStateRules definitions).catalog
      (e.addStateRules definitions).rules r ancestors descendants = .ok state) :
    ∃ s, e.catalog.get? r.schema = some s ∧
      (∀ entry ∈ state.fields, ∃ f ∈ s.fields, entry = (f.name, state.flagsOf f.name)) ∧
      ∀ f ∈ s.fields,
        let restricting :=
          (e.addStateRules definitions).rules.restricting r ancestors descendants f.name
        restricting.Pairwise (fun a b => a.effect.Meets b.effect) ∧
        ((state.flagsOf f.name).subset = some [] → f.isOf .enum = true ∧
          ((∃ rule, restricting = [rule] ∧ rule.effect.subset = some []) ∨
            3 ≤ restricting.length)) ∧
        ∀ allowed, state.allowed? f = .ok allowed →
          (allowed = some [] ↔ (state.flagsOf f.name).subset = some []) := by
  have start : e.Consistent := by
    constructor
    case rejects => exact rejects
    all_goals
      rw [fresh]
      simp
  obtain ⟨added, step, consistent⟩ := start.addStateRules formed
  rw [step.catalog] at computed
  cases found : e.catalog.get? r.schema with
  | none => simp [RecordState.compute_eq, Catalog.require, found, Except.map] at computed
  | some s =>
    have found' : (e.addStateRules definitions).catalog.get? r.schema = some s := by
      rw [step.catalog, found]
    simp only [RecordState.compute_eq, Catalog.require, found, Except.map, Except.ok.injEq]
      at computed
    have checked := (registered.of_get? found).1
    have names := checked.nodup
    subst computed
    refine ⟨s, rfl, fun entry listed => RecordState.eq_of_mem_ofRules listed, ?_⟩
    intro f declared restricting
    have applying : ∀ rule ∈ (e.addStateRules definitions).rules.stateRules.filter fun rule =>
        rule.applies r ancestors descendants, rule.WellFormed :=
      fun rule member => consistent.wellFormed rule (List.mem_of_mem_filter member)
    have combines := Flags.combines_mergedFlags applying f
    have named : f ∈ s.namedFields := (Schema.namedFields_of_nodup names).symm ▸ declared
    have restricted := RecordState.flagsOf_ofRules r.schema applying named
    rw [← restricted] at combines
    have meets : restricting.Pairwise fun a b => a.effect.Meets b.effect := by
      have agree := ((consistent.agree.filter fun rule => rule.applies r ancestors descendants)
        |>.filter fun rule => rule.effect.covers f.name).filter
          fun rule => rule.effect.subset.isSome
      apply agree.imp_of_mem
      intro a b inA inB agree
      simp only [List.mem_filter] at inA inB
      obtain ⟨⟨⟨ha, appliesA⟩, coversA⟩, -⟩ := inA
      obtain ⟨⟨⟨hb, appliesB⟩, coversB⟩, -⟩ := inB
      have namesA := (Bool.and_eq_true_iff.mp appliesA).1
      have namesB := (Bool.and_eq_true_iff.mp appliesB).1
      have turned := agree.symm (consistent.wellFormed b hb) (consistent.wellFormed a ha)
      have compatible := consistent.compatible_of_agree found' ha namesA namesB turned
      exact Effect.meets_of_not_clashes (consistent.not_clashes plain ha hb appliesA appliesB
        compatible declared coversA coversB)
    refine ⟨meets, fun none => ?_, fun allowed answered => ?_⟩
    · have enumeration := (consistent.declared checked found' declared combines none).1
      refine ⟨enumeration, combines.emptied enumeration (fun rule member => ?_) meets none⟩
      exact applying rule (List.mem_of_mem_filter member)
    · refine RecordState.allowed?_eq_nil_iff combines.subset.wellFormed ?_ answered
      exact fun values left => (consistent.declared checked found' declared combines left).2

theorem addStateRules_two_lists :
    let values : List Value := [.text "open", .text "held", .text "done"]
    let status : Field := { name := "status", kind := .known .enum, enumValues := values }
    let task : Schema := { name := .text "Task", fields := [status] }
    let e : Engine := { catalog := (exec (Catalog.register task) {}).2 }
    let given (kept : List String) : Value :=
      .object [("schema", .text "Task"), ("on_fields", .text "status"),
        ("enum_subset", .list (kept.map .text))]
    let definitions := [given ["open", "held"], given ["held", "done"]]
    let r : Record := ⟨.text "Task", .text "first", [("status", .text "held")]⟩
    ∃ state, RecordState.compute (e.addStateRules definitions).catalog
        (e.addStateRules definitions).rules r [] [] = .ok state ∧
      (state.flagsOf "status").subset.isSome = true ∧
      (state.flagsOf "status").subset ≠ some [] := by
  intro values status task e given definitions r
  have checked : task.Checked := by
    refine ⟨rfl, fun f listed => ?_⟩
    obtain rfl := List.mem_singleton.mp listed
    simp [status, Field.check, Field.isOf, GivenKind.isKind, Field.target?, Field.checkBounds,
      Value.isTrue, Value.isNull]
  have registered : e.catalog.Registered := .register .empty checked
  have formed : ∀ definition ∈ definitions, definition.WellFormed := by
    intro definition member
    rcases List.mem_pair.mp member with rfl | rfl <;> exact Value.wellFormed_of_isPlain rfl rfl
  have plain : Condition.PlainScene (Scene.ofRecord r [] []) := by
    constructor
    · rintro _ ⟨⟩
      rfl
    · simp [Scene.ofRecord]
    · simp [Scene.ofRecord]
  have restricted : ((RecordState.compute (e.addStateRules definitions).catalog
      (e.addStateRules definitions).rules r [] []).map fun state =>
        (state.flagsOf "status").subset.isSome).toOption = some true := by
    decide +kernel +zetaReduce
  have counted :
      ((e.addStateRules definitions).rules.restricting r [] [] "status").length = 2 := by
    decide +kernel +zetaReduce
  cases computed : RecordState.compute (e.addStateRules definitions).catalog
      (e.addStateRules definitions).rules r [] [] with
  | error failure => simp [computed, Except.map, Except.toOption] at restricted
  | ok state =>
    refine ⟨state, rfl, by simpa [computed, Except.map, Except.toOption] using restricted, ?_⟩
    obtain ⟨s, found, -, each⟩ := addStateRules_overlapping e registered rfl rfl definitions formed
      r [] [] (fun rule _ _ c _ => plain.readsPlainly c) state computed
    obtain rfl : task = s := Option.some.inj found
    intro none
    obtain ⟨-, ⟨rule, alone, -⟩ | three⟩ := (each status List.mem_cons_self).2.1 none
    · rw [show status.name = "status" from rfl] at alone
      rw [alone] at counted
      cases counted
    · rw [show status.name = "status" from rfl, counted] at three
      omega

/-- Any two of three rules have a status in common, so all are accepted; together they leave none.
-/
theorem three_lists_leave_nothing :
    let values : List Value := [.text "open", .text "held", .text "done"]
    let status : Field := { name := "status", kind := .known .enum, enumValues := values }
    let task : Schema := { name := .text "Task", fields := [status] }
    let e : Engine := { catalog := (exec (Catalog.register task) {}).2 }
    let given (kept : List String) : Value :=
      .object [("schema", .text "Task"), ("on_fields", .text "status"),
        ("enum_subset", .list (kept.map .text))]
    let definitions := [given ["open", "held"], given ["held", "done"], given ["open", "done"]]
    let r : Record := ⟨.text "Task", .text "first", [("status", .text "held")]⟩
    e.settings.rejectContradictoryState = true ∧
      (exec (definitions.mapM addStateRule) e).1.isOk = true ∧
      ∃ state, RecordState.compute (e.addStateRules definitions).catalog
          (e.addStateRules definitions).rules r [] [] = .ok state ∧
        (∃ entry ∈ state.fields, entry.2.subset = some []) ∧
        state.allowed? status = .ok (some []) := by
  intro values status task e given definitions r
  have accepted : (exec (definitions.mapM addStateRule) e).1.isOk = true := by
    decide +kernel +zetaReduce
  have emptied : ((RecordState.compute (e.addStateRules definitions).catalog
      (e.addStateRules definitions).rules r [] []).map fun state =>
        state.fields.any (fun entry => entry.2.subset.any List.isEmpty) &&
          (state.allowed? status).toOption.any fun allowed => allowed.any List.isEmpty).toOption =
      some true := by
    decide +kernel +zetaReduce
  have nothing {subset : Option (List Value)} (empty : subset.any List.isEmpty = true) :
      subset = some [] := by
    cases subset with
    | none => cases empty
    | some values => rw [List.isEmpty_iff.mp empty]
  refine ⟨rfl, accepted, ?_⟩
  cases computed : RecordState.compute (e.addStateRules definitions).catalog
      (e.addStateRules definitions).rules r [] [] with
  | error failure => simp [computed, Except.map, Except.toOption] at emptied
  | ok state =>
    refine ⟨state, rfl, ?_⟩
    simp only [computed, Except.map, Except.toOption, Option.some.injEq, Bool.and_eq_true,
      List.any_eq_true] at emptied
    obtain ⟨⟨entry, listed, left⟩, allowed⟩ := emptied
    refine ⟨⟨entry, listed, nothing left⟩, ?_⟩
    cases answered : state.allowed? status with
    | error failure => simp [answered] at allowed
    | ok values =>
      rw [answered] at allowed
      rw [nothing allowed]

end Engine

end RecordRules
