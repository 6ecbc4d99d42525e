import Mathlib.Data.List.Induction
import RecordRules.State.Compiled
import RecordRules.Proofs.ValueEquality
import RecordRules.Proofs.RuleDefinitions

/-!
Merged states. The state of a record says of each field what the rules that hold for the record
say together, whatever their order: a flag is set if one of them sets it, a value is allowed if
none of them rules it out, and fields of which nothing is said are left out.
-/
namespace RecordRules

namespace Value

variable {s t : List Value} {v w : Value}

theorem isIn_of_same (equal : v.same w = true) {members : List Value}
    (inside : w.isIn members = true) : v.isIn members = true := by
  obtain ⟨x, among, equal'⟩ := isIn_iff.mp inside
  exact isIn_iff.mpr ⟨x, among, same_trans equal equal'⟩

theorem WellFormed.filter_set (formed : (Value.set s).WellFormed) (kept : Value → Bool) :
    (Value.set (s.filter kept)).WellFormed := by
  cases formed with
  | set keys apart each =>
    refine .set (fun v member => ?_) (apart.filter kept) (fun v member => ?_)
    · exact keys v (List.mem_filter.mp member).1
    · exact each v (List.mem_filter.mp member).1

theorem wellFormed_meet (hs : (set s).WellFormed) (ht : (set t).WellFormed) :
    (set (meet s t)).WellFormed := by
  rw [meet]
  split
  · exact hs.filter_set _
  · exact ht.filter_set _

theorem isIn_filter_isIn (formed : v.WellFormed) :
    v.isIn (s.filter fun w => w.isIn t) = true ↔ v.isIn s = true ∧ v.isIn t = true := by
  constructor
  · intro inside
    obtain ⟨w, kept, equal⟩ := isIn_iff.mp inside
    obtain ⟨among, common⟩ := List.mem_filter.mp kept
    exact ⟨isIn_iff.mpr ⟨w, among, equal⟩, isIn_of_same equal common⟩
  · rintro ⟨first, second⟩
    obtain ⟨w, among, equal⟩ := isIn_iff.mp first
    have common : w.isIn t = true := isIn_of_same (formed.same_symm equal) second
    exact isIn_iff.mpr ⟨w, List.mem_filter.mpr ⟨among, common⟩, equal⟩

theorem isIn_meet (formed : v.WellFormed) :
    v.isIn (meet s t) = true ↔ v.isIn s = true ∧ v.isIn t = true := by
  rw [meet]
  split
  · exact isIn_filter_isIn formed
  · rw [isIn_filter_isIn formed, and_comm]

theorem filter_isIn_self (formed : (set t).WellFormed) : (t.filter fun v => v.isIn t) = t :=
  List.filter_eq_self.mpr fun v member =>
    isIn_iff.mpr ⟨v, member, (formed.members v member).same_refl⟩

theorem meet_self (formed : (set t).WellFormed) : meet t t = t := by
  rw [meet, if_neg (Nat.lt_irrefl _), filter_isIn_self formed]

theorem meet_meet (s : List Value) (formed : (set t).WellFormed) :
    meet (meet s t) t = meet s t := by
  -- The members are those of the smaller set, so it matters which one that is.
  by_cases smaller : s.length < t.length
  · have within : (s.filter fun v => v.isIn t).length < t.length :=
      Nat.lt_of_le_of_lt (List.length_filter_le _ s) smaller
    rw [show meet s t = _ from if_pos smaller, meet, if_pos within, List.filter_filter]
    simp only [Bool.and_self]
  · have common : meet s t = t.filter fun v => v.isIn s := if_neg smaller
    rw [common]
    by_cases fewer : (t.filter fun v => v.isIn s).length < t.length
    · rw [meet, if_pos fewer, List.filter_filter]
      refine List.filter_congr fun v member => ?_
      have own : v.isIn t = true :=
        isIn_iff.mpr ⟨v, member, (formed.members v member).same_refl⟩
      rw [own, Bool.true_and]
    · have whole : (t.filter fun v => v.isIn s) = t :=
        List.filter_sublist.eq_of_length_le (Nat.le_of_not_lt fewer)
      rw [whole, meet_self formed]

theorem length_le_of_isIn (hs : (set s).WellFormed) (within : ∀ v ∈ s, v.isIn t = true) :
    s.length ≤ t.length := by
  cases hs with
  | set _ apart each =>
    apply length_le_of_related (separate_of_apart apart fun v member => (each v member).same_symm)
    exact fun v member => isIn_iff.mp (within v member)

theorem set_same_set (hs : (set s).WellFormed) (ht : (set t).WellFormed)
    (each : ∀ v : Value, v.WellFormed → (v.isIn s = true ↔ v.isIn t = true)) :
    (set s).same (set t) = true := by
  have own : ∀ {s : List Value}, (set s).WellFormed → ∀ v : Value, v ∈ s →
      v.WellFormed ∧ v.isIn s = true := by
    intro s formed v member
    cases formed with
    | set _ _ each =>
      exact ⟨each v member, isIn_iff.mpr ⟨v, member, (each v member).same_refl⟩⟩
  have there : ∀ v ∈ s, v.isIn t = true := by
    intro v member
    obtain ⟨formed, inside⟩ := own hs v member
    exact (each v formed).mp inside
  have back : ∀ v ∈ t, v.isIn s = true := by
    intro v member
    obtain ⟨formed, inside⟩ := own ht v member
    exact (each v formed).mpr inside
  refine set_same_iff.mpr ⟨t, rfl, there, ?_⟩
  exact Nat.le_antisymm (length_le_of_isIn hs there) (length_le_of_isIn ht back)

end Value

/-- The sets of values that rules restrict a field to. Fields that are no enumerations are not
restricted. -/
def StateRule.restrictions (rules : List StateRule) (f : Field) : List (List Value) :=
  if f.isOf .enum then rules.filterMap fun r => r.effect.subset else []

def RecordState.mergedFlags (rules : List StateRule) (f : Field) : Flags :=
  (rules.filter fun r => r.effect.covers f.name).foldl
    (fun flags r => flags.merge (contribution r.effect f)) {}

def StateRule.applies (rule : StateRule) (r : Record) (ancestors descendants : List Record) :
    Bool :=
  rule.schema.names r.schema &&
    Condition.allHold rule.conditions (Scene.ofRecord r ancestors descendants)

def Effect.marks (e : Effect) (f : Field) : Bool :=
  e.covers f.name && (e.immutable || e.required || e.hidden || (f.isOf .enum && e.subset.isSome))

namespace Flags

structure IsMeet (subset : Option (List Value)) (restrictions : List (List Value)) : Prop where
  none_iff : subset = none ↔ restrictions = []
  wellFormed : ∀ values, subset = some values → (Value.set values).WellFormed
  isIn_iff : ∀ values, subset = some values → ∀ v : Value, v.WellFormed →
    (v.isIn values = true ↔ ∀ own ∈ restrictions, v.isIn own = true)

/-- The flags say of a field what the rules that cover it say together. -/
structure Combines (flags : Flags) (f : Field) (rules : List StateRule) : Prop where
  immutable : flags.immutable = rules.any fun r => r.effect.immutable
  required : flags.required = rules.any fun r => r.effect.required
  hidden : flags.hidden = rules.any fun r => r.effect.hidden
  subset : IsMeet flags.subset (StateRule.restrictions rules f)

structure Same (a b : Flags) : Prop where
  immutable : a.immutable = b.immutable
  required : a.required = b.required
  hidden : a.hidden = b.hidden
  none_iff : a.subset = none ↔ b.subset = none
  subset : ∀ s t, a.subset = some s → b.subset = some t → (Value.set s).same (.set t) = true

theorem isMeet_nil : IsMeet none [] where
  none_iff := Iff.of_eq (by simp)
  wellFormed _ none := by cases none
  isIn_iff _ none := by cases none

theorem IsMeet.meet {subset : Option (List Value)} {restrictions : List (List Value)}
    (before : IsMeet subset restrictions) {own : List Value} (formed : (Value.set own).WellFormed) :
    IsMeet (Flags.meet subset (some own)) (restrictions ++ [own]) := by
  cases subset with
  | none =>
    obtain rfl := before.none_iff.mp rfl
    constructor
    case none_iff => simp [Flags.meet]
    case wellFormed =>
      rintro values ⟨⟩
      exact formed
    case isIn_iff =>
      rintro values ⟨⟩ v -
      simp
  | some s =>
    constructor
    case none_iff => simp [Flags.meet]
    case wellFormed =>
      rintro values ⟨⟩
      exact Value.wellFormed_meet (before.wellFormed s rfl) formed
    case isIn_iff =>
      rintro values ⟨⟩ v whole
      rw [Value.isIn_meet whole, before.isIn_iff s rfl v whole]
      simp [or_imp, forall_and]

theorem IsMeet.same {a b : Option (List Value)} {xs ys : List (List Value)} (ha : IsMeet a xs)
    (hb : IsMeet b ys) (perm : xs.Perm ys) {s t : List Value} (some_a : a = some s)
    (some_b : b = some t) : (Value.set s).same (.set t) = true := by
  refine Value.set_same_set (ha.wellFormed s some_a) (hb.wellFormed t some_b) fun v formed => ?_
  rw [ha.isIn_iff s some_a v formed, hb.isIn_iff t some_b v formed]
  exact forall_congr' fun own => by rw [perm.mem_iff]

theorem combines_nil (f : Field) : ({} : Flags).Combines f [] where
  immutable := rfl
  required := rfl
  hidden := rfl
  subset := by
    rw [StateRule.restrictions]
    split <;> exact isMeet_nil

theorem Combines.merge {flags : Flags} {f : Field} {rules : List StateRule} {r : StateRule}
    (before : flags.Combines f rules) (formed : r.WellFormed) :
    (flags.merge (RecordState.contribution r.effect f)).Combines f (rules ++ [r]) := by
  constructor
  case immutable => simp [Flags.merge, RecordState.contribution, before.immutable]
  case required => simp [Flags.merge, RecordState.contribution, before.required]
  case hidden => simp [Flags.merge, RecordState.contribution, before.hidden]
  case subset =>
    have restricted := before.subset
    rw [StateRule.restrictions] at restricted ⊢
    rw [Flags.merge, RecordState.contribution]
    cases kind : f.isOf .enum with
    | false =>
      rw [kind] at restricted
      simpa [meet_none] using restricted
    | true =>
      rw [kind] at restricted
      cases given : r.effect.subset with
      | none => simpa [meet_none, given] using restricted
      | some own => simpa [given] using restricted.meet (formed.subset own given)

/-- What is merged in twice is merged in once. -/
theorem merge_merge (flags : Flags) {given : Flags}
    (formed : ∀ values, given.subset = some values → (Value.set values).WellFormed) :
    (flags.merge given).merge given = flags.merge given := by
  have meets : meet (meet flags.subset given.subset) given.subset =
      meet flags.subset given.subset := by
    cases restricted : given.subset with
    | none => rw [meet_none]
    | some t =>
      have whole := formed t restricted
      cases flags.subset with
      | none => exact congrArg some (Value.meet_self whole)
      | some s => exact congrArg some (Value.meet_meet s whole)
  simp only [merge, meets, Bool.or_assoc, Bool.or_self]

theorem combines_mergedFlags {rules : List StateRule} (formed : ∀ r ∈ rules, r.WellFormed)
    (f : Field) : (RecordState.mergedFlags rules f).Combines f
      (rules.filter fun r => r.effect.covers f.name) := by
  rw [RecordState.mergedFlags]
  have covering : ∀ r ∈ rules.filter fun r => r.effect.covers f.name, r.WellFormed :=
    fun r member => formed r (List.mem_filter.mp member).1
  generalize rules.filter (fun r => r.effect.covers f.name) = covered at covering
  induction covered using List.reverseRecOn with
  | nil => exact combines_nil f
  | append_singleton covered r ih =>
    rw [List.foldl_append, List.foldl_cons, List.foldl_nil]
    refine (ih fun r member => covering r (List.mem_append_left _ member)).merge (covering r ?_)
    exact List.mem_append_right _ List.mem_cons_self

theorem Combines.exists_restriction {flags : Flags} {f : Field} {rules : List StateRule}
    (combines : flags.Combines f rules) {values : List Value}
    (restricted : flags.subset = some values) :
    f.isOf .enum = true ∧ ∃ r ∈ rules, ∃ own, r.effect.subset = some own ∧
      ∀ v ∈ values, v.isIn own = true := by
  have some_restriction : StateRule.restrictions rules f ≠ [] := by
    intro none
    rw [combines.subset.none_iff.mpr none] at restricted
    cases restricted
  obtain ⟨own, member⟩ := List.exists_mem_of_ne_nil _ some_restriction
  have inside : ∀ v ∈ values, v.isIn own = true := by
    intro v listed
    have whole := combines.subset.wellFormed values restricted
    have formed := whole.members v listed
    have reflexive : v.isIn values = true := Value.isIn_iff.mpr ⟨v, listed, formed.same_refl⟩
    exact (combines.subset.isIn_iff values restricted v formed).mp reflexive own member
  unfold StateRule.restrictions at member
  split at member
  · rename_i enumeration
    obtain ⟨r, among, given⟩ := List.mem_filterMap.mp member
    exact ⟨enumeration, r, among, own, given, inside⟩
  · exact absurd member List.not_mem_nil

theorem Combines.isDefault {flags : Flags} {f : Field} {rules : List StateRule}
    (combines : flags.Combines f (rules.filter fun r => r.effect.covers f.name)) :
    flags.isDefault = !(rules.any fun r => r.effect.marks f) := by
  have unrestricted : flags.subset.isNone = !(f.isOf .enum &&
      (rules.filter fun r => r.effect.covers f.name).any fun r => r.effect.subset.isSome) := by
    rw [Bool.eq_iff_iff, Option.isNone_iff_eq_none, combines.subset.none_iff,
      StateRule.restrictions]
    cases f.isOf .enum <;> simp
  rw [Flags.isDefault, unrestricted, combines.immutable, combines.required, combines.hidden,
    Bool.eq_iff_iff]
  simp only [Effect.marks, List.any_filter, Bool.and_eq_true, Bool.not_eq_true',
    Bool.or_eq_false_iff, Bool.and_eq_false_iff, List.any_eq_false]
  grind

theorem Combines.same {a b : Flags} {f : Field} {rules others : List StateRule}
    (ha : a.Combines f rules) (hb : b.Combines f others) (perm : rules.Perm others) :
    a.Same b := by
  have restrictions : (StateRule.restrictions rules f).Perm (StateRule.restrictions others f) := by
    rw [StateRule.restrictions, StateRule.restrictions]
    split
    · exact perm.filterMap _
    · exact .refl _
  constructor
  case immutable => rw [ha.immutable, hb.immutable, perm.any_eq]
  case required => rw [ha.required, hb.required, perm.any_eq]
  case hidden => rw [ha.hidden, hb.hidden, perm.any_eq]
  case none_iff =>
    rw [ha.subset.none_iff, hb.subset.none_iff, ← List.length_eq_zero_iff, restrictions.length_eq,
      List.length_eq_zero_iff]
  case subset => exact fun s t => ha.subset.same hb.subset restrictions

end Flags

theorem forall₂_of_common {α β γ : Type} {p : α → γ → Prop} {q : β → γ → Prop} {r : α → β → Prop}
    (common : ∀ x y z, p x z → q y z → r x y) {xs : List α} {ys : List β} {zs : List γ}
    (first : List.Forall₂ p xs zs) (second : List.Forall₂ q ys zs) : List.Forall₂ r xs ys := by
  induction first generalizing ys with
  | nil =>
    cases second
    exact .nil
  | cons related _ ih =>
    cases second with
    | cons related' rest => exact .cons (common _ _ _ related related') (ih rest)

/-- The fields as they are known by their names: all fields, where no two have the same name. -/
def Schema.namedFields (s : Schema) : List Field := s.fieldNames.filterMap s.field?

namespace Schema

variable {s : Schema}

theorem field?_of_mem_namedFields {f : Field} (named : f ∈ s.namedFields) :
    s.field? f.name = some f := by
  obtain ⟨name, -, found⟩ := List.mem_filterMap.mp named
  rwa [name_of_field? found]

theorem mem_fields_of_mem_namedFields {f : Field} (named : f ∈ s.namedFields) : f ∈ s.fields :=
  List.mem_of_find?_eq_some (field?_of_mem_namedFields named)

theorem exists_field?_of_mem_fieldNames {name : String} (named : name ∈ s.fieldNames) :
    ∃ f, s.field? name = some f ∧ f.name = name := by
  obtain ⟨f, declared, same⟩ := List.mem_map.mp named
  obtain ⟨g, found⟩ := Option.isSome_iff_exists.mp (declares_iff.mpr ⟨f, declared, same⟩)
  exact ⟨g, found, name_of_field? found⟩

theorem namedFields_of_nodup (names : s.fieldNames.Nodup) : s.namedFields = s.fields := by
  unfold namedFields fieldNames at *
  rw [List.filterMap_map]
  have each : ∀ f ∈ s.fields, (s.field? ∘ Field.name) f = some f := by
    intro f declared
    obtain ⟨g, found, same⟩ := exists_field?_of_mem_fieldNames (List.mem_map_of_mem declared)
    have listed := List.mem_of_find?_eq_some found
    obtain rfl : g = f := List.inj_on_of_nodup_map names listed declared same
    exact found
  rw [List.filterMap_congr each, List.filterMap_some]

end Schema

namespace RecordState

/-- The state lists the fields that some rule marks, in order of declaration, and says of each what
the rules that cover it say together. -/
structure Summarizes (state : RecordState) (schema : Key) (s : Schema) (rules : List StateRule) :
    Prop where
  schema : state.schema = schema
  fields : List.Forall₂ (fun entry f => entry.1 = f.name ∧
      entry.2.Combines f (rules.filter fun r => r.effect.covers f.name))
    state.fields (s.namedFields.filter fun f => rules.any fun r => r.effect.marks f)

structure Same (a b : RecordState) : Prop where
  schema : a.schema = b.schema
  fields : List.Forall₂ (fun x y => x.1 = y.1 ∧ x.2.Same y.2) a.fields b.fields

def said (merged : Keyed String Flags) (f : Field) : Flags := (merged.find? f.name).getD {}

section

variable {s : Schema} {effect : Effect} {f : Field} {merged : Keyed String Flags}

theorem said_assert_self : said (assert effect merged f) f =
    (said merged f).merge (contribution effect f) := by
  rw [said, assert, Keyed.find?_put, if_pos BEq.rfl]
  rfl

theorem said_assert_of_ne {g : Field} (other : g.name ≠ f.name) :
    said (assert effect merged g) f = said merged f := by
  rw [said, assert, Keyed.find?_put, if_neg (by simpa using other)]
  rfl

theorem said_asserts
    (formed : ∀ values, effect.subset = some values → (Value.set values).WellFormed)
    {fields : List Field} (own : ∀ g ∈ fields, g.name = f.name → g = f) :
    said (fields.foldl (assert effect) merged) f =
      if fields.any fun g => g.name == f.name then (said merged f).merge (contribution effect f)
      else said merged f := by
  have whole : ∀ values, (contribution effect f).subset = some values →
      (Value.set values).WellFormed := by
    intro values restricted
    unfold contribution at restricted
    dsimp only at restricted
    split at restricted
    · exact formed values restricted
    · cases restricted
  induction fields generalizing merged with
  | nil => rfl
  | cons g rest ih =>
    rw [List.forall_mem_cons] at own
    rw [List.foldl_cons, ih own.2, List.any_cons]
    by_cases same : g.name = f.name
    · -- Should the field be named once more later on, this changes nothing.
      obtain rfl := own.1 same
      rw [said_assert_self, Flags.merge_merge _ whole, ite_self]
      simp
    · rw [said_assert_of_ne same]
      simp [same]

theorem mem_fieldsIn_iff (named : f ∈ s.namedFields) :
    f.name ∈ effect.fieldsIn s ↔ effect.covers f.name = true := by
  have declared := Schema.mem_fields_of_mem_namedFields named
  have known : s.declares f.name = true := Schema.declares_iff.mpr ⟨f, declared, rfl⟩
  unfold Effect.fieldsIn Effect.covers
  cases effect.isOnAll with
  | true => exact iff_of_true (List.mem_map_of_mem declared) rfl
  | false =>
    rw [Bool.false_or, Value.isIn_iff]
    simp only [Bool.false_eq_true, ↓reduceIte, List.mem_filterMap]
    constructor
    · rintro ⟨v, listed, given⟩
      split at given
      · split at given
        · obtain rfl := Option.some.inj given
          exact ⟨_, listed, Value.text_same_iff.mpr rfl⟩
        · cases given
      · cases given
    · rintro ⟨v, listed, same⟩
      obtain rfl := Value.text_same_iff.mp same
      exact ⟨_, listed, if_pos known⟩

theorem said_mergeEffect (named : f ∈ s.namedFields)
    (formed : ∀ values, effect.subset = some values → (Value.set values).WellFormed) :
    said (mergeEffect s merged effect) f =
      if effect.covers f.name then (said merged f).merge (contribution effect f)
      else said merged f := by
  have found := Schema.field?_of_mem_namedFields named
  have own : ∀ g ∈ (effect.fieldsIn s).filterMap s.field?, g.name = f.name → g = f := by
    intro g listed same
    obtain ⟨name, -, looked⟩ := List.mem_filterMap.mp listed
    have called : g.name = name := Schema.name_of_field? looked
    rw [← called, same, found] at looked
    exact (Option.some.inj looked).symm
  have covered : (((effect.fieldsIn s).filterMap s.field?).any fun g => g.name == f.name) =
      effect.covers f.name := by
    rw [Bool.eq_iff_iff, ← mem_fieldsIn_iff named, List.any_eq_true]
    constructor
    · rintro ⟨g, listed, same⟩
      obtain ⟨name, inside, looked⟩ := List.mem_filterMap.mp listed
      have called : g.name = name := Schema.name_of_field? looked
      rwa [← eq_of_beq same, called]
    · exact fun inside => ⟨f, List.mem_filterMap.mpr ⟨f.name, inside, found⟩, BEq.rfl⟩
  rw [mergeEffect, said_asserts formed own, covered]

/-- Rule by rule, a field comes to what the rules that cover it say together. -/
theorem said_mergedEffects (named : f ∈ s.namedFields) {rules : List StateRule}
    (formed : ∀ r ∈ rules, r.WellFormed) :
    said (mergedEffects s rules) f = mergedFlags rules f := by
  have start : said ([] : Keyed String Flags) f = {} := rfl
  rw [mergedEffects, mergedFlags, ← start]
  generalize ([] : Keyed String Flags) = merged
  induction rules generalizing merged with
  | nil => rfl
  | cons r rest ih =>
    rw [List.forall_mem_cons] at formed
    rw [List.foldl_cons, ih formed.2, said_mergeEffect named formed.1.subset, List.filter_cons]
    split <;> rfl

end

theorem ofRules_eq (schema : Key) (s : Schema) {rules : List StateRule}
    (formed : ∀ r ∈ rules, r.WellFormed) :
    ofRules schema s rules = ⟨schema, s.namedFields.filterMap fun f =>
      let flags := mergedFlags rules f
      if flags.isDefault then none else some (f.name, flags)⟩ := by
  unfold ofRules Schema.namedFields
  rw [List.filterMap_filterMap]
  refine congrArg _ (List.filterMap_congr fun name declared => ?_)
  obtain ⟨f, found, rfl⟩ := Schema.exists_field?_of_mem_fieldNames declared
  have named : f ∈ s.namedFields := List.mem_filterMap.mpr ⟨f.name, declared, found⟩
  rw [found, Option.bind_some, ← said_mergedEffects named formed, said]
  cases (mergedEffects s rules).find? f.name with
  | none => rfl
  | some flags => cases default : flags.isDefault <;> simp [default]

theorem ofRules_summarizes (schema : Key) (s : Schema) {rules : List StateRule}
    (formed : ∀ r ∈ rules, r.WellFormed) : (ofRules schema s rules).Summarizes schema s rules := by
  rw [ofRules_eq schema s formed]
  constructor
  case schema => rfl
  case fields =>
    dsimp only
    generalize s.namedFields = fields
    induction fields with
    | nil => exact .nil
    | cons f rest ih =>
      have merged := Flags.combines_mergedFlags formed f
      have marked := merged.isDefault
      rw [List.filterMap_cons, List.filter_cons]
      cases default : (mergedFlags rules f).isDefault with
      | true =>
        rw [default, Bool.true_eq, Bool.not_eq_true'] at marked
        simpa [default, marked] using ih
      | false =>
        rw [default, Bool.false_eq, Bool.not_eq_false'] at marked
        simpa [default, marked] using ⟨merged, ih⟩

theorem compute_eq (c : Catalog) (b : RuleBook) (r : Record) (ancestors descendants : List Record) :
    compute c b r ancestors descendants = (c.require r.schema).map fun s =>
      ofRules r.schema s
        (b.stateRules.filter fun rule => rule.applies r ancestors descendants) := by
  unfold compute RuleBook.stateRulesFor StateRule.applies
  simp only [List.filter_filter, Bool.and_comm]
  rfl

theorem compute_summarizes {c : Catalog} {b : RuleBook} {r : Record} {s : Schema}
    (found : c.get? r.schema = some s) (formed : ∀ rule ∈ b.stateRules, rule.WellFormed)
    (ancestors descendants : List Record) :
    ∃ state, compute c b r ancestors descendants = .ok state ∧
      state.Summarizes r.schema s
        (b.stateRules.filter fun rule => rule.applies r ancestors descendants) := by
  rw [compute_eq, Catalog.require, found]
  exact ⟨_, rfl, ofRules_summarizes r.schema s
    fun rule member => formed rule (List.mem_of_mem_filter member)⟩

theorem Summarizes.of_mem {state : RecordState} {schema : Key} {s : Schema}
    {rules : List StateRule} (summarizes : state.Summarizes schema s rules)
    {entry : String × Flags} (listed : entry ∈ state.fields) :
    ∃ f ∈ s.fields, entry.1 = f.name ∧
      entry.2.Combines f (rules.filter fun r => r.effect.covers f.name) := by
  obtain ⟨i, bound, rfl⟩ := List.getElem_of_mem listed
  obtain ⟨size, each⟩ := List.forall₂_iff_get.mp summarizes.fields
  have member := List.get_mem _ ⟨i, size ▸ bound⟩
  have declared := Schema.mem_fields_of_mem_namedFields (List.mem_of_mem_filter member)
  exact ⟨_, declared, each i bound (size ▸ bound)⟩

theorem Summarizes.same {a b : RecordState} {schema : Key} {s : Schema}
    {rules others : List StateRule} (ha : a.Summarizes schema s rules)
    (hb : b.Summarizes schema s others) (perm : rules.Perm others) : a.Same b := by
  constructor
  case schema => exact ha.schema.trans hb.schema.symm
  case fields =>
    have marked : (fun f => others.any fun r => r.effect.marks f) =
        fun f => rules.any fun r => r.effect.marks f := funext fun f => perm.symm.any_eq
    have listed := hb.fields
    rw [marked] at listed
    refine forall₂_of_common (fun x y f first second => ?_) ha.fields listed
    exact ⟨first.1.trans second.1.symm, first.2.same second.2 (perm.filter _)⟩

end RecordState

end RecordRules
