import Mathlib.Data.List.Forall2
import Mathlib.Data.List.Perm.Subperm
import RecordRules.Value.Compare

/-!
Equality of values. A value is well formed if no object in it has two entries of one name and no
set in it has two equal members, as values are outside. Main statements: what each kind of value is
equal to; equality is transitive, and it is reflexive and symmetric on well-formed values.
-/
namespace RecordRules

section

variable {α β : Type} {related : α → β → Prop} {xs : List α} {ys : List β}

/-- If no two members on one side are related to a common one on the other, then they can be
matched with different ones. -/
theorem exists_matching
    (apart : xs.Pairwise fun x x' => ∀ y ∈ ys, related x y → ¬ related x' y)
    (each : ∀ x ∈ xs, ∃ y ∈ ys, related x y) :
    ∃ matched others, List.Forall₂ related xs matched ∧ (matched ++ others).Perm ys := by
  induction xs generalizing ys with
  | nil => exact ⟨[], ys, .nil, .refl ys⟩
  | cons x rest ih =>
    obtain ⟨first, later⟩ := List.pairwise_cons.mp apart
    obtain ⟨y, inside, relates⟩ := each x List.mem_cons_self
    obtain ⟨before, after, rfl⟩ := List.append_of_mem inside
    have moved : (y :: (before ++ after)).Perm (before ++ y :: after) := List.perm_middle.symm
    -- What is left on the right without `y` is still enough for the rest on the left.
    have spared : ∀ x' ∈ rest, ∃ z ∈ before ++ after, related x' z := by
      intro x' member
      obtain ⟨z, found, relates'⟩ := each x' (List.mem_cons_of_mem _ member)
      rcases List.mem_cons.mp (moved.mem_iff.mpr found) with rfl | left
      · exact absurd relates' (first x' member z inside relates)
      · exact ⟨z, left, relates'⟩
    obtain ⟨matched, others, relations, same⟩ := ih
      (later.imp fun h z member => h z (moved.mem_iff.mp (List.mem_cons_of_mem y member))) spared
    exact ⟨y :: matched, others, .cons relates relations, (same.cons y).trans moved⟩

theorem length_le_of_related
    (apart : xs.Pairwise fun x x' => ∀ y ∈ ys, related x y → ¬ related x' y)
    (each : ∀ x ∈ xs, ∃ y ∈ ys, related x y) : xs.length ≤ ys.length := by
  obtain ⟨matched, others, relations, same⟩ := exists_matching apart each
  rw [← same.length_eq, List.length_append, relations.length_eq]
  exact Nat.le_add_right _ _

theorem exists_related_of_length_le
    (apart : xs.Pairwise fun x x' => ∀ y ∈ ys, related x y → ¬ related x' y)
    (each : ∀ x ∈ xs, ∃ y ∈ ys, related x y) (size : ys.length ≤ xs.length) :
    ∀ y ∈ ys, ∃ x ∈ xs, related x y := by
  obtain ⟨matched, others, relations, same⟩ := exists_matching apart each
  have counted := same.length_eq
  rw [List.length_append, ← relations.length_eq] at counted
  obtain rfl : others = [] := List.eq_nil_of_length_eq_zero (by omega)
  intro y member
  rw [← same.mem_iff, List.append_nil] at member
  obtain ⟨i, bound, rfl⟩ := List.getElem_of_mem member
  obtain ⟨size, at_each⟩ := List.forall₂_iff_get.mp relations
  exact ⟨_, List.get_mem xs ⟨i, size ▸ bound⟩, at_each i (size ▸ bound) bound⟩

end

namespace Value

theorem sizeOf_lt_of_entry {entries : Entries} {entry : String × Value}
    (member : entry ∈ entries) : sizeOf entry.2 < sizeOf entries := by
  have smaller := List.sizeOf_lt_of_mem member
  obtain ⟨name, v⟩ := entry
  simp only [Prod.mk.sizeOf_spec] at smaller ⊢
  omega

@[elab_as_elim]
theorem parts_induction {P : Value → Prop} (null : P null) (bool : ∀ b, P (bool b))
    (int : ∀ n, P (int n)) (float : ∀ x, P (float x)) (nan : ∀ mark, P (nan mark))
    (text : ∀ s, P (text s))
    (list : ∀ items, (∀ v ∈ items, P v) → P (list items))
    (object : ∀ entries : Entries, (∀ entry ∈ entries, P entry.2) → P (object entries))
    (set : ∀ members, (∀ v ∈ members, P v) → P (set members))
    (record : ∀ (schema id : Key) (data : Entries), (∀ entry ∈ data, P entry.2) →
      P (record schema id data)) (v : Value) : P v := by
  have part {w : Value} (_ : sizeOf w < sizeOf v) : P w :=
    parts_induction null bool int float nan text list object set record w
  cases v with
  | null => exact null
  | bool b => exact bool b
  | int n => exact int n
  | float x => exact float x
  | nan mark => exact nan mark
  | text s => exact text s
  | list items =>
    refine list items fun w member => part ?_
    have smaller := List.sizeOf_lt_of_mem member
    simp only [Value.list.sizeOf_spec]
    omega
  | object entries =>
    refine object entries fun entry member => part ?_
    have smaller := sizeOf_lt_of_entry member
    simp only [Value.object.sizeOf_spec]
    omega
  | set members =>
    refine set members fun w member => part ?_
    have smaller := List.sizeOf_lt_of_mem member
    simp only [Value.set.sizeOf_spec]
    omega
  | record schema id data =>
    refine record schema id data fun entry member => part ?_
    have smaller := sizeOf_lt_of_entry member
    simp only [Value.record.sizeOf_spec]
    omega
termination_by sizeOf v

inductive WellFormed : Value → Prop where
  | null : WellFormed null
  | bool (b : Bool) : WellFormed (bool b)
  | int (n : Int) : WellFormed (int n)
  | float (x : Binary64) : WellFormed (float x)
  | nan (mark : Nat) : WellFormed (nan mark)
  | text (s : String) : WellFormed (text s)
  | list {items : List Value} (each : ∀ v ∈ items, WellFormed v) : WellFormed (list items)
  | object {entries : Entries} (names : entries.names.Nodup)
      (each : ∀ entry ∈ entries, WellFormed entry.2) : WellFormed (object entries)
  | set {members : List Value} (keys : ∀ v ∈ members, v.isKey = true)
      (apart : members.Pairwise fun v w => v.same w = false)
      (each : ∀ v ∈ members, WellFormed v) : WellFormed (set members)
  | record (schema id : Key) {data : Entries} (names : data.names.Nodup)
      (each : ∀ entry ∈ data, WellFormed entry.2) : WellFormed (record schema id data)

/-- Every entry has an equal one under its name. -/
def EntriesWithin (as bs : Entries) : Prop :=
  ∀ entry ∈ as, ∃ b, bs.find? entry.1 = some b ∧ entry.2.same b = true

theorem isIn_iff {v : Value} {members : List Value} :
    v.isIn members = true ↔ ∃ w ∈ members, v.same w = true := List.any_eq_true

theorem sameItems_iff {as bs : List Value} :
    sameItems as bs = true ↔ List.Forall₂ (fun a b => a.same b = true) as bs := by
  induction as generalizing bs with
  | nil => cases bs <;> simp [sameItems]
  | cons a rest ih => cases bs <;> simp [sameItems, ih]

theorem subset_iff {as bs : List Value} : subset as bs = true ↔ ∀ a ∈ as, a.isIn bs = true := by
  induction as with
  | nil => simp [subset]
  | cons a rest ih => simp [subset, ih, isIn]

theorem within_iff {as bs : Entries} : within as bs = true ↔ EntriesWithin as bs := by
  induction as with
  | nil => simp [within, EntriesWithin]
  | cons entry rest ih =>
    obtain ⟨name, a⟩ := entry
    rw [within, Bool.and_eq_true, ih, EntriesWithin, EntriesWithin, List.forall_mem_cons,
      hasEqual]
    cases bs.find? name <;> simp

@[simp] theorem null_same_iff {b : Value} : null.same b = true ↔ b = null := by
  constructor
  · intro equal
    cases b with
    | null => rfl
    | _ => cases equal
  · rintro rfl
    rfl

@[simp] theorem text_same_iff {s : String} {b : Value} :
    (text s).same b = true ↔ b = text s := by
  constructor
  · intro equal
    cases b with
    | text t => exact congrArg text (eq_of_beq equal).symm
    | _ => cases equal
  · rintro rfl
    exact beq_self_eq_true s

@[simp] theorem nan_same_iff {mark : Nat} {b : Value} :
    (nan mark).same b = true ↔ b = nan mark := by
  constructor
  · intro equal
    cases b with
    | nan other => exact congrArg nan (eq_of_beq equal).symm
    | _ => cases equal
  · rintro rfl
    exact beq_self_eq_true mark

theorem number_same_iff {a b : Value} {x : Extended} (ha : a.number? = some x) :
    a.same b = true ↔ ∃ y, b.number? = some y ∧ x.same y = true := by
  have compared : a.same b = b.number?.any x.same := by
    cases a <;> cases ha <;> cases b <;> rfl
  rw [compared, Option.any_eq_true]

theorem list_same_iff {as : List Value} {b : Value} : (list as).same b = true ↔
    ∃ bs, b = list bs ∧ List.Forall₂ (fun a b => a.same b = true) as bs := by
  constructor
  · intro equal
    cases b with
    | list bs => exact ⟨bs, rfl, sameItems_iff.mp equal⟩
    | _ => cases equal
  · rintro ⟨bs, rfl, items⟩
    exact sameItems_iff.mpr items

theorem object_same_iff {as : Entries} {b : Value} : (object as).same b = true ↔
    ∃ bs, b = object bs ∧ as.length = bs.length ∧ EntriesWithin as bs := by
  have compared (bs : Entries) : (object as).same (object bs) = true ↔
      as.length = bs.length ∧ EntriesWithin as bs := by
    change (as.length == bs.length && within as bs) = true ↔ _
    rw [Bool.and_eq_true, beq_iff_eq, within_iff]
  constructor
  · intro equal
    cases b with
    | object bs => exact ⟨bs, rfl, (compared bs).mp equal⟩
    | _ => cases equal
  · rintro ⟨bs, rfl, entries⟩
    exact (compared bs).mpr entries

theorem set_same_iff {as : List Value} {b : Value} : (set as).same b = true ↔
    ∃ bs, b = set bs ∧ (∀ a ∈ as, a.isIn bs = true) ∧ as.length = bs.length := by
  have compared (bs : List Value) : (set as).same (set bs) = true ↔
      (∀ a ∈ as, a.isIn bs = true) ∧ as.length = bs.length := by
    change (subset as bs && as.length == bs.length) = true ↔ _
    rw [Bool.and_eq_true, beq_iff_eq, subset_iff]
  constructor
  · intro equal
    cases b with
    | set bs => exact ⟨bs, rfl, (compared bs).mp equal⟩
    | _ => cases equal
  · rintro ⟨bs, rfl, members⟩
    exact (compared bs).mpr members

theorem record_same_iff {schema id : Key} {as : Entries} {b : Value} :
    (record schema id as).same b = true ↔ ∃ t j bs, b = record t j bs ∧ (schema == t) = true ∧
      (id == j) = true ∧ as.length = bs.length ∧ EntriesWithin as bs := by
  have compared (t j : Key) (bs : Entries) :
      (record schema id as).same (record t j bs) = true ↔ (schema == t) = true ∧
        (id == j) = true ∧ as.length = bs.length ∧ EntriesWithin as bs := by
    change (schema == t && id == j && as.length == bs.length && within as bs) = true ↔ _
    simp only [Bool.and_eq_true, beq_iff_eq, within_iff, and_assoc]
  constructor
  · intro equal
    cases b with
    | record t j bs => exact ⟨t, j, bs, rfl, (compared t j bs).mp equal⟩
    | _ => cases equal
  · rintro ⟨t, j, bs, rfl, parts⟩
    exact (compared t j bs).mpr parts

theorem isKey_of_same {v w : Value} (equal : v.same w = true) (key : w.isKey = true) :
    v.isKey = true := by
  cases v with
  | list items =>
    obtain ⟨others, rfl, -⟩ := list_same_iff.mp equal
    exact key
  | object entries =>
    obtain ⟨others, rfl, -, -⟩ := object_same_iff.mp equal
    exact key
  | record s i data =>
    obtain ⟨t, j, others, rfl, -⟩ := record_same_iff.mp equal
    exact key
  | _ => rfl

theorem EntriesWithin.trans {as bs cs : Entries} (first : EntriesWithin as bs)
    (later : EntriesWithin bs cs)
    (each : ∀ entry ∈ as, ∀ {b c : Value}, entry.2.same b = true → b.same c = true →
      entry.2.same c = true) : EntriesWithin as cs := by
  intro entry member
  obtain ⟨b, found, equal⟩ := first entry member
  obtain ⟨name, same, among⟩ := Keyed.mem_of_find? found
  obtain ⟨c, found', equal'⟩ := later _ among
  rw [eq_of_beq same] at found'
  exact ⟨c, found', each entry member equal equal'⟩

theorem EntriesWithin.refl {as : Entries} (names : as.names.Nodup)
    (each : ∀ entry ∈ as, entry.2.same entry.2 = true) : EntriesWithin as as :=
  fun entry member =>
    ⟨entry.2, (Keyed.find?_eq_some_iff names entry.1 entry.2).mpr member, each entry member⟩

theorem EntriesWithin.symm {as bs : Entries} (within : EntriesWithin as bs)
    (names : as.names.Nodup) (size : as.length = bs.length)
    (each : ∀ entry ∈ as, ∀ {b : Value}, entry.2.same b = true → b.same entry.2 = true) :
    EntriesWithin bs as := by
  -- With as many entries on both sides, the names of both sides are the same.
  have found : as.names ⊆ bs.names := by
    intro name member
    obtain ⟨entry, listed, rfl⟩ := List.mem_map.mp member
    obtain ⟨b, given, -⟩ := within entry listed
    exact (Keyed.find?_isSome_iff bs entry.1).mp (Option.isSome_of_eq_some given)
  have matched : as.names.Perm bs.names :=
    (List.subperm_of_subset names found).perm_of_length_le (by simp [Keyed.names, size])
  have distinct : bs.names.Nodup := matched.nodup_iff.mp names
  intro entry member
  have listed : entry.1 ∈ as.names := matched.mem_iff.mpr (List.mem_map_of_mem member)
  obtain ⟨⟨name, a⟩, among, same⟩ := List.mem_map.mp listed
  obtain rfl : name = entry.1 := same
  obtain ⟨b, given, equal⟩ := within _ among
  have own := (Keyed.find?_eq_some_iff distinct entry.1 entry.2).mpr member
  obtain rfl : entry.2 = b := Option.some.inj (own.symm.trans given)
  exact ⟨a, (Keyed.find?_eq_some_iff names entry.1 a).mpr among, each _ among equal⟩

theorem same_trans {a b c : Value} (h : a.same b = true) (h' : b.same c = true) :
    a.same c = true := by
  induction a using parts_induction generalizing b c with
  | null =>
    obtain rfl := null_same_iff.mp h
    exact h'
  | text s =>
    obtain rfl := text_same_iff.mp h
    exact h'
  | nan mark =>
    obtain rfl := nan_same_iff.mp h
    exact h'
  | bool _ | int _ | float _ =>
    obtain ⟨y, hb, level⟩ := (number_same_iff rfl).mp h
    obtain ⟨z, hc, level'⟩ := (number_same_iff hb).mp h'
    exact (number_same_iff rfl).mpr ⟨z, hc, Extended.same_trans level level'⟩
  | list as ih =>
    obtain ⟨bs, rfl, items⟩ := list_same_iff.mp h
    obtain ⟨cs, rfl, items'⟩ := list_same_iff.mp h'
    refine list_same_iff.mpr ⟨cs, rfl, ?_⟩
    rw [List.forall₂_iff_get] at items items' ⊢
    refine ⟨items.1.trans items'.1, fun i ha hc => ?_⟩
    have hb := items.1 ▸ ha
    exact ih _ (List.get_mem as ⟨i, ha⟩) (items.2 i ha hb) (items'.2 i hb hc)
  | object as ih =>
    obtain ⟨bs, rfl, size, entries⟩ := object_same_iff.mp h
    obtain ⟨cs, rfl, size', entries'⟩ := object_same_iff.mp h'
    exact object_same_iff.mpr ⟨cs, rfl, size.trans size', entries.trans entries' ih⟩
  | set as ih =>
    obtain ⟨bs, rfl, members, size⟩ := set_same_iff.mp h
    obtain ⟨cs, rfl, members', size'⟩ := set_same_iff.mp h'
    refine set_same_iff.mpr ⟨cs, rfl, fun a member => ?_, size.trans size'⟩
    obtain ⟨b, among, equal⟩ := isIn_iff.mp (members a member)
    obtain ⟨c, among', equal'⟩ := isIn_iff.mp (members' b among)
    exact isIn_iff.mpr ⟨c, among', ih a member equal equal'⟩
  | record s i as ih =>
    obtain ⟨t, j, bs, rfl, schema, id, size, entries⟩ := record_same_iff.mp h
    obtain ⟨u, k, cs, rfl, schema', id', size', entries'⟩ := record_same_iff.mp h'
    exact record_same_iff.mpr ⟨u, k, cs, rfl, BEq.trans schema schema', BEq.trans id id',
      size.trans size', entries.trans entries' ih⟩

theorem WellFormed.same_refl {a : Value} (formed : a.WellFormed) : a.same a = true := by
  induction formed with
  | null => exact null_same_iff.mpr rfl
  | text s => exact text_same_iff.mpr rfl
  | nan mark => exact nan_same_iff.mpr rfl
  | bool _ | int _ | float _ => exact (number_same_iff rfl).mpr ⟨_, rfl, Extended.same_refl _⟩
  | list _ ih => exact list_same_iff.mpr ⟨_, rfl, List.forall₂_same.mpr ih⟩
  | object names _ ih => exact object_same_iff.mpr ⟨_, rfl, rfl, .refl names ih⟩
  | set _ _ _ ih =>
    exact set_same_iff.mpr ⟨_, rfl, fun a member => isIn_iff.mpr ⟨a, member, ih a member⟩, rfl⟩
  | record s i names _ ih =>
    exact record_same_iff.mpr ⟨s, i, _, rfl, BEq.rfl, BEq.rfl, rfl, .refl names ih⟩

/-- Members that differ are not both equal to a common one. -/
theorem separate_of_apart {as bs : List Value} (apart : as.Pairwise fun v w => v.same w = false)
    (symm : ∀ v ∈ as, ∀ {w : Value}, v.same w = true → w.same v = true) :
    as.Pairwise fun v w => ∀ b ∈ bs, v.same b = true → ¬ w.same b = true := by
  apply apart.imp_of_mem
  intro v w _ hw differ b _ first later
  rw [same_trans first (symm w hw later)] at differ
  cases differ

/-- Equality of sets can be turned around: each member of the second one is equal to one of the
first, since otherwise two members of the first would be equal to one of the second. -/
theorem WellFormed.same_symm {a b : Value} (formed : a.WellFormed) (h : a.same b = true) :
    b.same a = true := by
  induction formed generalizing b with
  | null =>
    obtain rfl := null_same_iff.mp h
    exact h
  | text s =>
    obtain rfl := text_same_iff.mp h
    exact h
  | nan mark =>
    obtain rfl := nan_same_iff.mp h
    exact h
  | bool _ | int _ | float _ =>
    obtain ⟨y, hb, level⟩ := (number_same_iff rfl).mp h
    exact (number_same_iff hb).mpr ⟨_, rfl, Extended.same_symm level⟩
  | list _ ih =>
    obtain ⟨bs, rfl, items⟩ := list_same_iff.mp h
    refine list_same_iff.mpr ⟨_, rfl, ?_⟩
    rw [List.forall₂_iff_get] at items ⊢
    exact ⟨items.1.symm, fun i hb ha => ih _ (List.get_mem _ ⟨i, ha⟩) (items.2 i ha hb)⟩
  | object names _ ih =>
    obtain ⟨bs, rfl, size, entries⟩ := object_same_iff.mp h
    exact object_same_iff.mpr ⟨_, rfl, size.symm, entries.symm names size ih⟩
  | @set as keys apart each ih =>
    obtain ⟨bs, rfl, members, size⟩ := set_same_iff.mp h
    refine set_same_iff.mpr ⟨as, rfl, fun b member => ?_, size.symm⟩
    obtain ⟨a, among, equal⟩ := exists_related_of_length_le (separate_of_apart apart ih)
      (fun a member => isIn_iff.mp (members a member)) (Nat.le_of_eq size.symm) b member
    exact isIn_iff.mpr ⟨a, among, ih a among equal⟩
  | record s i names _ ih =>
    obtain ⟨t, j, bs, rfl, schema, id, size, entries⟩ := record_same_iff.mp h
    exact record_same_iff.mpr ⟨s, i, _, rfl, BEq.symm schema, BEq.symm id, size.symm,
      entries.symm names size ih⟩

theorem equals_iff {a b : Value} : a.equals b = true ↔ a.same b = true ∧ a.isNaN = false := by
  rw [equals, Bool.and_eq_true, Bool.not_eq_true']

theorem same_of_equals {a b : Value} (equal : a.equals b = true) : a.same b = true :=
  (equals_iff.mp equal).1

theorem isNaN_of_same {a b : Value} (equal : a.same b = true) : b.isNaN = a.isNaN := by
  cases a with
  | nan mark => rw [nan_same_iff.mp equal]
  | _ =>
    cases b with
    | nan other => cases equal
    | _ => rfl

theorem equals_of_isNaN {a b : Value} (stray : b.isNaN = true) : a.equals b = false := by
  rw [← Bool.not_eq_true, equals_iff]
  rintro ⟨same, number⟩
  rw [isNaN_of_same same, number] at stray
  cases stray

theorem equals_trans {a b c : Value} (first : a.equals b = true) (later : b.equals c = true) :
    a.equals c = true :=
  equals_iff.mpr ⟨same_trans (same_of_equals first) (same_of_equals later), (equals_iff.mp first).2⟩

theorem WellFormed.equals_self {a : Value} (formed : a.WellFormed) : a.equals a = !a.isNaN := by
  rw [equals, formed.same_refl, Bool.true_and]

theorem WellFormed.equals_symm {a b : Value} (formed : a.WellFormed) (equal : a.equals b = true) :
    b.equals a = true := by
  obtain ⟨same, number⟩ := equals_iff.mp equal
  exact equals_iff.mpr ⟨formed.same_symm same, (isNaN_of_same same).trans number⟩

end Value

end RecordRules
