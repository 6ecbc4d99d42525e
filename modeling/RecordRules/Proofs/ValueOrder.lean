import Mathlib.Data.String.Basic
import RecordRules.Condition.Basic
import RecordRules.Proofs.ExactNumbers
import RecordRules.Proofs.RuleDefinitions

/-!
The order of values. Many values have no order, but where there is one it is strict, and equal
values have the same place in it. Lists are compared at the first members that differ, so each law
goes from the members to the lists. Main statement: what comparisons with the ordering operators
have to do with each other and with equality.
-/
namespace RecordRules

namespace Value

theorem textOrder_eq_compare (s t : String) : textOrder s t = Ord.compare s t := by
  unfold textOrder
  split
  · rename_i level
    exact (compare_eq_iff_eq.mpr level).symm
  · rename_i differ
    split
    · rename_i less
      exact (compare_lt_iff_lt.mpr less).symm
    · rename_i notLess
      exact (compare_gt_iff_gt.mpr (lt_of_le_of_ne (not_lt.mp notLess) (Ne.symm differ))).symm

variable {a b c : Value}

theorem number_order? {x : Extended} (ha : a.number? = some x) (b : Value) :
    a.order? b = b.number?.map x.order := by
  cases a <;> cases ha <;> cases b <;> rfl

theorem order?_number {x : Extended} (ha : a.number? = some x) (b : Value) :
    b.order? a = b.number?.map fun y => y.order x := by
  cases a <;> cases ha <;> cases b <;> rfl

theorem number_order?_lt_iff {x : Extended} (ha : a.number? = some x) : a.order? b = some .lt ↔
    ∃ y, b.number? = some y ∧ x.line < y.line := by
  rw [number_order? ha, Option.map_eq_some_iff]
  simp only [Extended.order_eq_lt_iff]

theorem null_order? (b : Value) : null.order? b = none := by cases b <;> rfl

theorem nan_order? (mark : Nat) (b : Value) : (nan mark).order? b = none := by cases b <;> rfl

theorem object_order? (entries : Entries) (b : Value) : (object entries).order? b = none := by
  cases b <;> rfl

theorem record_order? (schema id : Key) (data : Entries) (b : Value) :
    (record schema id data).order? b = none := by
  cases b <;> rfl

theorem text_order? (s t : String) : (text s).order? (text t) = some (Ord.compare s t) :=
  congrArg some (textOrder_eq_compare s t)

theorem set_order? (as bs : List Value) : (set as).order? (set bs) =
    match subset as bs, subset bs as with
    | true, true => some .eq
    | true, false => some .lt
    | false, true => some .gt
    | false, false => none := rfl

theorem orderItems?_cons (x y : Value) (xs ys : List Value) :
    orderItems? (x :: xs) (y :: ys) = if x.same y then orderItems? xs ys else x.order? y := rfl

theorem text_order?_lt_iff {s : String} :
    (text s).order? b = some .lt ↔ ∃ t, b = text t ∧ s < t := by
  constructor
  · intro less
    cases b with
    | text t =>
      rw [text_order?, Option.some.injEq, compare_lt_iff_lt] at less
      exact ⟨t, rfl, less⟩
    | _ => cases less
  · rintro ⟨t, rfl, less⟩
    rw [text_order?, compare_lt_iff_lt.mpr less]

theorem list_order?_lt_iff {as : List Value} :
    (list as).order? b = some .lt ↔ ∃ bs, b = list bs ∧ orderItems? as bs = some .lt := by
  constructor
  · intro less
    cases b with
    | list bs => exact ⟨bs, rfl, less⟩
    | _ => cases less
  · rintro ⟨bs, rfl, less⟩
    exact less

theorem set_order?_lt_iff {as : List Value} : (set as).order? b = some .lt ↔
    ∃ bs, b = set bs ∧ subset as bs = true ∧ subset bs as = false := by
  constructor
  · intro less
    cases b with
    | set bs =>
      rw [set_order?] at less
      split at less
      case h_2 sub proper => exact ⟨bs, rfl, sub, proper⟩
      all_goals cases less
    | _ => cases less
  · rintro ⟨bs, rfl, sub, proper⟩
    rw [set_order?, sub, proper]

theorem WellFormed.same_comm (ha : a.WellFormed) (hb : b.WellFormed) : a.same b = b.same a := by
  rw [Bool.eq_iff_iff]
  exact ⟨ha.same_symm, hb.same_symm⟩

theorem WellFormed.same_congr (ha : a.WellFormed) (equal : a.same b = true) (c : Value) :
    a.same c = b.same c := by
  rw [Bool.eq_iff_iff]
  exact ⟨same_trans (ha.same_symm equal), same_trans equal⟩

theorem orderItems?_swap {as bs : List Value} (ha : ∀ v ∈ as, v.WellFormed)
    (hb : ∀ v ∈ bs, v.WellFormed)
    (each : ∀ x ∈ as, ∀ y ∈ bs, y.order? x = (x.order? y).map Ordering.swap) :
    orderItems? bs as = (orderItems? as bs).map Ordering.swap := by
  induction as generalizing bs with
  | nil => cases bs <;> rfl
  | cons x xs ih =>
    cases bs with
    | nil => rfl
    | cons y ys =>
      obtain ⟨formedX, formedXs⟩ := List.forall_mem_cons.mp ha
      obtain ⟨formedY, formedYs⟩ := List.forall_mem_cons.mp hb
      rw [orderItems?_cons, orderItems?_cons, formedY.same_comm formedX]
      split
      · exact ih formedXs formedYs fun x' hx y' hy =>
          each x' (List.mem_cons_of_mem x hx) y' (List.mem_cons_of_mem y hy)
      · exact each x List.mem_cons_self y List.mem_cons_self

theorem number_order?_swap {x : Extended} (ha : a.number? = some x) (b : Value) :
    b.order? a = (a.order? b).map Ordering.swap := by
  rw [number_order? ha, order?_number ha, Option.map_map]
  congr 1
  funext y
  rw [Function.comp_apply, Extended.order_eq_compare, Extended.order_eq_compare]
  exact Std.OrientedOrd.eq_swap

theorem WellFormed.order?_swap (ha : a.WellFormed) (hb : b.WellFormed) :
    b.order? a = (a.order? b).map Ordering.swap := by
  induction a using parts_induction generalizing b with
  | null =>
    rw [null_order?]
    cases b <;> rfl
  | nan mark =>
    rw [nan_order?]
    cases b <;> rfl
  | bool _ | int _ | float _ => exact number_order?_swap rfl b
  | text s =>
    cases b with
    | text t =>
      rw [text_order?, text_order?, Option.map_some]
      exact congrArg some Std.OrientedOrd.eq_swap
    | _ => rfl
  | list as ih =>
    cases b with
    | list bs =>
      exact orderItems?_swap (fun _ => ha.of_mem) (fun _ => hb.of_mem)
        fun x hx y hy => ih x hx (ha.of_mem hx) (hb.of_mem hy)
    | _ => rfl
  | object _ _ => cases b <;> rfl
  | record _ _ _ _ => cases b <;> rfl
  | set as _ =>
    cases b with
    | set bs =>
      rw [set_order?, set_order?]
      cases subset as bs <;> cases subset bs as <;> rfl
    | _ => rfl

theorem orderItems?_congr {as bs cs : List Value} (ha : ∀ v ∈ as, v.WellFormed)
    (items : List.Forall₂ (fun x y => x.same y = true) as bs)
    (each : ∀ x ∈ as, ∀ y ∈ bs, x.same y = true → ∀ z, x.order? z = y.order? z) :
    orderItems? as cs = orderItems? bs cs := by
  induction items generalizing cs with
  | nil => rfl
  | @cons x y xs ys level _ ih =>
    cases cs with
    | nil => rfl
    | cons z zs =>
      obtain ⟨formedX, formedXs⟩ := List.forall_mem_cons.mp ha
      rw [orderItems?_cons, orderItems?_cons, formedX.same_congr level,
        each x List.mem_cons_self y List.mem_cons_self level]
      split
      · exact ih formedXs fun x' hx y' hy =>
          each x' (List.mem_cons_of_mem x hx) y' (List.mem_cons_of_mem y hy)
      · rfl

theorem subset_trans {as bs cs : List Value} (first : subset as bs = true)
    (later : subset bs cs = true) : subset as cs = true := by
  rw [subset_iff] at first later ⊢
  intro v member
  obtain ⟨w, among, equal⟩ := isIn_iff.mp (first v member)
  obtain ⟨u, inside, equal'⟩ := isIn_iff.mp (later w among)
  exact isIn_iff.mpr ⟨u, inside, same_trans equal equal'⟩

theorem WellFormed.subset_of_same {as bs : List Value} (ha : (Value.set as).WellFormed)
    (equal : (Value.set as).same (.set bs) = true) : subset as bs = true ∧ subset bs as = true := by
  have back := ha.same_symm equal
  obtain ⟨_, ⟨⟩, inside, -⟩ := set_same_iff.mp equal
  obtain ⟨_, ⟨⟩, inside', -⟩ := set_same_iff.mp back
  exact ⟨subset_iff.mpr inside, subset_iff.mpr inside'⟩

theorem subset_congr {as bs : List Value} (sub : subset as bs = true)
    (sup : subset bs as = true) (cs : List Value) : subset as cs = subset bs cs := by
  rw [Bool.eq_iff_iff]
  exact ⟨subset_trans sup, subset_trans sub⟩

theorem subset_congr_right {as bs : List Value} (sub : subset as bs = true)
    (sup : subset bs as = true) (cs : List Value) : subset cs as = subset cs bs := by
  rw [Bool.eq_iff_iff]
  exact ⟨fun within => subset_trans within sub, fun within => subset_trans within sup⟩

theorem number_order?_congr {x : Extended} (ha : a.number? = some x) (equal : a.same b = true)
    (c : Value) : a.order? c = b.order? c := by
  obtain ⟨y, hb, level⟩ := (number_same_iff ha).mp equal
  have alike : x.order = y.order := by
    funext z
    rw [Extended.order_eq_compare, Extended.order_eq_compare, (Extended.same_iff_line x y).mp level]
  rw [number_order? ha, number_order? hb, alike]

/-- Equal values have the same place in the order. -/
theorem WellFormed.order?_congr (ha : a.WellFormed) (equal : a.same b = true) (c : Value) :
    a.order? c = b.order? c := by
  induction a using parts_induction generalizing b c with
  | null => rw [null_same_iff.mp equal]
  | nan mark => rw [nan_same_iff.mp equal]
  | bool _ | int _ | float _ => exact number_order?_congr rfl equal c
  | text s => rw [text_same_iff.mp equal]
  | list as ih =>
    obtain ⟨bs, rfl, items⟩ := list_same_iff.mp equal
    cases c with
    | list cs =>
      exact orderItems?_congr (fun _ => ha.of_mem) items
        fun x hx _ _ level z => ih x hx (ha.of_mem hx) level z
    | _ => rfl
  | object as _ =>
    obtain ⟨bs, rfl, -⟩ := object_same_iff.mp equal
    rw [object_order?, object_order?]
  | record s i as _ =>
    obtain ⟨t, j, bs, rfl, -⟩ := record_same_iff.mp equal
    rw [record_order?, record_order?]
  | set as _ =>
    obtain ⟨bs, rfl, -⟩ := set_same_iff.mp equal
    obtain ⟨sub, sup⟩ := ha.subset_of_same equal
    cases c with
    | set cs => rw [set_order?, set_order?, subset_congr sub sup, subset_congr_right sub sup]
    | _ => rfl

theorem WellFormed.order?_congr_right (ha : a.WellFormed) (hb : b.WellFormed) (hc : c.WellFormed)
    (equal : b.same c = true) : a.order? b = a.order? c := by
  rw [hb.order?_swap ha, hc.order?_swap ha, hb.order?_congr equal]

theorem WellFormed.not_same_of_less (ha : a.WellFormed) (hb : b.WellFormed)
    (less : a.order? b = some .lt) : a.same b = false := by
  rw [← Bool.not_eq_true]
  intro equal
  rw [ha.order?_congr equal] at less
  have turned := hb.order?_swap hb
  rw [less] at turned
  cases turned

theorem orderItems?_trans {as bs cs : List Value} (ha : ∀ v ∈ as, v.WellFormed)
    (hb : ∀ v ∈ bs, v.WellFormed) (hc : ∀ v ∈ cs, v.WellFormed)
    (each : ∀ x ∈ as, ∀ y ∈ bs, ∀ z ∈ cs, x.order? y = some .lt → y.order? z = some .lt →
      x.order? z = some .lt)
    (first : orderItems? as bs = some .lt) (later : orderItems? bs cs = some .lt) :
    orderItems? as cs = some .lt := by
  induction as generalizing bs cs with
  | nil =>
    cases bs with
    | nil => cases first
    | cons y ys =>
      cases cs with
      | nil => cases later
      | cons z zs => rfl
  | cons x xs ih =>
    cases bs with
    | nil => cases first
    | cons y ys =>
    cases cs with
    | nil => cases later
    | cons z zs =>
      obtain ⟨formedX, formedXs⟩ := List.forall_mem_cons.mp ha
      obtain ⟨formedY, formedYs⟩ := List.forall_mem_cons.mp hb
      obtain ⟨formedZ, formedZs⟩ := List.forall_mem_cons.mp hc
      rw [orderItems?_cons] at first later ⊢
      by_cases xy : x.same y = true
      · rw [if_pos xy] at first
        rw [formedX.same_congr xy, formedX.order?_congr xy]
        by_cases yz : y.same z = true
        · rw [if_pos yz] at later ⊢
          exact ih formedXs formedYs formedZs (fun x' hx y' hy z' hz =>
            each x' (List.mem_cons_of_mem x hx) y' (List.mem_cons_of_mem y hy) z'
              (List.mem_cons_of_mem z hz)) first later
        · rw [if_neg yz] at later ⊢
          exact later
      · rw [if_neg xy] at first
        have less : x.order? z = some .lt := by
          by_cases yz : y.same z = true
          · rwa [← formedX.order?_congr_right formedY formedZ yz]
          · rw [if_neg yz] at later
            exact each x List.mem_cons_self y List.mem_cons_self z List.mem_cons_self first later
        rw [formedX.not_same_of_less formedZ less]
        exact less

theorem number_order?_trans {x : Extended} (ha : a.number? = some x)
    (first : a.order? b = some .lt) (later : b.order? c = some .lt) : a.order? c = some .lt := by
  obtain ⟨y, hb, less⟩ := (number_order?_lt_iff ha).mp first
  obtain ⟨z, hc, less'⟩ := (number_order?_lt_iff hb).mp later
  exact (number_order?_lt_iff ha).mpr ⟨z, hc, less.trans less'⟩

theorem WellFormed.order?_trans (ha : a.WellFormed) (hb : b.WellFormed) (hc : c.WellFormed)
    (first : a.order? b = some .lt) (later : b.order? c = some .lt) : a.order? c = some .lt := by
  induction a using parts_induction generalizing b c with
  | null =>
    rw [null_order?] at first
    cases first
  | nan mark =>
    rw [nan_order?] at first
    cases first
  | bool _ | int _ | float _ => exact number_order?_trans rfl first later
  | text s =>
    obtain ⟨t, rfl, less⟩ := text_order?_lt_iff.mp first
    obtain ⟨u, rfl, less'⟩ := text_order?_lt_iff.mp later
    exact text_order?_lt_iff.mpr ⟨u, rfl, less.trans less'⟩
  | list as ih =>
    obtain ⟨bs, rfl, less⟩ := list_order?_lt_iff.mp first
    obtain ⟨cs, rfl, less'⟩ := list_order?_lt_iff.mp later
    refine list_order?_lt_iff.mpr ⟨cs, rfl, ?_⟩
    exact orderItems?_trans (fun _ => ha.of_mem) (fun _ => hb.of_mem) (fun _ => hc.of_mem)
      (fun x hx y hy z hz => ih x hx (ha.of_mem hx) (hb.of_mem hy) (hc.of_mem hz)) less less'
  | object entries _ =>
    rw [object_order?] at first
    cases first
  | record schema id data _ =>
    rw [record_order?] at first
    cases first
  | set as _ =>
    obtain ⟨bs, rfl, sub, proper⟩ := set_order?_lt_iff.mp first
    obtain ⟨cs, rfl, sub', -⟩ := set_order?_lt_iff.mp later
    refine set_order?_lt_iff.mpr ⟨cs, rfl, subset_trans sub sub', ?_⟩
    rw [← Bool.not_eq_true] at proper ⊢
    exact fun sup => proper (subset_trans sub' sup)

theorem isLess_iff : a.isLess b = true ↔ a.order? b = some .lt := beq_iff_eq

theorem isAtMost_iff : a.isAtMost b = true ↔ a.order? b = some .lt ∨ a.order? b = some .eq := by
  simp [isAtMost]

theorem isGreater_iff : a.isGreater b = true ↔ a.order? b = some .gt := beq_iff_eq

theorem isAtLeast_iff : a.isAtLeast b = true ↔ a.order? b = some .gt ∨ a.order? b = some .eq := by
  simp [isAtLeast]

theorem WellFormed.isGreater_eq (ha : a.WellFormed) (hb : b.WellFormed) :
    a.isGreater b = b.isLess a := by
  rw [Bool.eq_iff_iff, isGreater_iff, isLess_iff, ha.order?_swap hb]
  cases a.order? b with
  | none => simp
  | some order => cases order <;> simp

theorem WellFormed.isAtLeast_eq (ha : a.WellFormed) (hb : b.WellFormed) :
    a.isAtLeast b = b.isAtMost a := by
  rw [Bool.eq_iff_iff, isAtLeast_iff, isAtMost_iff, ha.order?_swap hb]
  cases a.order? b with
  | none => simp
  | some order => cases order <;> simp

end Value

namespace Operator

/-- What the comparisons of three values have to do with each other. What comes strictly first is a
matter of a partial order on values up to equality. The other operators read the same order, from
the other side and with what is level. Only what is no number is not equal to itself. -/
structure Coherent (a b c : Value) : Prop where
  lt_irrefl : lt.compare a a = false
  lt_asymm : lt.compare a b = true → lt.compare b a = false
  lt_trans : lt.compare a b = true → lt.compare b c = true → lt.compare a c = true
  gt_eq_lt : gt.compare a b = lt.compare b a
  gte_eq_lte : gte.compare a b = lte.compare b a
  gt_iff : gt.compare a b = true ↔ a.order? b = some .gt
  gte_iff : gte.compare a b = true ↔ a.order? b = some .gt ∨ a.order? b = some .eq
  lte_of_lt : lt.compare a b = true → lte.compare a b = true
  not_gte_of_lt : lt.compare a b = true → gte.compare a b = false
  not_eq_of_lt : lt.compare a b = true → eq.compare a b = false
  eq_refl : eq.compare a a = !a.isNaN
  eq_symm : eq.compare a b = true → eq.compare b a = true
  eq_trans : eq.compare a b = true → eq.compare b c = true → eq.compare a c = true
  lt_of_eq_of_lt : eq.compare a b = true → lt.compare b c = true → lt.compare a c = true

variable {a b c : Value}

theorem lt_iff : lt.compare a b = true ↔ a.order? b = some .lt := Value.isLess_iff

theorem not_lt_of_same (ha : a.WellFormed) (hb : b.WellFormed) (equal : a.same b = true) :
    lt.compare a b = false := by
  rw [← Bool.not_eq_true, lt_iff]
  intro less
  rw [ha.not_same_of_less hb less] at equal
  cases equal

/-- Ordering is a strict partial order that respects equality, whatever the values are. -/
theorem compare_coherent (a b c : Value) (ha : a.WellFormed) (hb : b.WellFormed)
    (hc : c.WellFormed) : Coherent a b c where
  lt_irrefl := not_lt_of_same ha ha ha.same_refl
  lt_asymm less := by
    rw [← Bool.not_eq_true, lt_iff, ha.order?_swap hb, lt_iff.mp less]
    simp
  lt_trans less less' := lt_iff.mpr (ha.order?_trans hb hc (lt_iff.mp less) (lt_iff.mp less'))
  gt_eq_lt := ha.isGreater_eq hb
  gte_eq_lte := ha.isAtLeast_eq hb
  gt_iff := Value.isGreater_iff
  gte_iff := Value.isAtLeast_iff
  lte_of_lt less := Value.isAtMost_iff.mpr (.inl (lt_iff.mp less))
  not_gte_of_lt less := by
    change a.isAtLeast b = false
    rw [← Bool.not_eq_true, Value.isAtLeast_iff, lt_iff.mp less]
    simp
  not_eq_of_lt less := by
    change a.equals b = false
    rw [Value.equals, ha.not_same_of_less hb (lt_iff.mp less), Bool.false_and]
  eq_refl := ha.equals_self
  eq_symm := ha.equals_symm
  eq_trans := Value.equals_trans
  lt_of_eq_of_lt equal less := by
    rw [lt_iff, ha.order?_congr (Value.same_of_equals equal)]
    exact lt_iff.mp less

/-- Three lists in their order: false is less than one half, and a list comes after its own
beginning. Truth values stand for numbers, and nothing has no order but is equal to itself. -/
theorem compare_coherent_lists :
    let half : Binary64.Finite := ⟨false, 2 ^ 52, -53⟩
    let a : Value := .list [.null, .int 1, .bool false]
    let b : Value := .list [.null, .bool true, .float (.finite half)]
    let c : Value := .list [.null, .int 1, .float (.finite half), .object [("x", .null)]]
    half.IsCanonical ∧ lt.compare a b = true ∧ lt.compare b c = true ∧ Coherent a b c := by
  intro half a b c
  exact ⟨by decide, by decide, by decide,
    compare_coherent a b c (Value.wellFormed_of_isPlain rfl rfl)
      (Value.wellFormed_of_isPlain rfl rfl) (Value.wellFormed_of_isPlain rfl rfl)⟩

end Operator

end RecordRules
