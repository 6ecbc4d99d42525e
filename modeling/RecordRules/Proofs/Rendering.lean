import RecordRules.Engine.View
import RecordRules.Proofs.ComposedContracts
import RecordRules.Proofs.UpdateSteps

/-!
Rendering records. A view renders a record with what is nested in it, level by level, and what a
record is rendered with depends on its schema alone. Main statements: where all that is nested ends
within a number of levels, no further level is ever reached; and where a value is answered, it does
end so.
-/
namespace RecordRules

open Step

namespace Step

variable {σ α β : Type} {P : σ → Prop}

/-- From the states of a kind, two operations do the same, and they leave a state of that kind. -/
def Agrees (P : σ → Prop) (step other : Step σ α) : Prop :=
  ∀ s, P s → exec step s = exec other s ∧ P (exec step s).2

theorem agrees_refl {step : Step σ α} (kept : ∀ s, P s → P (exec step s).2) :
    Agrees P step step := fun s holds => ⟨rfl, kept s holds⟩

theorem agrees_bind {step other : Step σ α} {next later : α → Step σ β}
    (first : Agrees P step other) (rest : ∀ x, Agrees P (next x) (later x)) :
    Agrees P (step >>= next) (other >>= later) := by
  intro s holds
  obtain ⟨same, kept⟩ := first s holds
  rw [exec_bind, exec_bind, ← same]
  cases ran : exec step s with
  | mk outcome t =>
    rw [ran] at kept
    cases outcome with
    | error failure => exact ⟨rfl, kept⟩
    | ok x => exact rest x t kept

theorem agrees_yields_bind {step : Step σ α} {next later : α → Step σ β} {x : α}
    (first : Yields P step (.ok x)) (rest : Agrees P (next x) (later x)) :
    Agrees P (step >>= next) (step >>= later) := by
  intro s holds
  obtain ⟨answered, kept⟩ := first s holds
  rw [exec_bind, exec_bind]
  cases ran : exec step s with
  | mk outcome t =>
    rw [ran] at answered kept
    obtain rfl : outcome = .ok x := answered
    exact rest t kept

end Step

theorem Scaled.mantissa_eq_zero_iff {x y : Scaled} (same : x.same y = true) :
    x.mantissa = 0 ↔ y.mantissa = 0 := by
  have positive (n : Nat) : ((Nat.pow 2 n : Nat) : Int) ≠ 0 := by
    have : 0 < Nat.pow 2 n := Nat.pow_pos (by decide)
    omega
  have hx : min x.exponent y.exponent ≤ x.exponent := Int.min_le_left _ _
  have hy : min x.exponent y.exponent ≤ y.exponent := Int.min_le_right _ _
  have units := (same_iff hx hy).mp same
  rw [unitsAt, unitsAt] at units
  constructor
  · intro zero
    rw [zero, Int.zero_mul, eq_comm, Int.mul_eq_zero] at units
    exact units.resolve_right (positive _)
  · intro zero
    rw [zero, Int.zero_mul, Int.mul_eq_zero] at units
    exact units.resolve_right (positive _)

namespace Extended

def IsZero : Extended → Prop
  | exact x => x.mantissa = 0
  | _ => False

theorem isZero_iff_of_same {a b : Extended} (same : a.same b = true) : a.IsZero ↔ b.IsZero := by
  rcases same_cases same with rfl | ⟨x, y, rfl, rfl, level⟩
  · exact Iff.rfl
  · exact Scaled.mantissa_eq_zero_iff level

end Extended

namespace Key

theorem isTrue_of_number {key : Key} {x : Extended} (number : key.number? = some x) :
    key.toValue.isTrue = true ↔ ¬ x.IsZero := by
  cases key with
  | null => cases number
  | text _ => cases number
  | bool b =>
    obtain rfl := Option.some.inj number
    cases b <;> simp [toValue, Value.isTrue, Extended.IsZero, Extended.ofInt]
  | int n =>
    obtain rfl := Option.some.inj number
    simp [toValue, Value.isTrue, Extended.IsZero, Extended.ofInt]
  | float f =>
    obtain rfl := Option.some.inj number
    cases f with
    | infinite negative => cases negative <;> simp [toValue, Value.isTrue, Binary64.isZero,
        Binary64.place, Extended.IsZero]
    | finite y =>
      simp only [toValue, Value.isTrue, Binary64.isZero, Binary64.place, Binary64.Finite.exact,
        Extended.IsZero, Bool.not_eq_true', beq_eq_false_iff_ne]
      split <;> omega

theorem isTrue_of_same {key other : Key} (same : (key == other) = true)
    (true_key : key.toValue.isTrue = true) : other.toValue.isTrue = true := by
  rcases same_cases same with rfl | ⟨x, y, hx, hy, equal⟩
  · exact true_key
  · rw [isTrue_of_number hy]
    rw [isTrue_of_number hx] at true_key
    exact fun zero => true_key ((Extended.isZero_iff_of_same equal).mpr zero)

end Key

namespace Store

theorem mem_children {s : Store} {c : Catalog} {r q : Record} {only : Value} :
    q ∈ s.children c r only ↔ ∃ edge ∈ c.edges, (edge.parent == r.schema) = true ∧
      countsFor only edge.child.toValue = true ∧ q ∈ s.referring r edge.child edge.field := by
  simp only [children, Catalog.childrenOf, List.mem_flatMap, List.mem_filter, List.mem_map]
  constructor
  · rintro ⟨_, ⟨⟨edge, ⟨listed, parent⟩, rfl⟩, counts⟩, inside⟩
    exact ⟨edge, listed, parent, counts, inside⟩
  · rintro ⟨edge, listed, parent, counts, inside⟩
    exact ⟨_, ⟨⟨edge, ⟨listed, parent⟩, rfl⟩, counts⟩, inside⟩

theorem mem_referring {s : Store} {r q : Record} {schema : Key} {f : Field} :
    q ∈ s.referring r schema f ↔
      (∃ id data, (id, data) ∈ s.table schema ∧ q = ⟨schema, id, data⟩) ∧
        (q.data.get f.name).names r.id = true := by
  simp only [referring, recordsOf, List.mem_filter, List.mem_map, Prod.exists]
  constructor
  · rintro ⟨⟨id, data, listed, rfl⟩, refers⟩
    exact ⟨⟨id, data, listed, rfl⟩, refers⟩
  · rintro ⟨⟨id, data, listed, rfl⟩, refers⟩
    exact ⟨⟨id, data, listed, rfl⟩, refers⟩

end Store

namespace Engine

section

variable {α β : Type} {P : Store → Prop}

theorem agrees_collectAll {step other : α → Step Store β} {xs : List α}
    (each : ∀ x ∈ xs, Agrees P (step x) (other x)) :
    Agrees P (collectAll step xs) (collectAll other xs) := by
  induction xs with
  | nil => exact agrees_refl fun _ holds => holds
  | cons x rest ih =>
    rw [List.forall_mem_cons] at each
    refine agrees_bind each.1 fun first => agrees_bind (ih each.2) fun others => ?_
    exact agrees_refl fun _ holds => holds

variable {R : Store → Store → Prop} [IsPreorder Store R] {step : α → Step Store β}

theorem collectAll_moves (each : ∀ x, Moves R (step x)) (xs : List α) :
    Moves R (collectAll step xs) := by
  induction xs with
  | nil => exact moves_pure []
  | cons x rest ih =>
    exact moves_bind (each x) fun _ => moves_bind ih fun _ => moves_pure _

theorem exists_of_collectAll {xs : List α} {ys : List β} {s t : Store}
    (each : ∀ x, Moves R (step x)) (ran : exec (collectAll step xs) s = (.ok ys, t)) :
    ∀ x ∈ xs, ∃ before y after, R s before ∧ exec (step x) before = (.ok y, after) := by
  induction xs generalizing s ys with
  | nil => exact fun x none => absurd none List.not_mem_nil
  | cons x rest ih =>
    obtain ⟨y, middle, first, ran⟩ := exec_bind_eq_ok.mp ran
    obtain ⟨others, after, later, ran⟩ := exec_bind_eq_ok.mp ran
    obtain ⟨-, rfl⟩ := Prod.mk.inj ran
    have between := each x s
    rw [first] at between
    refine List.forall_mem_cons.mpr ⟨⟨s, y, middle, refl s, first⟩, fun other listed => ?_⟩
    obtain ⟨before, z, left, moved, answered⟩ := ih later other listed
    exact ⟨before, z, left, IsTrans.trans s middle before between moved, answered⟩

end

def shownUnder (e : Engine) (inside : Contract → Record → Step Store Value) (k : Contract)
    (r : Record) (child : ChildRequirement) : Step Store (String × Value) := do
  let records ← Store.related e.catalog r .child child.schema
  let views ← collectAll (inside (e.contracts.nested e.catalog k child)) records
  return (child.key.embedded, underAlias child views)

/-- Rendering a record, given how what is nested in it is rendered. -/
def rendered (e : Engine) (inside : Contract → Record → Step Store Value) (k : Contract)
    (r : Record) : Step Store Value := do
  let state ← e.stateOf r
  let children ← collectAll (e.shownUnder inside k r) k.children
  let withChildren := (ownView k state r).merge children
  return .object (withChildren.put "$state" (← Step.ofExcept state.toValue))

theorem viewWithin_eq_iterate (e : Engine) (levels : Nat) :
    e.viewWithin levels =
      e.rendered^[levels] (fun _ r => throw (.endlessView r.schema r.id)) := by
  induction levels with
  | zero => rfl
  | succ levels ih =>
    rw [Function.iterate_succ_apply', ← ih]
    rfl

structure Views (e : Engine) (k : Contract) (r : Record) : Prop where
  composes : e.Composes k
  target : k.target = .view
  schema : e.catalog.get? r.schema = some k.schema

def Nests (e : Engine) (s : Store) (placement : Placement) (r q : Record) : Prop :=
  ∃ k, e.compose r.schema .view placement = .ok k ∧
    ∃ child ∈ k.children, q ∈ s.children e.catalog r child.schema

/-- All that is nested in a record ends within so many levels, its own included. -/
def Ends (e : Engine) (s : Store) : Nat → Placement → Record → Prop
  | 0, _, _ => False
  | levels + 1, placement, r => ∀ q, e.Nests s placement r q → e.Ends s levels .nested q

variable {e : Engine} {s : Store} {k : Contract} {r q : Record}

theorem Ends.mono {levels : Nat} {placement : Placement} (ends : e.Ends s levels placement r) :
    ∀ more, levels ≤ more → e.Ends s more placement r := by
  induction levels generalizing placement r with
  | zero => exact ends.elim
  | succ levels ih =>
    intro more enough
    cases more with
    | zero => exact absurd enough (Nat.not_succ_le_zero levels)
    | succ more => exact fun q nests => ih (ends q nests) more (Nat.le_of_succ_le_succ enough)

theorem Composes.children (composes : e.Composes k) (parent : Value) :
    (e.contracts.contractOf k.schema k.target k.placement parent).children = k.children := by
  obtain ⟨key, other, -, same⟩ := composes
  conv_rhs => rw [same]
  unfold ContractBook.contractOf
  split <;> rfl

namespace Views

theorem nests_iff (views : e.Views k r) :
    e.Nests s k.placement r q ↔ ∃ child ∈ k.children, q ∈ s.children e.catalog r child.schema := by
  have children := views.composes.children .null
  rw [views.target] at children
  constructor
  · rintro ⟨other, composed, child, listed, inside⟩
    obtain ⟨t, found, rfl⟩ := compose_eq_ok.mp composed
    obtain rfl : k.schema = t := Option.some.inj (views.schema.symm.trans found)
    exact ⟨child, children ▸ listed, inside⟩
  · rintro ⟨child, listed, inside⟩
    exact ⟨_, compose_eq_ok.mpr ⟨k.schema, views.schema, rfl⟩, child, children ▸ listed, inside⟩

theorem child_schema (views : e.Views k r) (fits : e.Fits) {child : ChildRequirement}
    (listed : child ∈ k.children) {edge : Edge}
    (counts : Store.countsFor child.schema edge.child.toValue = true) :
    child.schema.names edge.child = true := by
  obtain ⟨key, t, named, found, -⟩ := views.composes.nested fits listed
  obtain ⟨checked, own, called, present⟩ := fits.catalog.of_get? found
  have whole : child.schema.isTrue = true := by
    obtain ⟨other, same, among⟩ := Keyed.mem_of_find? found
    obtain rfl : other = own :=
      Except.ok.inj ((fits.catalog.checked other t among).2.symm.trans called)
    rw [Key.eq_of_ofValue named]
    refine Key.isTrue_of_same same ?_
    rw [← Key.eq_of_ofValue called]
    exact checked.name_isTrue
  rw [Store.countsFor, whole] at counts
  exact counts

theorem nested (views : e.Views k r) (fits : e.Fits) {child : ChildRequirement}
    (listed : child ∈ k.children) (inside : q ∈ s.children e.catalog r child.schema) :
    e.Views (e.contracts.nested e.catalog k child) q ∧
      (e.contracts.nested e.catalog k child).placement = .nested := by
  obtain ⟨edge, -, -, counts, among⟩ := Store.mem_children.mp inside
  obtain ⟨⟨id, data, -, rfl⟩, -⟩ := Store.mem_referring.mp among
  have names := views.child_schema fits listed counts
  obtain ⟨key, t, named, found, same, -⟩ := views.composes.nested fits listed
  rw [Value.names_of_key named] at names
  rw [same]
  refine ⟨⟨composes_contractOf found _ _ _, ?_, ?_⟩, ContractBook.contractOf_placement _ _ _ _ _⟩
  · rw [ContractBook.contractOf_target, views.target]
  · rw [ContractBook.contractOf_schema, ← found]
    exact (Keyed.find?_congr names _).symm

end Views

theorem agrees_rendered {inside other : Contract → Record → Step Store Value}
    (each : ∀ child ∈ k.children, ∀ q ∈ s.children e.catalog r child.schema,
      Agrees (Store.SameRows s) (inside (e.contracts.nested e.catalog k child) q)
        (other (e.contracts.nested e.catalog k child) q)) :
    Agrees (Store.SameRows s) (e.rendered inside k r) (e.rendered other k r) := by
  have stays {α : Type} {step : Step Store α} (moves : Moves Store.SameRows step) :
      Agrees (Store.SameRows s) step step :=
    agrees_refl fun t same => IsTrans.trans (r := Store.SameRows) s t _ same (moves t)
  refine agrees_bind (stays (e.stateOf_moves r)) fun state => ?_
  refine agrees_bind (agrees_collectAll fun child listed => ?_) fun children =>
    stays (moves_bind (moves_ofExcept _) fun _ => moves_pure _)
  refine agrees_yields_bind (Store.related_yields s e.catalog r .child child.schema) ?_
  refine agrees_bind (agrees_collectAll (each child listed)) fun views => ?_
  exact stays (moves_pure _)

/-- Once all that is nested has ended, it does not matter what would be rendered below. -/
theorem agrees_of_ends (fits : e.Fits) {below other : Contract → Record → Step Store Value} :
    ∀ {levels : Nat} {k : Contract} {r : Record}, e.Views k r → e.Ends s levels k.placement r →
      ∀ {m n : Nat}, levels ≤ m → levels ≤ n →
        Agrees (Store.SameRows s) (e.rendered^[m] below k r) (e.rendered^[n] other k r) := by
  intro levels
  induction levels with
  | zero => exact fun _ ends => ends.elim
  | succ levels ih =>
    intro k r views ends m n hm hn
    obtain ⟨m, rfl⟩ := Nat.exists_eq_add_of_lt hm
    obtain ⟨n, rfl⟩ := Nat.exists_eq_add_of_lt hn
    rw [Function.iterate_succ_apply', Function.iterate_succ_apply']
    refine agrees_rendered fun child listed q inside => ?_
    obtain ⟨nested, placement⟩ := views.nested fits listed inside
    have within := ends q (views.nests_iff.mpr ⟨child, listed, inside⟩)
    rw [← placement] at within
    exact ih nested within (Nat.le_add_right _ _) (Nat.le_add_right _ _)

section

variable {R : Store → Store → Prop} [Store.Looks R]

theorem shownUnder_moves {inside : Contract → Record → Step Store Value}
    (each : ∀ k r, Moves R (inside k r)) (k : Contract) (r : Record) (child : ChildRequirement) :
    Moves R (e.shownUnder inside k r child) := by
  refine moves_bind (Store.related_moves e.catalog r .child child.schema) fun records => ?_
  exact moves_bind (collectAll_moves (each _) records) fun views => moves_pure _

theorem rendered_moves {inside : Contract → Record → Step Store Value}
    (each : ∀ k r, Moves R (inside k r)) (k : Contract) (r : Record) :
    Moves R (e.rendered inside k r) := by
  refine moves_bind (e.stateOf_moves r) fun state => ?_
  exact moves_bind (collectAll_moves (shownUnder_moves each k r) _) fun children =>
    moves_bind (moves_ofExcept _) fun _ => moves_pure _

theorem viewWithin_moves : ∀ levels k r, Moves R (e.viewWithin levels k r)
  | 0, _, _ => moves_throw _
  | levels + 1, k, r => rendered_moves (viewWithin_moves levels) k r

end

theorem exists_of_rendered {inside : Contract → Record → Step Store Value}
    (moves : ∀ k r, Moves Store.SameRows (inside k r)) {t u : Store} {v : Value}
    (same : Store.SameRows s t) (ran : exec (e.rendered inside k r) t = (.ok v, u)) :
    ∀ child ∈ k.children, ∀ q ∈ s.children e.catalog r child.schema,
      ∃ before w after, Store.SameRows s before ∧
        exec (inside (e.contracts.nested e.catalog k child) q) before = (.ok w, after) := by
  intro child listed q shown
  have still {α : Type} {step : Step Store α} (moves : Moves Store.SameRows step) {t u : Store}
      {x : α} (same : Store.SameRows s t) (ran : exec step t = (.ok x, u)) :
      Store.SameRows s u := by
    have moved := moves t
    rw [ran] at moved
    exact IsTrans.trans (r := Store.SameRows) s t u same moved
  obtain ⟨state, loaded, first, ran⟩ := exec_bind_eq_ok.mp ran
  obtain ⟨children, collected, each, -⟩ := exec_bind_eq_ok.mp ran
  obtain ⟨before, entry, after, moved, under⟩ :=
    exists_of_collectAll (shownUnder_moves moves k r) each child listed
  have here := IsTrans.trans (r := Store.SameRows) s loaded before
    (still (e.stateOf_moves r) same first) moved
  obtain ⟨records, looked, related, under⟩ := exec_bind_eq_ok.mp under
  obtain ⟨views, rest, viewed, -⟩ := exec_bind_eq_ok.mp under
  have found : records = s.children e.catalog r child.schema := by
    have yields := (Store.related_yields s e.catalog r .child child.schema before here).1
    rw [related] at yields
    exact Except.ok.inj yields
  obtain ⟨start, w, last, kept, answered⟩ :=
    exists_of_collectAll (moves _) viewed q (found ▸ shown)
  refine ⟨start, w, last, ?_, answered⟩
  exact IsTrans.trans (r := Store.SameRows) s looked start
    (still (Store.related_moves e.catalog r .child child.schema) here related) kept

theorem ends_of_viewWithin (fits : e.Fits) {levels : Nat} {t u : Store} {v : Value}
    (views : e.Views k r) (same : Store.SameRows s t)
    (ran : exec (e.viewWithin levels k r) t = (.ok v, u)) :
    e.Ends s levels k.placement r := by
  induction levels generalizing k r t u v with
  | zero => cases ran
  | succ levels ih =>
    intro q nests
    obtain ⟨child, listed, shown⟩ := views.nests_iff.mp nests
    obtain ⟨nested, placement⟩ := views.nested fits listed shown
    obtain ⟨before, w, after, same, answered⟩ :=
      exists_of_rendered (viewWithin_moves levels) same ran child listed q shown
    rw [← placement]
    exact ih nested same answered

end Engine

end RecordRules
