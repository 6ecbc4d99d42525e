import Mathlib.Data.List.Forall2
import Mathlib.Data.List.Sort
import Mathlib.Data.String.Basic
import RecordRules.Keyed
import RecordRules.Text.Sorted

/-!
Members in the order of their names. Sorting by insertion is the sorting of the library; for texts,
the order in which they are given does not matter. Main statement: lists of named members agree one
by one in the order of their names if and only if they have the same names and agree under each.
-/
namespace RecordRules

section

variable {α β : Type} {related similar : α → β → Prop} {xs : List α} {ys : List β}

theorem exists_of_forall₂ (each : List.Forall₂ related xs ys) {x : α} (member : x ∈ xs) :
    ∃ y ∈ ys, related x y := by
  induction each with
  | nil => cases member
  | cons first _ ih =>
    rcases List.mem_cons.mp member with rfl | later
    · exact ⟨_, List.mem_cons_self, first⟩
    · obtain ⟨y, among, relates⟩ := ih later
      exact ⟨y, List.mem_cons_of_mem _ among, relates⟩

theorem forall₂_imp_of_mem (each : List.Forall₂ related xs ys)
    (implies : ∀ x ∈ xs, ∀ y ∈ ys, related x y → similar x y) : List.Forall₂ similar xs ys := by
  induction each with
  | nil => exact .nil
  | cons first _ ih =>
    refine .cons (implies _ List.mem_cons_self _ List.mem_cons_self first) (ih fun x hx y hy => ?_)
    exact implies x (List.mem_cons_of_mem _ hx) y (List.mem_cons_of_mem _ hy)

theorem forall₂_congr_of_mem (each : ∀ x ∈ xs, ∀ y ∈ ys, (related x y ↔ similar x y)) :
    List.Forall₂ related xs ys ↔ List.Forall₂ similar xs ys :=
  ⟨fun all => forall₂_imp_of_mem all fun x hx y hy => (each x hx y hy).mp,
    fun all => forall₂_imp_of_mem all fun x hx y hy => (each x hx y hy).mpr⟩

theorem forall₂_eq_iff {γ : Type} {f : α → γ} {g : β → γ} :
    List.Forall₂ (fun x y => f x = g y) xs ys ↔ xs.map f = ys.map g := by
  rw [← List.forall₂_eq_eq_eq, List.forall₂_map_left_iff, List.forall₂_map_right_iff]

end

theorem isSome_eq_of_rel {α β : Type} {related : α → β → Prop} {x : Option α} {y : Option β}
    (agree : Option.Rel related x y) : x.isSome = y.isSome := by
  cases agree <;> rfl

namespace Text

section

variable {α : Type} {r : α → α → Prop} [DecidableRel r]

theorem insertBy_eq_orderedInsert (x : α) (xs : List α) :
    insertBy (fun a b => decide (r a b)) x xs = xs.orderedInsert r x := by
  induction xs with
  | nil => rfl
  | cons y rest ih =>
    rw [insertBy, List.orderedInsert_cons, ih]
    simp only [decide_eq_true_eq]

theorem sortBy_eq_insertionSort (xs : List α) :
    sortBy (fun a b => decide (r a b)) xs = xs.insertionSort r := by
  induction xs with
  | nil => rfl
  | cons x rest ih =>
    rw [List.insertionSort_cons, ← ih, ← insertBy_eq_orderedInsert]
    rfl

end

theorem sorted_eq_of_perm {names others : List String} (perm : names.Perm others) :
    names.insertionSort (· ≤ ·) = others.insertionSort (· ≤ ·) := by
  have both := (List.perm_insertionSort (· ≤ ·) names).trans
    (perm.trans (List.perm_insertionSort (· ≤ ·) others).symm)
  exact both.eq_of_pairwise' (List.pairwise_insertionSort (· ≤ ·) names)
    (List.pairwise_insertionSort (· ≤ ·) others)

end Text

namespace Keyed

variable {α : Type} {members others : Keyed String α}

def inOrder (members : Keyed String α) : Keyed String α :=
  members.insertionSort fun a b => a.1 ≤ b.1

theorem perm_inOrder (members : Keyed String α) : members.inOrder.Perm members :=
  List.perm_insertionSort _ members

theorem perm_names_inOrder (members : Keyed String α) : members.inOrder.names.Perm members.names :=
  members.perm_inOrder.map Prod.fst

theorem names_inOrder (members : Keyed String α) :
    members.inOrder.names = members.names.insertionSort (· ≤ ·) :=
  List.map_insertionSort _ _ _ _ fun _ _ _ _ => Iff.rfl

/-- Two members have the same name, and they are related. -/
def Matches (related : α → α → Prop) (a b : String × α) : Prop := a.1 = b.1 ∧ related a.2 b.2

theorem mem_inOrder {member : String × α} : member ∈ members.inOrder ↔ member ∈ members :=
  members.perm_inOrder.mem_iff

/-- Members are related one by one in the order of names if they are so under each name. -/
theorem forall₂_inOrder_iff {related : α → α → Prop} (distinct : members.names.Nodup)
    (distinct' : others.names.Nodup) :
    List.Forall₂ (Matches related) members.inOrder others.inOrder ↔
      ∀ name, Option.Rel related (members.find? name) (others.find? name) := by
  constructor
  · intro each name
    have named : name ∈ members.names ↔ name ∈ others.names := by
      have names : members.inOrder.names = others.inOrder.names :=
        forall₂_eq_iff.mp (each.imp fun _ _ agree => agree.1)
      rw [← members.perm_names_inOrder.mem_iff, names, others.perm_names_inOrder.mem_iff]
    rw [← find?_isSome_iff, ← find?_isSome_iff] at named
    cases here : members.find? name with
    | none =>
      rw [here] at named
      have absent : others.find? name = none := by simpa using named
      rw [absent]
      exact .none
    | some a =>
      have listed := mem_inOrder.mpr ((find?_eq_some_iff distinct name a).mp here)
      obtain ⟨⟨_, b⟩, among, rfl, agree⟩ := exists_of_forall₂ each listed
      rw [(find?_eq_some_iff distinct' _ b).mpr (mem_inOrder.mp among)]
      exact .some agree
  · intro each
    have perm : members.names.Perm others.names := by
      refine (List.perm_ext_iff_of_nodup distinct distinct').mpr fun name => ?_
      rw [← find?_isSome_iff, ← find?_isSome_iff]
      rw [isSome_eq_of_rel (each name)]
    have names : members.inOrder.names = others.inOrder.names := by
      rw [names_inOrder, names_inOrder, Text.sorted_eq_of_perm perm]
    refine forall₂_imp_of_mem (forall₂_eq_iff.mpr names) fun a here b there same => ⟨same, ?_⟩
    have agree := each a.1
    rw [(find?_eq_some_iff distinct _ _).mpr (mem_inOrder.mp here), same,
      (find?_eq_some_iff distinct' _ _).mpr (mem_inOrder.mp there)] at agree
    cases agree with
    | some values => exact values

theorem inOrder_eq_of_perm (distinct : members.names.Nodup) (perm : members.Perm others) :
    members.inOrder = others.inOrder := by
  have distinct' : others.names.Nodup := (perm.map Prod.fst).nodup_iff.mp distinct
  have same : List.Forall₂ (Matches (· = ·)) members.inOrder others.inOrder := by
    refine (forall₂_inOrder_iff distinct distinct').mpr fun name => ?_
    have found : members.find? name = others.find? name := by
      apply Option.ext
      intro a
      rw [find?_eq_some_iff distinct, find?_eq_some_iff distinct', perm.mem_iff]
    rw [found]
    cases others.find? name with
    | none => exact .none
    | some a => exact .some rfl
  rw [← List.forall₂_eq_eq_eq]
  exact same.imp fun _ _ agree => Prod.ext agree.1 agree.2

end Keyed

end RecordRules
