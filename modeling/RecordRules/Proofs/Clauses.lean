import RecordRules.Proofs.CanonicalText
import RecordRules.Proofs.TypedSchemas

/-!
Definitions as they are written down. A definition has named clauses, and a clause that says
nothing is left out. Main statements: what is found under the name of each clause; and definitions
with clauses of the same names are equivalent if and only if each clause says the same in both.
-/
namespace RecordRules

/-- A text that says something, or else what stands for saying nothing. -/
def Value.IsTextOr (v assumed : Value) : Prop := v = assumed ∨ ∃ t, t ≠ "" ∧ v = .text t

theorem Value.IsText.isTextOr {v : Value} (isText : v.IsText) : v.IsTextOr (.text "") := by
  obtain ⟨t, rfl⟩ := isText
  by_cases empty : t = ""
  · exact .inl (congrArg _ empty)
  · exact .inr ⟨t, empty, rfl⟩

theorem Value.IsTextOr.eq_of_not_isTrue {v assumed : Value} (typed : v.IsTextOr assumed)
    (silent : v.isTrue = false) : v = assumed := by
  rcases typed with same | ⟨t, given, rfl⟩
  · exact same
  · exact absurd (by simpa [isTrue] using silent) given

/-- What a definition says under one name. It is written down if it says anything. -/
structure Clause where
  key : String
  stated : Bool
  value : Value

namespace Clause

def always (key : String) (v : Value) : Clause := ⟨key, true, v⟩

def flag (key : String) (b : Bool) : Clause := ⟨key, b, .bool true⟩

def unlessNull (key : String) (v : Value) : Clause := ⟨key, !v.isNull, v⟩

def unlessEmpty (key : String) (items : List Value) : Clause := ⟨key, !items.isEmpty, .list items⟩

def ifTrue (key : String) (v : Value) : Clause := ⟨key, v.isTrue, v⟩

def written (clauses : List Clause) : Entries :=
  clauses.flatMap fun p => if p.stated then [(p.key, p.value)] else []

variable {clauses others : List Clause} {p q : Clause} {key : String} {v w : Value}

theorem mem_written {entry : String × Value} :
    entry ∈ written clauses ↔ ∃ p ∈ clauses, p.stated = true ∧ (p.key, p.value) = entry := by
  rw [written, List.mem_flatMap]
  refine exists_congr fun p => and_congr_right fun _ => ?_
  cases p.stated <;> simp [eq_comm]

theorem names_written :
    (written clauses).names = (clauses.filter Clause.stated).map Clause.key := by
  induction clauses with
  | nil => rfl
  | cons p rest ih =>
    rw [written, List.flatMap_cons, Keyed.names, List.map_append, List.filter_cons]
    change _ ++ (written rest).names = _
    rw [ih]
    cases p.stated <;> rfl

theorem nodup_written (distinct : (clauses.map Clause.key).Nodup) :
    (written clauses).names.Nodup := by
  rw [names_written]
  exact distinct.sublist (List.filter_sublist.map Clause.key)

section

variable (distinct : (clauses.map Clause.key).Nodup)

include distinct

theorem find?_written (member : p ∈ clauses) :
    (written clauses).find? p.key = if p.stated then some p.value else none := by
  have only {v : Value} : (p.key, v) ∈ written clauses ↔ p.stated = true ∧ p.value = v := by
    rw [mem_written]
    constructor
    · rintro ⟨q, listed, stated, same⟩
      obtain ⟨names, rfl⟩ := Prod.mk.inj same
      obtain rfl := List.inj_on_of_nodup_map distinct listed member names
      exact ⟨stated, rfl⟩
    · rintro ⟨stated, rfl⟩
      exact ⟨p, member, stated, rfl⟩
  apply Option.ext
  intro v
  rw [Keyed.find?_eq_some_iff (nodup_written distinct), only]
  cases p.stated <;> simp

theorem find?_always (member : always key v ∈ clauses) : (written clauses).find? key = some v :=
  find?_written distinct member

theorem get_always (member : always key v ∈ clauses) : (written clauses).get key = v := by
  rw [Entries.get, find?_always distinct member, Option.getD_some]

theorem get_flag {b : Bool} (member : flag key b ∈ clauses) :
    ((written clauses).get key).isTrue = b := by
  rw [Entries.get, show (written clauses).find? key = if b then some (.bool true) else none from
    find?_written distinct member]
  cases b <;> rfl

theorem get_unlessNull (member : unlessNull key v ∈ clauses) : (written clauses).get key = v := by
  rw [Entries.get, show (written clauses).find? key = if !v.isNull then some v else none from
    find?_written distinct member]
  cases v <;> rfl

theorem get_unlessEmpty {items : List Value} (member : unlessEmpty key items ∈ clauses) :
    (written clauses).get key = if items.isEmpty then .null else .list items := by
  rw [Entries.get, show (written clauses).find? key =
    if !items.isEmpty then some (.list items) else none from find?_written distinct member]
  cases items <;> rfl

/-- What is not written stands for the value that is assumed in its place. -/
theorem getD_ifTrue (member : ifTrue key v ∈ clauses) {assumed : Value}
    (restored : v.isTrue = false → v = assumed) :
    ((written clauses).find? key).getD assumed = v := by
  rw [show (written clauses).find? key = if v.isTrue then some v else none from
    find?_written distinct member]
  cases stated : v.isTrue with
  | true => rfl
  | false => exact (restored stated).symm

end

structure Agrees (p q : Clause) : Prop where
  key : p.key = q.key
  stated : p.stated = q.stated
  value : p.stated = true → p.value.Equivalent q.value

theorem rel_of_agrees (agree : List.Forall₂ Agrees clauses others) (name : String) :
    Option.Rel Value.Equivalent ((written clauses).find? name) ((written others).find? name) := by
  induction agree with
  | nil => exact .none
  | @cons p q ps qs agrees _ ih =>
    obtain ⟨⟨key, stated, first⟩, ⟨_, _, second⟩⟩ := p, q
    obtain ⟨rfl, rfl, equivalent⟩ := agrees
    cases stated with
    | false => exact ih
    | true =>
      change Option.Rel _ (Keyed.find? ((key, first) :: written ps) name)
        (Keyed.find? ((key, second) :: written qs) name)
      rw [Keyed.find?_cons, Keyed.find?_cons]
      split
      · exact .some (equivalent rfl)
      · exact ih

theorem agrees_of_rel (distinct : (clauses.map Clause.key).Nodup)
    (distinct' : (others.map Clause.key).Nodup) (here : p ∈ clauses) (there : q ∈ others)
    (key : p.key = q.key) (equivalent : Option.Rel Value.Equivalent
      ((written clauses).find? p.key) ((written others).find? p.key)) : Agrees p q := by
  rw [find?_written distinct here, key, find?_written distinct' there] at equivalent
  refine ⟨key, ?_, fun stated => ?_⟩
  · have both := isSome_eq_of_rel equivalent
    cases hp : p.stated <;> cases hq : q.stated <;> simp [hp, hq] at both ⊢
  · rw [if_pos stated] at equivalent
    split at equivalent
    · cases equivalent with
      | some same => exact same
    · cases equivalent

theorem written_equivalent_iff (same : clauses.map Clause.key = others.map Clause.key)
    (distinct : (clauses.map Clause.key).Nodup) :
    Value.Equivalent (.object (written clauses)) (.object (written others)) ↔
      List.Forall₂ Agrees clauses others := by
  constructor
  · intro equivalent
    cases equivalent with
    | object each =>
      refine forall₂_imp_of_mem (forall₂_eq_iff.mpr same) fun p here q there key => ?_
      exact agrees_of_rel distinct (same ▸ distinct) here there key (each p.key)
  · exact fun agree => .object (rel_of_agrees agree)

theorem agrees_always : Agrees (always key v) (always key w) ↔ v.Equivalent w :=
  ⟨fun agrees => agrees.value rfl, fun equivalent => ⟨rfl, rfl, fun _ => equivalent⟩⟩

theorem agrees_flag {b c : Bool} : Agrees (flag key b) (flag key c) ↔ b = c :=
  ⟨Agrees.stated, fun same => ⟨rfl, same, fun _ => .bool true⟩⟩

theorem agrees_unlessNull : Agrees (unlessNull key v) (unlessNull key w) ↔ v.Equivalent w := by
  constructor
  · rintro ⟨-, stated, value⟩
    cases hv : v.isNull with
    | false => exact value (congrArg not hv)
    | true =>
      have hw : w.isNull = true := by
        simpa [unlessNull, hv] using stated
      cases v <;> cases hv
      cases w <;> cases hw
      exact .null
  · intro equivalent
    refine ⟨rfl, ?_, fun _ => equivalent⟩
    cases equivalent <;> rfl

theorem agrees_unlessEmpty {items members : List Value} :
    Agrees (unlessEmpty key items) (unlessEmpty key members) ↔
      List.Forall₂ Value.Equivalent items members := by
  constructor
  · rintro ⟨-, stated, value⟩
    cases items with
    | nil =>
      cases members with
      | nil => exact .nil
      | cons w rest => cases stated
    | cons v rest =>
      cases value rfl with
      | list each => exact each
  · intro each
    refine ⟨rfl, ?_, fun _ => .list each⟩
    cases each <;> rfl

theorem agrees_ifTrue {assumed : Value} (empty : assumed.isTrue = false)
    (hv : v.IsTextOr assumed) (hw : w.IsTextOr assumed) :
    Agrees (ifTrue key v) (ifTrue key w) ↔ v = w := by
  have full {t : String} (given : t ≠ "") : (Value.text t).isTrue = true := by
    simpa [Value.isTrue] using given
  constructor
  · rintro ⟨-, stated, value⟩
    dsimp only [ifTrue] at stated value
    rcases hv with rfl | ⟨s, hs, rfl⟩
    · rcases hw with rfl | ⟨t, ht, rfl⟩
      · rfl
      · rw [empty, full ht] at stated
        cases stated
    · have equivalent := value (full hs)
      rcases hw with rfl | ⟨t, ht, rfl⟩
      · rw [empty, full hs] at stated
        cases stated
      · cases equivalent
        rfl
  · rintro rfl
    refine ⟨rfl, rfl, fun stated => ?_⟩
    rcases hv with rfl | ⟨s, hs, rfl⟩
    · cases empty.symm.trans stated
    · exact .text s

theorem exact_written (distinct : (clauses.map Clause.key).Nodup)
    (each : ∀ p ∈ clauses, p.stated = true → p.value.Exact) :
    Value.Exact (.object (written clauses)) := by
  refine .object (nodup_written distinct) fun entry member => ?_
  obtain ⟨p, listed, stated, rfl⟩ := mem_written.mp member
  exact each p listed stated

end Clause

end RecordRules
