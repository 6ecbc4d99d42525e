import RecordRules.Condition.Basic

/-!
Conjunctions that exclude each other. Two conditions on the same path exclude each other when the
values that they admit do not meet.
-/
namespace RecordRules.Condition

/-- The values that a condition is about: it admits only them, or it rejects just them. -/
structure Admission where
  only : Bool
  values : List Value
deriving Repr

/-- What a condition with a fixed operand admits, if that can be listed. -/
def admission? (c : Condition) : Option Admission :=
  match c.operand with
  | .path _ => none
  | .value v =>
    let single := if v.isKey then some [v] else none
    let members := match v with
      | .set items => some items
      | .text s => some [.text s]
      | _ => none
    match c.operator with
    | .eq => single.map (Admission.mk true)
    | .neq => single.map (Admission.mk false)
    | .isIn => members.map (Admission.mk true)
    | .notIn => members.map (Admission.mk false)
    | _ => none

def Admission.excludes (a b : Admission) : Bool :=
  match a.only, b.only with
  | true, true => !a.values.any fun v => v.isIn b.values
  | true, false => Value.subset a.values b.values
  | false, true => Value.subset b.values a.values
  | false, false => false

/-- Whether two conditions exclude each other. Conditions on the set of modified fields never
do, since a set meets many values. -/
def excludes (a b : Condition) : Bool :=
  a.path.sameAs b.path && a.path.origin != .modified
    && match a.admission?, b.admission? with
      | some x, some y => x.excludes y
      | _, _ => false

def exclusive (as bs : List Condition) : Bool := as.any fun a => bs.any fun b => excludes a b

end RecordRules.Condition
