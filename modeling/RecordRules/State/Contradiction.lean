import RecordRules.Condition.Exclusive
import RecordRules.Rule.Book
import RecordRules.State.Flags

/-!
Contradictions between state rules. Two rules contradict each other on a field when one requires
and the other hides it, or when they leave it no common value; they are only accepted together
when their conditions exclude each other.
-/
namespace RecordRules

namespace Effect

def disjoint : Option (List Value) → Option (List Value) → Bool
  | some s, some t => !s.any fun v => v.isIn t
  | _, _ => false

def clashes (a b : Effect) : Bool :=
  (a.required && b.hidden) || (a.hidden && b.required) || disjoint a.subset b.subset

def conflict? (a b : Effect) (fields : List String) : Option String :=
  fields.find? fun name => a.covers name && b.covers name && a.clashes b

end Effect

namespace StateRule

/-- A restriction is on enumerations and names only declared values; among all fields, those that
are no enumerations are left alone. -/
def checkSubset (s : Schema) (r : StateRule) : Except Failure Unit :=
  match r.effect.subset with
  | none => .ok ()
  | some subset =>
    (r.effect.fieldsIn s).forM fun name =>
      match s.field? name with
      | none => .ok ()
      | some f =>
        if !f.isOf .enum then
          if r.effect.isOnAll then .ok () else .error (.rule (.subsetOfPlainField name))
        else
          match f.enumValues.find? fun v => !v.isKey with
          | some v => .error (.notAKey v)
          | none =>
            match subset.filter fun v => !v.isIn f.enumValues with
            | [] => .ok ()
            | extra => do
              throw (.rule (.undeclaredSubset (← Value.sorted? extra) name))

/-- A rule does not contradict itself, nor one that can hold at the same time. -/
def checkContradictions (s : Schema) (others : List StateRule) (r : StateRule) :
    Except Failure Unit :=
  if r.effect.required && r.effect.hidden then .error (.rule (.requiredAndHidden r.label))
  else others.forM fun other =>
    match r.effect.conflict? other.effect s.fieldNames with
    | none => .ok ()
    | some field =>
      if Condition.exclusive r.conditions other.conditions then .ok ()
      else .error (.rule (.contradiction r.label other.label field))

def check (s : Schema) (others : List StateRule) (rejectContradictions : Bool) (r : StateRule) :
    Except Failure Unit := do
  checkSubset s r
  if rejectContradictions then checkContradictions s others r

end StateRule

end RecordRules
