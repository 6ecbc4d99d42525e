import RecordRules.Failure
import RecordRules.Text.Sorted
import RecordRules.Value.Compare

/-!
Putting values in order. Values of different kinds cannot be put in order; it is a failure to ask
for it.
-/
namespace RecordRules.Value

def noOrder : Failure := .wrongType "values of different kinds have no order"

def compare (a b : Value) : Except Failure (Option Ordering) :=
  if a.areComparable b then .ok (a.order? b) else .error noOrder

/-- Whether values can be put in order: at most one, texts among themselves, or numbers. -/
def areSortable (members : List Value) : Bool :=
  members.length ≤ 1
    || members.all (fun v => match v with
      | .text _ => true
      | _ => false)
    || members.all isNumeric

def sorted (members : List Value) : List Value :=
  Text.sortBy (fun a b => !b.isLess a) members

def sorted? (members : List Value) : Except Failure (List Value) :=
  if areSortable members then .ok (sorted members) else .error noOrder

end RecordRules.Value
