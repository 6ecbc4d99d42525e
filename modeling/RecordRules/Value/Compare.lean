import RecordRules.Value.Basic

/-!
Sameness, equality and order of values. Truth values and numbers are compared by the exact numbers
they stand for, lists member by member, objects by name, sets by inclusion. What is no number is
the same as itself, which counts within collections, but it is not equal to itself and has no
order. Most pairs of values of different kinds have no order either, and it is a fault to ask for
one.
-/
namespace RecordRules

namespace Value

mutual

def same : Value → Value → Bool
  | null, null => true
  | text s, text t => s == t
  | nan i, nan j => i == j
  | list as, list bs => sameItems as bs
  | object as, object bs => as.length == bs.length && within as bs
  | set as, set bs => subset as bs && as.length == bs.length
  | record s i as, record t j bs => s == t && i == j && as.length == bs.length && within as bs
  | a, b => match a.number?, b.number? with
    | some x, some y => x.same y
    | _, _ => false
termination_by structural given => given

def sameItems : List Value → List Value → Bool
  | [], [] => true
  | a :: as, b :: bs => same a b && sameItems as bs
  | _, _ => false
termination_by structural given => given

def within : List (String × Value) → List (String × Value) → Bool
  | [], _ => true
  | entry :: rest, others => hasEqual entry others && within rest others
termination_by structural given => given

def hasEqual : String × Value → List (String × Value) → Bool
  | (name, a), others => match Keyed.find? others name with
    | some b => same a b
    | none => false
termination_by structural given => given

def subset : List Value → List Value → Bool
  | [], _ => true
  | a :: rest, others => others.any (same a) && subset rest others
termination_by structural given => given

end

def equals (a b : Value) : Bool := a.same b && !a.isNaN

def names (v : Value) (key : Key) : Bool := v.same key.toValue

def isIn (v : Value) (members : List Value) : Bool := members.any v.same

def distinct (members : List Value) : List Value :=
  members.foldl (fun seen v => if v.isIn seen then seen else seen ++ [v]) []

/-- The members that two sets have in common, as the smaller one gives them; of two that are
equally large, the second one. -/
def meet (s t : List Value) : List Value :=
  if s.length < t.length then s.filter fun v => v.isIn t else t.filter fun v => v.isIn s

def textOrder (s t : String) : Ordering :=
  if s = t then .eq else if s < t then .lt else .gt

mutual

def order? : Value → Value → Option Ordering
  | text s, text t => some (textOrder s t)
  | list as, list bs => orderItems? as bs
  | set as, set bs =>
    match subset as bs, subset bs as with
    | true, true => some .eq
    | true, false => some .lt
    | false, true => some .gt
    | false, false => none
  | a, b => match a.number?, b.number? with
    | some x, some y => some (x.order y)
    | _, _ => none

/-- The first members that differ decide; if none do, the shorter list comes first. -/
def orderItems? : List Value → List Value → Option Ordering
  | [], [] => some .eq
  | [], _ :: _ => some .lt
  | _ :: _, [] => some .gt
  | a :: as, b :: bs => if same a b then orderItems? as bs else order? a b

end

mutual

/-- Whether the order of two values can be asked for, even if there is none. -/
def areComparable : Value → Value → Bool
  | text _, text _ => true
  | list as, list bs => areComparableItems as bs
  | set _, set _ => true
  | a, b => a.isNumeric && b.isNumeric

def areComparableItems : List Value → List Value → Bool
  | a :: as, b :: bs => if same a b then areComparableItems as bs else areComparable a b
  | _, _ => true

end

def isLess (a b : Value) : Bool := order? a b == some .lt

def isAtMost (a b : Value) : Bool := order? a b == some .lt || order? a b == some .eq

def isGreater (a b : Value) : Bool := order? a b == some .gt

def isAtLeast (a b : Value) : Bool := order? a b == some .gt || order? a b == some .eq

end Value

end RecordRules
