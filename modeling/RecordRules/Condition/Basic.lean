import RecordRules.Path.Basic

/-!
Conditions: a path, an operator and an operand. A condition is true or false in every scene; it
is false whenever a path in it leads nowhere. A list of conditions holds when all of them do.
-/
namespace RecordRules

inductive Operator where
  | eq
  | neq
  | isIn
  | notIn
  | lt
  | lte
  | gt
  | gte
deriving DecidableEq, Repr

namespace Operator

def name : Operator → String
  | eq => "eq"
  | neq => "neq"
  | isIn => "in"
  | notIn => "notIn"
  | lt => "lt"
  | lte => "lte"
  | gt => "gt"
  | gte => "gte"

def all : List Operator := [eq, neq, isIn, notIn, lt, lte, gt, gte]

def isMembership : Operator → Bool
  | isIn | notIn => true
  | _ => false

/-- The members that a value offers: those of a collection, or the value alone. There are none
to look among if one of them cannot be a member of a set. -/
def pool? (expected : Value) : Option (List Value) :=
  let members := match expected with
    | .list items => items
    | .set items => items
    | v => [v]
  if members.all Value.isKey then some members else none

/-- Membership of a value, or, for a set, of at least one of its members. -/
def contains (expected actual : Value) : Bool :=
  match pool? expected with
  | none => false
  | some pool =>
    match actual with
    | .set members => members.any fun v => v.isIn pool
    | v => v.isKey && v.isIn pool

def compare (operator : Operator) (actual expected : Value) : Bool :=
  match operator with
  | eq => actual.equals expected
  | neq => !actual.equals expected
  | isIn => contains expected actual
  | notIn => !contains expected actual
  | lt => actual.isLess expected
  | lte => actual.isAtMost expected
  | gt => actual.isGreater expected
  | gte => actual.isAtLeast expected

end Operator

inductive Operand where
  | value (v : Value)
  | path (p : Path)
deriving Repr

structure Condition where
  path : Path
  operator : Operator
  operand : Operand
deriving Repr

namespace Condition

def paths (c : Condition) : List Path :=
  match c.operand with
  | .path p => [c.path, p]
  | .value _ => [c.path]

def isRelational (c : Condition) : Bool := c.paths.any Path.isRelational

/-- What the condition compares with, if its path leads anywhere. -/
def expected? (c : Condition) (scene : Scene) : Option Value :=
  match c.operand with
  | .value v => some v
  | .path p => p.resolve scene

def holds (c : Condition) (scene : Scene) : Bool :=
  match c.path.resolve scene, c.expected? scene with
  | some actual, some expected => c.operator.compare actual expected
  | _, _ => false

def allHold (cs : List Condition) (scene : Scene) : Bool := cs.all fun c => c.holds scene

end Condition

end RecordRules
