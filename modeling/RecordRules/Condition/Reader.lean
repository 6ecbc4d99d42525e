import RecordRules.Condition.Basic
import RecordRules.Path.Reader
import RecordRules.Definition

/-!
Reading conditions. A condition is given as a list of three, or as an object with named parts.
Lists of conditions may be nested; they are read as one conjunction.
-/
namespace RecordRules.Condition

def parts? : Value → Option (Value × Value × Value)
  | .object entries =>
    some (Definition.either entries "path" "field" .null,
      Definition.either entries "op" "operator" (.text "eq"),
      Entries.get entries "value")
  | .list [path, operator, operand] => some (path, operator, operand)
  | _ => none

def readOperator (given : Value) : Except Failure Operator :=
  match Definition.named? Operator.all Operator.name given with
  | some operator => .ok operator
  | none => .error (.rule (.invalidOperator given (Operator.all.map Operator.name)))

def readPath (source : String) : Except Failure Path := (Path.read source).mapError .rule

def isCollection : Value → Bool
  | .list _ | .set _ | .text _ => true
  | _ => false

/-- The operand: a path when it is written as one, the set of its members when membership is
asked for, or else the value itself. -/
def readOperand (operator : Operator) (given : Value) : Except Failure Operand :=
  match given with
  | .text s => if Path.isPathText s then (readPath s).map .path else .ok (.value given)
  | .list _ =>
    if operator.isMembership then (Definition.setMembers given).map fun ms => .value (.set ms)
    else .ok (.value given)
  | v => .ok (.value v)

def ofValue (spec : Value) : Except Failure Condition := do
  let some (path, operator, operand) := parts? spec | throw (.rule (.invalidCondition spec))
  let .text source := path | throw (.rule (.conditionPathNotText spec))
  let operator ← readOperator operator
  if operator.isMembership && !isCollection operand then
    throw (.rule (.needsCollection operator.name spec))
  let operand ← readOperand operator operand
  return { path := ← readPath source, operator, operand }

/-- Whether a list is one condition and not a list of conditions. -/
def isTriple : List Value → Bool
  | [.text _, .text _, _] => true
  | _ => false

mutual

def readNested : Value → Except Failure (List Condition)
  | .list items =>
    if items.isEmpty || isTriple items then (ofValue (.list items)).map ([·])
    else readEach items
  | spec => (ofValue spec).map ([·])

def readEach : List Value → Except Failure (List Condition)
  | [] => .ok []
  | spec :: rest => do return (← readNested spec) ++ (← readEach rest)

end

def readAll (specs : Value) : Except Failure (List Condition) := do
  if specs.isTrue then readEach (← Definition.members specs) else return []

def text? (c : Condition) : Option String :=
  match c.operand with
  | .path _ => none
  | .value (.set _) => none
  | .value v => some (c.path.text ++ " " ++ c.operator.name ++ " " ++ v.display)

end RecordRules.Condition
