import RecordRules.Path.Basic
import RecordRules.Failure
import RecordRules.Text.Blank
import RecordRules.Text.Digit

/-!
Reading paths. A path is a tail of names, or `$` and an origin, for related records with a place
among them in parentheses, and a tail behind a point:

    status    $eventObject.status    $modifiedFields    $parent('Order', 2).status
-/
namespace RecordRules.Path

def isPathText (s : String) : Bool :=
  match s.toList with
  | '$' :: _ => true
  | _ => false

def pieces (separator : Char) : List Char → List (List Char)
  | [] => [[]]
  | c :: rest =>
    if c = separator then [] :: pieces separator rest
    else match pieces separator rest with
      | [] => [[c]]
      | piece :: more => (c :: piece) :: more

def isNameStart (c : Char) : Bool := c.isAlpha || c = '_'

def isNameChar (c : Char) : Bool := c.isAlphanum || c = '_'

/-- A field name: an ASCII letter or underscore, then letters, digits and underscores. One line
end may follow it. -/
def isFieldName : List Char → Bool
  | [] => false
  | c :: rest =>
    let body := if rest.getLast? = some '\n' then rest.dropLast else rest
    isNameStart c && body.all isNameChar

def readTail (source : String) (tail : List Char) : Except RuleProblem (List String) :=
  (pieces '.' tail).mapM fun part =>
    if isFieldName part then .ok (String.ofList part)
    else .error (.invalidFieldName (String.ofList part) source)

/-- The text between two equal quotes; it is not empty and holds no quotes. -/
def quoted? : List Char → Option (List Char)
  | [] => none
  | mark :: rest =>
    if mark = '"' || mark = '\x27' then
      let inner := rest.dropLast
      if rest.getLast? = some mark && !inner.isEmpty && inner.all fun c => c ≠ '"' && c ≠ '\x27'
      then some inner else none
    else none

def readArguments (source : String) (arguments : List Char) :
    Except RuleProblem (Nat × Option String) := do
  let tokens := (pieces ',' arguments).map Text.stripChars
  let (schema, tokens) := match tokens with
    | [] => (none, [])
    | token :: rest => match quoted? token with
      | some name => (some (String.ofList name), rest)
      | none => (none, token :: rest)
  match tokens with
  | [] => return (1, schema)
  | [token] =>
    match Text.readInteger? token with
    | none => throw (.invalidIndex (String.ofList token) source)
    | some n => if n < 1 then throw (.indexBelowOne source) else return (n.toNat, schema)
  | _ => throw (.tooManyArguments source)

structure Parts where
  origin : Origin
  arguments : Option (List Char)
  tail : Option (List Char)
deriving Repr

/-- What stands behind the origin and the arguments: nothing, or a point and a tail that is not
empty and stays on one line. -/
def splitTail? : List Char → Option (Option (List Char))
  | [] => some none
  | '.' :: tail => if tail.isEmpty || tail.contains '\n' then none else some (some tail)
  | _ => none

def splitArguments? (origin : Origin) : List Char → Option Parts
  | '(' :: rest =>
    match rest.dropWhile (· ≠ ')') with
    | [] => none
    | _ :: behind => (splitTail? behind).map fun tail =>
      ⟨origin, some (rest.takeWhile (· ≠ ')')), tail⟩
  | rest => (splitTail? rest).map fun tail => ⟨origin, none, tail⟩

def behind? : List Char → List Char → Option (List Char)
  | [], cs => some cs
  | a :: as, c :: cs => if a = c then behind? as cs else none
  | _ :: _, [] => none

/-- Split an expression behind its `$`. No origin begins another one. -/
def split? (cs : List Char) : Option Parts :=
  Origin.all.findSome? fun origin =>
    (behind? origin.name.toList cs).bind (splitArguments? origin)

def readFromOrigin (source : String) (cs : List Char) : Except RuleProblem Path := do
  let some parts := split? cs | throw (.invalidPath source)
  let tail ← match parts.tail with
    | some tail => readTail source tail
    | none => pure []
  match parts.origin, parts.arguments with
  | .object, some _ => throw (.takesNoArguments parts.origin.name source)
  | .modified, some _ => throw (.takesNoArguments parts.origin.name source)
  | _, _ => pure ()
  if parts.origin = .modified && !tail.isEmpty then throw (.fieldOfModifiedFields source)
  let (index, schema) ← match parts.arguments with
    | some arguments =>
      if (Text.stripChars arguments).isEmpty then pure (1, none) else readArguments source arguments
    | none => pure (1, none)
  return { origin := parts.origin, index, schema, tail, source }

def read (source : String) : Except RuleProblem Path :=
  match Text.stripChars source.toList with
  | [] => .error .emptyPath
  | '$' :: rest => readFromOrigin source rest
  | tail => do return { origin := .object, tail := ← readTail source tail, source }

end RecordRules.Path
