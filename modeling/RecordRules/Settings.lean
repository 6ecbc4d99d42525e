import RecordRules.Definition
import RecordRules.Text.Blank
import RecordRules.Text.Digit
import RecordRules.Text.Lowercase

/-!
Settings. They are given by name or in the environment; what is given by name wins. Numbers and
truth values may be written as texts.
-/
namespace RecordRules

structure Settings where
  maxCascadeDepth : Int := 16
  rejectContradictoryState : Bool := true
  enforceStateOnReactions : Bool := false
  logLevel : String := "INFO"
  logFormat : String := "json"
deriving DecidableEq, Repr

namespace Settings

def environmentStart : String := "RULEDB_"

def depthName : String := "max_cascade_depth"
def rejectName : String := "reject_contradictory_state"
def enforceName : String := "enforce_state_on_reactions"
def levelName : String := "log_level"
def formatName : String := "log_format"

def names : List String := [depthName, rejectName, enforceName, levelName, formatName]

/-- Leading zeros, and underscores behind the first of them, say nothing. They end before a sign
or another digit; of nothing but zeros the last character is left. -/
def dropZeros? : List Char → Option (List Char)
  | '0' :: rest =>
    match rest.dropWhile fun c => c = '0' || c = '_' with
    | [] => some [rest.getLastD '0']
    | c :: more => if isStart c then some (c :: more) else none
  | c :: rest => if isStart c then some (c :: rest) else none
  | [] => none
where
  isStart (c : Char) : Bool := c = '-' || c.isDigit

/-- A fraction of nothing but zeros says nothing. -/
def dropFraction (cs : List Char) : List Char :=
  match cs.dropWhile (· ≠ '.') with
  | '.' :: zero :: zeros =>
    if (zero :: zeros).all (· = '0') then cs.takeWhile (· ≠ '.') else cs
  | _ => cs

/-- A positive sign says nothing; no other sign may follow it. -/
def dropPlus? : List Char → Option (List Char)
  | '+' :: '-' :: _ => none
  | '+' :: rest => some rest
  | cs => some cs

/-- The size of a number in digits from zero to nine, grouped by single underscores. -/
def readSize? (cs : List Char) : Option Nat :=
  if cs.all fun c => c.isDigit || c = '_' then Text.readMagnitude? cs else none

def readDepth? (s : String) : Option Int := do
  match ← dropZeros? (dropFraction (← dropPlus? (Text.trim Text.isSpace s.toList))) with
  | '-' :: rest => return -Int.ofNat (← readSize? (← dropZeros? rest))
  | cs => return Int.ofNat (← readSize? cs)

/-- A floating point number that is whole and of less than sixty-four bits. -/
def wholeOf? : Binary64 → Option Int
  | .finite x =>
    let n := x.exact.mantissa * Nat.pow 2 x.exponent.toNat / Nat.pow 2 (-x.exponent).toNat
    if x.exact.same ⟨n, 0⟩ && n.natAbs < Nat.pow 2 63 then some n else none
  | .infinite _ => none

def depthOf? : Value → Option Int
  | .int n => some n
  | .bool b => some (if b then 1 else 0)
  | .float x => wholeOf? x
  | .text s => readDepth? s
  | _ => none

/-- The truth value that is given: as such, as zero or one, or as one of several words. -/
def switchOf? : Value → Option Bool
  | .bool b => some b
  | .int 0 => some false
  | .int 1 => some true
  | .float x => if x.isZero then some false
    else if x.place.same (.ofInt 1) then some true else none
  | .text s =>
    let word := Text.lowercase s
    if ["0", "off", "f", "false", "n", "no"].contains word then some false
    else if ["1", "on", "t", "true", "y", "yes"].contains word then some true
    else none
  | _ => none

def textOf? : Value → Option String
  | .text s => some s
  | _ => none

def fromEnvironment? (environment : Entries) (name : String) : Option Value :=
  let sought := Text.lowercase (environmentStart ++ name)
  (environment.reverse.find? fun entry => Text.lowercase entry.1 == sought).map Prod.snd

/-- The value that the arguments give a setting: under its very name, or else under the last one
that differs only in case. -/
def fromArguments? (arguments : Entries) (name : String) : Option Value :=
  match arguments.find? name with
  | some v => some v
  | none => (arguments.reverse.find? fun entry => Text.lowercase entry.1 == name).map Prod.snd

def given? (arguments environment : Entries) (name : String) : Option Value :=
  match fromArguments? arguments name with
  | some v => some v
  | none => fromEnvironment? environment name

/-- Names of arguments that are no settings, whatever their case. -/
def unknownNames (arguments : Entries) : List String :=
  arguments.names.filter fun name => !names.contains (Text.lowercase name)

def readOr {α : Type} (default : α) (read? : Value → Option α) : Option Value → Option α
  | none => some default
  | some v => read? v

/-- Read the settings. All settings with unusable values, and all unknown ones, are reported. -/
def ofEntries (arguments environment : Entries) : Except Failure Settings :=
  let given := given? arguments environment
  let depth := readOr 16 depthOf? (given depthName)
  let reject := readOr true switchOf? (given rejectName)
  let enforce := readOr false switchOf? (given enforceName)
  let level := readOr "INFO" textOf? (given levelName)
  let format := readOr "json" textOf? (given formatName)
  match depth, reject, enforce, level, format with
  | some depth, some reject, some enforce, some level, some format =>
    match unknownNames arguments with
    | [] => .ok ⟨depth, reject, enforce, level, format⟩
    | unknown => .error (.settings (Text.sorted unknown))
  | _, _, _, _, _ =>
    let faulty := [(depthName, depth.isNone), (rejectName, reject.isNone),
      (enforceName, enforce.isNone), (levelName, level.isNone), (formatName, format.isNone)]
    let faulty := (faulty.filter Prod.snd).map Prod.fst
    .error (.settings (Text.sorted (faulty ++ unknownNames arguments)))

def check (s : Settings) : Except Failure Unit :=
  if s.maxCascadeDepth ≤ 0 then .error (.invalid (.nonPositiveDepth s.maxCascadeDepth))
  else if ! ["json", "text"].contains s.logFormat then
    .error (.invalid (.invalidLogFormat s.logFormat))
  else .ok ()

end Settings

structure LogSetup where
  level : Int
  formatter : String
  format : Option String
deriving DecidableEq, Repr

namespace LogSetup

/-- The capitals of a letter, as far as level names have such letters. Joined letters are taken
apart. -/
def capitals (c : Char) : List Char :=
  match c.toNat with
  | 0xDF => ['S', 'S']
  | 0x131 => ['I']
  | 0x17F => ['S']
  | 0xFB00 => ['F', 'F']
  | 0xFB01 => ['F', 'I']
  | 0xFB02 => ['F', 'L']
  | 0xFB03 => ['F', 'F', 'I']
  | 0xFB04 => ['F', 'F', 'L']
  | 0xFB05 | 0xFB06 => ['S', 'T']
  | _ => [c.toUpper]

def levels : Keyed String Int :=
  [("CRITICAL", 50), ("FATAL", 50), ("ERROR", 40), ("WARNING", 30), ("WARN", 30), ("INFO", 20),
    ("DEBUG", 10), ("NOTSET", 0)]

/-- The number of a level, in any case; unknown levels count as `INFO`. A name that stands for
something else than a level cannot be used. -/
def levelOf (name : String) : Except Failure Int :=
  match String.ofList (name.toList.flatMap capitals) with
  | "BASIC_FORMAT" => .error (.invalid (.unknownLevel "%(levelname)s:%(name)s:%(message)s"))
  | "_STYLES" => .error (.wrongType "Level not an integer or a valid string")
  | name => .ok ((levels.find? name).getD 20)

def lineFormat : String := "%(asctime)s - %(name)s - %(levelname)s - %(message)s"

def ofSettings (s : Settings) : Except Failure LogSetup := do
  let level ← levelOf s.logLevel
  return if s.logFormat = "json" then ⟨level, "JSONFormatter", none⟩
    else ⟨level, "Formatter", some lineFormat⟩

end LogSetup

end RecordRules
