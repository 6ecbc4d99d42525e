import RecordRules.Action.Procedure
import RecordRules.Event.Reader
import RecordRules.Value.Sum

/-!
Scripts: custom actions given as data. A script is a list of commands that are carried out in
order; what the last one returns is what the action returns.
-/
namespace RecordRules

inductive Recipient where
  | targets
  | firstTarget
  | eventObject
  | stored (schema id : Key)
deriving Repr

/-- How the fields of an update are computed: given values, sums with the record's own values, and
copies of fields of the event's record. -/
structure Adjustment where
  set : Entries := []
  increments : Entries := []
  copies : List (String × String) := []
deriving Repr

namespace Adjustment

def addIncrements (r : Record) : Entries → Entries → Except Failure Entries
  | updates, [] => .ok updates
  | updates, (field, amount) :: rest => do
    let old := r.get field
    let sum ← (if old.isTrue then old else .int 0).plus amount
    addIncrements r (updates.put field sum) rest

def updates (adjustment : Adjustment) (object r : Record) : Except Failure Entries := do
  let summed ← addIncrements r (Keyed.merge [] adjustment.set) adjustment.increments
  return summed.merge (adjustment.copies.map fun (field, source) => (field, object.get source))

end Adjustment

inductive Command where
  | write (recipient : Recipient) (adjustment : Adjustment)
  | rawWrite (recipient : Recipient) (adjustment : Adjustment)
  /-- Update the first target once all records that refer to it have a value. -/
  | completeIfAll (schema : Key) (reference field : String) (value : Value) (updates : Entries)
  /-- Write the number of records found to the first target. -/
  | count (schema : Key) (filter : Entries) (field : String)
  | insert (schema : Key) (data : Entries) (id : Value)
  | delete (schema id : Key)
  | emit (event : Value)
  /-- Return events; other values among them do not count. Of a single return only the first
  value counts, and there must be one. -/
  | giveBack (items : List Value) (single : Bool)
  | fail (failure : Failure)
  | failIf (field : String) (value : Value) (reason : String)
deriving Repr

abbrev Script := List Command

namespace Script

def failureOf (kind reason : String) : Failure :=
  if kind = "CustomActionError" then .action (.text "inner") reason else .raised kind reason

def readRecipient : Value → Except Failure Recipient
  | .text "targets" => .ok .targets
  | .text "target" => .ok .firstTarget
  | .text "event" => .ok .eventObject
  | .list [schema, id] => do return .stored (← Key.ofValue schema) (← Key.ofValue id)
  | _ => .error (.wrongType "a recipient is named or given by its key")

def entriesAt (parts : Entries) (key : String) : Except Failure Entries :=
  match parts.find? key with
  | some .null | none => .ok []
  | some v => Definition.entries v

def readAdjustment (parts : Entries) : Except Failure Adjustment := do
  let copies ← (← entriesAt parts "copy").mapM fun (field, source) => do
    return (field, ← Definition.text source)
  return { set := ← entriesAt parts "set", increments := ← entriesAt parts "inc", copies }

def textAt (parts : Entries) (key : String) : Except Failure String := do
  Definition.text (← Definition.require parts key)

def keyAt (parts : Entries) (key : String) : Except Failure Key := do
  Key.ofValue (← Definition.require parts key)

def readCommand (given : Value) : Except Failure Command := do
  let parts ← Definition.parts given
  match ← textAt parts "c" with
  | "write" =>
    return .write (← readRecipient (← Definition.require parts "to")) (← readAdjustment parts)
  | "raw_write" =>
    return .rawWrite (← readRecipient (← Definition.require parts "to")) (← readAdjustment parts)
  | "complete_if_all" =>
    return .completeIfAll (← keyAt parts "schema") (← textAt parts "by") (← textAt parts "field")
      (← Definition.require parts "value") (← entriesAt parts "set")
  | "count" =>
    return .count (← keyAt parts "schema") (← entriesAt parts "filter") (← textAt parts "field")
  | "insert" =>
    return .insert (← keyAt parts "schema") (← entriesAt parts "data") (parts.get "id")
  | "delete" => return .delete (← keyAt parts "schema") (← keyAt parts "id")
  | "emit" => return .emit (← Definition.require parts "event")
  | "return" =>
    return .giveBack (← Definition.members ((parts.find? "events").getD (.list [])))
      (parts.get "single").isTrue
  | "fail" => return .fail (failureOf (← textAt parts "kind") (← textAt parts "message"))
  | "fail_if" =>
    return .failIf (← textAt parts "field") (← Definition.require parts "value")
      (← textAt parts "message")
  | name => throw (.wrongType ("no command is called " ++ name))

def commandOf (given : Value) : Command :=
  match readCommand given with
  | .ok command => command
  | .error failure => .fail failure

/-- A script from its definition. What is wrong with it shows when it runs. -/
def ofValue (given : Value) : Script :=
  match Definition.members given with
  | .ok commands => commands.map commandOf
  | .error failure => [.fail failure]

def writeEach (ask : Record → Entries → (Except Failure Record → Procedure) → Procedure)
    (object : Record) (adjustment : Adjustment) (next : Procedure) : List Record → Procedure
  | [] => next
  | r :: rest =>
    match adjustment.updates object r with
    | .error failure => .fail failure
    | .ok updates => ask r updates (.orFail fun _ => writeEach ask object adjustment next rest)

def writeTo (ask : Record → Entries → (Except Failure Record → Procedure) → Procedure)
    (call : ActionCall) (recipient : Recipient) (adjustment : Adjustment) (next : Procedure) :
    Procedure :=
  let each := writeEach ask call.event.object adjustment next
  match recipient with
  | .targets => each call.targets
  | .firstTarget => each call.target?.toList
  | .eventObject => each [call.event.object]
  | .stored schema id => .peek schema id fun r => each [r.getD ⟨schema, id, []⟩]

/-- The events that a single return gives: the first value counts, if it is an event. -/
def firstEvent : List Value → List Event → List Event
  | .object _ :: _, events => events.take 1
  | _, _ => []

def buildEvents (finish : List Event → Procedure) (built : List Event) : List Value → Procedure
  | [] => finish built.reverse
  | .object parts :: rest =>
    match EventSpec.ofValue (.object parts) with
    | .error failure => .fail failure
    | .ok spec => .peek spec.schema spec.id fun stored =>
      buildEvents finish (spec.toEvent stored :: built) rest
  | _ :: rest => buildEvents finish built rest

def runCommand (call : ActionCall) (next : List Event → Procedure) : Command → Procedure
  | .write recipient adjustment => writeTo .write call recipient adjustment (next [])
  | .rawWrite recipient adjustment => writeTo .rawWrite call recipient adjustment (next [])
  | .completeIfAll schema reference field value updates =>
    match call.target? with
    | none => next []
    | some target =>
      .query schema [(reference, target.id.toValue)] fun rows =>
        if !rows.isEmpty && rows.all fun r => (r.get field).equals value then
          .write target updates (.orFail fun _ => next [])
        else next []
  | .count schema filter field =>
    .query schema filter fun rows =>
      match call.target? with
      | none => next []
      | some target => .write target [(field, .int rows.length)] (.orFail fun _ => next [])
  | .insert schema data id => .insert schema data id (.orFail fun _ => next [])
  | .delete schema id => .delete ⟨schema, id, []⟩ fun _ => next []
  | .emit event =>
    match EventSpec.ofValue event with
    | .error failure => .fail failure
    | .ok spec => .peek spec.schema spec.id fun stored => .emit (spec.toEvent stored) (next [])
  | .giveBack [] true => .fail (.raised "IndexError" "list index out of range")
  | .giveBack items single =>
    buildEvents (fun events => next (if single then firstEvent items events else events)) [] items
  | .fail failure => .fail failure
  | .failIf field value reason =>
    if (call.event.object.get field).equals value then .fail (.raised "RuntimeError" reason)
    else next []

def run (call : ActionCall) : Script → List Event → Procedure
  | [], returned => .done returned
  | command :: rest, _ => runCommand call (fun events => run call rest events) command

def action (script : Script) : ActionFn := fun call => script.run call []

end Script

end RecordRules
