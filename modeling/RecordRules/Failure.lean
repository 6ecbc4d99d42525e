import RecordRules.Value.Display
import RecordRules.Text.Sorted

/-!
Everything that can go wrong, as causes, each with its message.
-/
namespace RecordRules

open Text (quoteAll)

inductive RuleProblem where
  | emptyPath
  | invalidPath (source : String)
  | invalidFieldName (part source : String)
  | takesNoArguments (origin source : String)
  | fieldOfModifiedFields (source : String)
  | tooManyArguments (source : String)
  | invalidIndex (given source : String)
  | indexBelowOne (source : String)
  | invalidOperator (given : Value) (valid : List String)
  | invalidCondition (given : Value)
  | conditionPathNotText (given : Value)
  | needsCollection (operator : String) (given : Value)
  | notAmong (kind : String) (given : Value) (valid : List String)
  | emptySetAction
  | invalidAction (given : Value)
  | mixedSelection (given : Value)
  | negativeMinItems (key : Value)
  | maxItemsBelowMin (key : Value)
  | duplicateAlias (schema : Value)
  | unknownSchema (name : Value)
  | unknownSchemaInPath (name path : String)
  | unknownTargetSchema (name : Value)
  | nothingInScope (schema : Value) (scope : String)
  | undeclaredTargetField (field : String) (schemas : List Value)
  | effectWithoutFields
  | unknownField (field schema : Value)
  | subsetOfPlainField (field : String)
  | undeclaredSubset (values : List Value) (field : String)
  | requiredAndHidden (label : Value)
  | contradiction (label other : Value) (field : String)
  | unknownSelected (fields : List String) (schema : Value)
  | unknownChildSchema (name : Value)
  | notReferring (child parent : Value)
  | aliasShadowsField (key schema : Value)
  | undeclaredRequiredFields (fields : List Value) (schema : Value)
  | invalidEngine (errors : List String)
deriving Repr

def RuleProblem.message : RuleProblem → String
  | emptyPath => "Empty path expression"
  | invalidPath source => "Invalid path expression '" ++ source ++ "'"
  | invalidFieldName part source => "Invalid field name '" ++ part ++ "' in '" ++ source ++ "'"
  | takesNoArguments origin source => "$" ++ origin ++ " takes no arguments in '" ++ source ++ "'"
  | fieldOfModifiedFields source =>
    "$modifiedFields cannot be followed by a field in '" ++ source ++ "'"
  | tooManyArguments source => "Too many arguments in '" ++ source ++ "'"
  | invalidIndex given source => "Invalid index '" ++ given ++ "' in '" ++ source ++ "'"
  | indexBelowOne source => "Index must be >= 1 in '" ++ source ++ "'"
  | invalidOperator given valid =>
    "Invalid operator '" ++ given.embedded ++ "'. Valid operators: " ++ quoteAll valid
  | invalidCondition given => "Invalid condition definition: " ++ given.display
  | conditionPathNotText given => "Condition path must be a string: " ++ given.display
  | needsCollection operator given =>
    "Operator '" ++ operator ++ "' needs a collection: " ++ given.display
  | notAmong kind given valid =>
    "Invalid " ++ kind ++ " '" ++ given.embedded ++ "'. Valid values: " ++ quoteAll valid
  | emptySetAction => "Set action needs at least one target field"
  | invalidAction given => "Invalid action definition: " ++ given.display
  | mixedSelection given =>
    "Cannot mix '!field' exclusions with explicit fields: " ++ given.display
  | negativeMinItems key => "minItems must be >= 0 for '" ++ key.embedded ++ "'"
  | maxItemsBelowMin key => "maxItems < minItems for '" ++ key.embedded ++ "'"
  | duplicateAlias schema =>
    "Duplicate child alias in augmentation of '" ++ schema.embedded ++ "'"
  | unknownSchema name => "Unknown schema '" ++ name.embedded ++ "'"
  | unknownSchemaInPath name path => "Unknown schema '" ++ name ++ "' in path '" ++ path ++ "'"
  | unknownTargetSchema name => "Unknown target schema '" ++ name.embedded ++ "'"
  | nothingInScope schema scope =>
    "Schema '" ++ schema.embedded ++ "' has no " ++ scope ++ " schema to target"
  | undeclaredTargetField field schemas =>
    "Target field '" ++ field ++ "' not declared on " ++ Value.displayAll schemas
  | effectWithoutFields => "State effect needs at least one field or '*'"
  | unknownField field schema =>
    "Unknown field '" ++ field.embedded ++ "' in schema '" ++ schema.embedded ++ "'"
  | subsetOfPlainField field => "enum_subset on non-enum field '" ++ field ++ "'"
  | undeclaredSubset values field =>
    "enum_subset values " ++ Value.displayAll values ++ " not declared on '" ++ field ++ "'"
  | requiredAndHidden label =>
    "State rule '" ++ label.embedded ++ "' marks fields required and hidden"
  | contradiction label other field =>
    "State rule '" ++ label.embedded ++ "' contradicts '" ++ other.embedded ++ "' on field '"
      ++ field
      ++ "' and both can hold at once"
  | unknownSelected fields schema =>
    "Unknown fields " ++ quoteAll fields ++ " in select of '" ++ schema.embedded ++ "'"
  | unknownChildSchema name => "Unknown child schema '" ++ name.embedded ++ "'"
  | notReferring child parent =>
    "Schema '" ++ child.embedded ++ "' has no field referring to '" ++ parent.embedded ++ "'"
  | aliasShadowsField key schema =>
    "Alias '" ++ key.embedded ++ "' shadows a field of '" ++ schema.embedded ++ "'"
  | undeclaredRequiredFields fields schema =>
    "requiredFields " ++ Value.displayAll fields ++ " not declared on '" ++ schema.embedded ++ "'"
  | invalidEngine errors => "Engine configuration invalid: " ++ "; ".intercalate errors

inductive ValueProblem where
  | emptyFieldName
  | reservedFieldName (name : String)
  | enumWithoutValues (name : String)
  | referenceWithoutSchema (name : String)
  | misplacedReference (name : String)
  | crossedBounds (name : String)
  | invalidKind (given : String) (valid : List String)
  | emptySchemaName
  | duplicateField (schema : Value)
  | nonPositiveDepth (depth : Int)
  | invalidLogFormat (format : String)
  | unknownLevel (level : String)
  | nonPositiveLimit (limit : Int)
  | notA (kind : String) (given : Value)
  | recordExists (schema id : Key)
deriving Repr

def ValueProblem.message : ValueProblem → String
  | emptyFieldName => "Field name cannot be empty"
  | reservedFieldName name => "Field name '" ++ name ++ "' cannot start with '$' or contain '.'"
  | enumWithoutValues name => "enum_values required for ENUM field '" ++ name ++ "'"
  | referenceWithoutSchema name => "refer required for REFERENCE field '" ++ name ++ "'"
  | misplacedReference name => "refer is only valid on REFERENCE fields ('" ++ name ++ "')"
  | crossedBounds name => "min_value > max_value on field '" ++ name ++ "'"
  | invalidKind given valid =>
    "Invalid field kind '" ++ given ++ "'. Valid kinds: " ++ quoteAll valid
  | emptySchemaName => "Schema name cannot be empty"
  | duplicateField schema => "Duplicate field name in schema '" ++ schema.embedded ++ "'"
  | nonPositiveDepth depth =>
    "RULEDB_MAX_CASCADE_DEPTH must be positive, got " ++ toString depth
  | invalidLogFormat format =>
    "Invalid RULEDB_LOG_FORMAT '" ++ format ++ "'. Must be one of: json, text"
  | unknownLevel level => "Unknown level: " ++ Text.quote level
  | nonPositiveLimit limit => "n must be > 0: " ++ toString limit
  | notA kind given => given.display ++ " is not a valid " ++ kind
  | recordExists schema id =>
    "Record " ++ schema.embedded ++ ":" ++ id.embedded ++ " already exists"

inductive FrozenPart where
  | newSchema (name : Value)
  | catalog
  | newRule (label : Value)
  | newAction (name : Value)
  | newAugmentation (schema : Value)
deriving Repr

def FrozenPart.message : FrozenPart → String
  | newSchema name => "Cannot register schema '" ++ name.embedded ++ "': registry is frozen"
  | catalog => "Registry is already frozen"
  | newRule label => "Cannot add rule '" ++ label.embedded ++ "': rule index is frozen"
  | newAction name => "Cannot register action '" ++ name.embedded ++ "': registry is frozen"
  | newAugmentation schema =>
    "Cannot add augmentation for '" ++ schema.embedded ++ "': composer is frozen"

inductive Refusal where
  | shape (schema : Value)
  | fields (schema : Value)
  | state (schema id : Key)
  | children (schema : Value) (aliases : List String)
deriving Repr

def Refusal.layer : Refusal → String
  | shape _ | children _ _ => "combined"
  | fields _ => "schema"
  | state _ _ => "state"

def Refusal.message (refusal : Refusal) (complaints : List String) : String :=
  match refusal with
  | shape schema =>
    "Combined validation failed for " ++ schema.embedded ++ ": " ++ "; ".intercalate complaints
  | fields schema =>
    "Validation failed for " ++ schema.embedded ++ ": " ++ "; ".intercalate complaints
  | state schema id =>
    "State check failed for " ++ schema.embedded ++ ":" ++ id.embedded ++ ": "
      ++ "; ".intercalate complaints
  | children schema aliases =>
    "Child payloads " ++ quoteAll aliases ++ " are not accepted on update of " ++ schema.embedded

inductive Failure where
  | rule (problem : RuleProblem)
  | duplicateAugmentation (schema : Value) (target placement : String)
  | duplicateAction (name : Value)
  | refused (refusal : Refusal) (complaints : List String)
  | unknownField (field : String) (schema : Value) (suggestions : List String)
  | immutable (schema id : Key) (fields : List String)
  | cascadeLimit (depth limit : Nat)
  /-- A custom action gave up, or there is none of its name. -/
  | action (name : Value) (reason : String)
  | frozen (part : FrozenPart)
  | duplicateSchema (name : Value)
  | unknownSchema (name : Value)
  | recordNotFound (schema id : Key)
  | missingKey (key : String)
  | invalid (problem : ValueProblem)
  | wrongType (reason : String)
  | noSuchPart (reason : String := "")
  | settings (names : List String)
  /-- A custom action raised a failure of its own. -/
  | raised (kind reason : String)
  | endlessView (schema id : Key)
deriving Repr

namespace Failure

def notAKey (v : Value) : Failure := wrongType ("unhashable type: '" ++ v.keyFault ++ "'")

def unknownFieldMessage (field : String) (schema : Value) (suggestions : List String) : String :=
  "Unknown field '" ++ field ++ "' in schema '" ++ schema.embedded ++ "'"
    ++ (if suggestions.isEmpty then ""
        else ". Did you mean: " ++ ", ".intercalate suggestions ++ "?")

def message : Failure → String
  | rule problem => problem.message
  | duplicateAugmentation schema target placement =>
    "Augmentation for " ++ schema.embedded ++ "." ++ target ++ "('" ++ placement
      ++ "') already registered"
  | duplicateAction name => "Custom action '" ++ name.embedded ++ "' already registered"
  | refused refusal complaints => refusal.message complaints
  | unknownField field schema suggestions => unknownFieldMessage field schema suggestions
  | immutable schema id fields =>
    "Fields " ++ quoteAll (Text.sorted fields) ++ " of " ++ schema.embedded ++ ":" ++ id.embedded
      ++ " are immutable"
  | cascadeLimit depth limit =>
    "Cascade depth " ++ toString depth ++ " exceeds limit " ++ toString limit
  | action name reason =>
    "Custom action '" ++ name.embedded ++ "' failed: " ++ reason
  | frozen part => part.message
  | duplicateSchema name => "Schema '" ++ name.embedded ++ "' already registered"
  | unknownSchema name => "Unknown schema '" ++ name.embedded ++ "'"
  | recordNotFound schema id =>
    "Record " ++ schema.embedded ++ ":" ++ id.embedded ++ " not found"
  | missingKey key => key
  | invalid problem => problem.message
  | wrongType reason => reason
  | noSuchPart reason => reason
  | settings names => ", ".intercalate names
  | raised _ reason => reason
  | endlessView schema id =>
    "The view of " ++ schema.embedded ++ ":" ++ id.embedded ++ " contains itself"

/-- The reason that a custom action gives when this failure ends it: a failure without a message
is named by its kind, and a missing key is quoted. -/
def reason : Failure → String
  | raised kind "" => kind
  | missingKey key => Text.quote key
  | failure => failure.message

def details : Failure → Entries
  | refused refusal complaints =>
    [("layer", .text refusal.layer), ("field", .null), ("errors", .list (complaints.map .text))]
  | unknownField field schema suggestions =>
    [("layer", .text "schema"), ("field", .text field),
      ("errors", .list [.text (unknownFieldMessage field schema suggestions)])]
  | immutable schema id fields =>
    [("schema", schema.toValue), ("record_id", id.toValue),
      ("fields", .list ((Text.sorted fields).map .text))]
  | cascadeLimit depth limit => [("depth", .int depth), ("limit", .int limit)]
  | action name _ => [("action", name)]
  | unknownSchema name => [("schema", name)]
  | recordNotFound schema id => [("schema", schema.toValue), ("record_id", id.toValue)]
  | _ => []

end Failure

/-- A message is not written if a number in it has too many digits. -/
def Failure.tooLong : Failure :=
  .raised "ValueError" ("Exceeds the limit (" ++ toString Text.maxDigits ++ " digits) for integer "
    ++ "string conversion; use sys.set_int_max_str_digits() to increase the limit")

/-- A failure whose message names some keys. -/
def Failure.naming (keys : List Key) (failure : Failure) : Failure :=
  if keys.all Key.isWritable then failure else tooLong

/-- The key that a value is used as. Values that cannot be members of a set cannot be keys, and
neither a set nor what is no number is a key of anything. -/
def Key.ofValue (v : Value) : Except Failure Key :=
  match v.key? with
  | some key => .ok key
  | none => .error (Failure.notAKey v)

theorem Key.eq_of_ofValue {v : Value} {key : Key} (named : Key.ofValue v = .ok key) :
    v = key.toValue := by
  rw [Key.ofValue] at named
  split at named
  · rename_i found
    obtain rfl := Except.ok.inj named
    exact (Value.toValue_of_key? found).symm
  · cases named

end RecordRules
