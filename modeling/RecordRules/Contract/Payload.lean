import RecordRules.Contract.Basic
import RecordRules.Value.Display

/-!
Payload trees. A payload is split along its contract into one node for each record: the record's
own data, and the payloads of its children under their aliases. Validation has two layers: first
the shape of the whole tree against the contracts, then every record against its schema.
-/
namespace RecordRules

inductive Payload where
  /-- At the root, the location is the name of the schema. -/
  | node (contract : Contract) (location : Value) (data : Entries)
      (children : List (String × List Payload))

namespace Payload

def contract : Payload → Contract
  | node contract _ _ _ => contract

def location : Payload → Value
  | node _ location _ _ => location

def data : Payload → Entries
  | node _ _ data _ => data

def children : Payload → List (String × List Payload)
  | node _ _ _ children => children

def zipLevels {α : Type} : List (List α) → List (List α) → List (List α)
  | [], ys => ys
  | xs, [] => xs
  | x :: xs, y :: ys => (x ++ y) :: zipLevels xs ys

mutual

def levels : Payload → List (List Payload)
  | node contract location data children =>
    [node contract location data children] :: levelsOfGroups children

def levelsOfGroups : List (String × List Payload) → List (List Payload)
  | [] => []
  | (_, nodes) :: rest => zipLevels (levelsOfAll nodes) (levelsOfGroups rest)

def levelsOfAll : List Payload → List (List Payload)
  | [] => []
  | p :: rest => zipLevels (levels p) (levelsOfAll rest)

end

def records (p : Payload) : List Payload := p.levels.flatten

end Payload

inductive ShapeComplaint where
  | notAnObject (location kind : String)
  | notSelected (location key : String) (target : Target) (placement : Placement)
  | unknown (location key : String) (suggestions : List String)
  | missingChild (location : String) (schema : Value)
  | notSingle (location : String)
  | notAList (location kind : String)
  | tooFew (location : String) (bound : Number) (count : Nat)
  | tooMany (location : String) (bound : Number) (count : Nat)
  | missingFields (location : String) (names : List Value)

def ShapeComplaint.text : ShapeComplaint → String
  | notAnObject location kind => location ++ ": expected an object, got " ++ kind
  | notSelected location key target placement =>
    location ++ ": field '" ++ key ++ "' is not selected for " ++ target.name ++ "('"
      ++ placement.name ++ "')"
  | unknown location key suggestions =>
    location ++ ": unknown field '" ++ key ++ "'"
      ++ (if suggestions.isEmpty then ""
          else ". Did you mean: " ++ ", ".intercalate suggestions ++ "?")
  | missingChild location schema => location ++ ": required (" ++ schema.embedded ++ ")"
  | notSingle location => location ++ ": expected a single object, got a list"
  | notAList location kind => location ++ ": expected a list, got " ++ kind
  | tooFew location bound count =>
    location ++ ": expected at least " ++ bound.value.display ++ " item(s), got " ++ toString count
  | tooMany location bound count =>
    location ++ ": expected at most " ++ bound.value.display ++ " item(s), got " ++ toString count
  | missingFields location names =>
    location ++ ": missing required fields " ++ Value.displayAll names

/-- Whether a complaint can be written. All names in it are texts. -/
def ShapeComplaint.isWritable : ShapeComplaint → Bool
  | tooFew _ bound _ | tooMany _ bound _ => bound.value.isWritable
  | _ => true

namespace ContractBook

def keyComplaint? (contract : Contract) (location key : String) : Option ShapeComplaint :=
  if contract.allows key then none
  else if contract.schema.declares key then
    some (.notSelected location key contract.target contract.placement)
  else some (.unknown location key (Text.suggestions key contract.schema.fieldNames 3))

def countComplaints (r : ChildRequirement) (location : String) (count : Nat) :
    List ShapeComplaint :=
  let n : Value := .int count
  (if n.isLess r.minItems.value then [.tooFew location r.minItems count] else [])
    ++ match r.maxItems with
      | some bound => if n.isGreater bound.value then [.tooMany location bound count] else []
      | none => []

def childItems (r : ChildRequirement) (location : String) :
    Value → Option (List Value) × List ShapeComplaint
  | .list items =>
    match r.cardinality with
    | .one => (none, [.notSingle location])
    | .many => (some items, countComplaints r location items.length)
  | v =>
    match r.cardinality with
    | .one => (some [v], [])
    | .many => (none, [.notAList location v.kindName])

def given (name : Value) (entries : Entries) : Value :=
  match name with
  | .text key => entries.get key
  | _ => .null

def fieldsComplaint (r : ChildRequirement) (location : String) : Value → List ShapeComplaint
  | .object entries =>
    match r.requiredFields.filter fun name => (given name entries).isNull with
    | [] => []
    | missing => [.missingFields location missing]
  | _ => []

def childLocation (r : ChildRequirement) (location : String) (index : Nat) : String :=
  match r.cardinality with
  | .many => location ++ "[" ++ toString index ++ "]"
  | .one => location

theorem sizeOf_null_lt_object (entries : Entries) :
    sizeOf Value.null < sizeOf (Value.object entries) := by
  cases entries <;>
    simp only [Value.null.sizeOf_spec, Value.object.sizeOf_spec, List.nil.sizeOf_spec,
      List.cons.sizeOf_spec] <;>
    omega

theorem sizeOf_get_lt (entries : Entries) (name : String) :
    sizeOf (entries.get name) < sizeOf (Value.object entries) := by
  unfold Entries.get
  cases h : entries.find? name with
  | none => exact sizeOf_null_lt_object entries
  | some v =>
    obtain ⟨key, _, member⟩ := Keyed.mem_of_find? h
    have := List.sizeOf_lt_of_mem member
    simp only [Option.getD_some, Value.object.sizeOf_spec, Prod.mk.sizeOf_spec] at this ⊢
    omega

theorem sizeOf_given_lt (name : Value) (entries : Entries) :
    sizeOf (given name entries) < sizeOf (Value.object entries) := by
  unfold given
  split
  · exact sizeOf_get_lt entries _
  · exact sizeOf_null_lt_object entries

theorem sizeOf_le_of_mem_singleton {v item : Value} (h : item ∈ [v]) : sizeOf item ≤ sizeOf v :=
  List.mem_singleton.1 h ▸ Nat.le_refl _

theorem sizeOf_le_of_mem_list {items : List Value} {item : Value} (h : item ∈ items) :
    sizeOf item ≤ sizeOf (Value.list items) := by
  have lt := List.sizeOf_lt_of_mem h
  simp only [Value.list.sizeOf_spec]
  omega

theorem sizeOf_childItems_le {r : ChildRequirement} {location : String} {v item : Value}
    {items : List Value} (h : (childItems r location v).1 = some items) (hm : item ∈ items) :
    sizeOf item ≤ sizeOf v := by
  unfold childItems at h
  split at h <;> cases hc : r.cardinality <;> simp only [hc] at h
  · cases h
  · exact sizeOf_le_of_mem_list (by rwa [Option.some.inj h])
  · exact sizeOf_le_of_mem_singleton (by rwa [Option.some.inj h])
  · cases h

/-- Split a payload along its contract, with all complaints about its shape. A partial payload
need not have all mandatory children. -/
def splitShape (b : ContractBook) (c : Catalog) (contract : Contract) (location : Value)
    (isPartial : Bool) (payload : Value) : Payload × List ShapeComplaint :=
  let here := location.embedded
  match payload with
  | .object entries =>
    let own := Keyed.names entries |>.filterMap (keyComplaint? contract here)
    let data : Entries := entries.filter fun entry => contract.schema.declares entry.1
    let parts := contract.children.map fun r =>
      let place := here ++ "." ++ r.key.embedded
      let v := given r.key entries
      if v.isNull then
        (none, if r.isMandatory && !isPartial then [.missingChild place r.schema] else [])
      else
        match h : childItems r place v with
        | (none, complaints) => (none, complaints)
        | (some items, complaints) =>
          let nodes := items.attach.mapIdx fun index ⟨item, member⟩ =>
            let spot := childLocation r place index
            have : sizeOf item < sizeOf (Value.object entries) :=
              Nat.lt_of_le_of_lt (sizeOf_childItems_le (by rw [h]) member)
                (sizeOf_given_lt r.key entries)
            let (node, nested) := splitShape b c (b.nested c contract r) (.text spot) false item
            (node, fieldsComplaint r spot item ++ nested)
          (some (r.key.embedded, nodes.map Prod.fst), complaints ++ (nodes.map Prod.snd).flatten)
    (.node contract location data (parts.filterMap Prod.fst),
      own ++ (parts.map Prod.snd).flatten)
  | v => (.node contract location [] [], [.notAnObject here v.kindName])
termination_by sizeOf payload
decreasing_by simpa using this

def validateShape (b : ContractBook) (c : Catalog) (contract : Contract) (payload : Value)
    (isPartial : Bool := false) : Except Failure Payload :=
  match b.splitShape c contract contract.schema.name isPartial payload with
  | (tree, []) => .ok tree
  | (_, complaints) =>
    .error <| if complaints.all ShapeComplaint.isWritable then
      .refused (.shape contract.schema.name) (complaints.map ShapeComplaint.text)
    else .tooLong

def recordComplaints (isPartial : Bool) (p : Payload) : Except Failure (List String) := do
  let complaints ← p.contract.schema.complaints p.data isPartial p.contract.referBack.toList
  return complaints.map fun complaint => p.location.embedded ++ ": " ++ complaint.text

def treeComplaints (tree : Payload) (isPartial : Bool) : Except Failure (List String) := do
  match tree.records with
  | [] => return []
  | root :: rest =>
    let own ← recordComplaints isPartial root
    let nested ← rest.mapM (recordComplaints false)
    return own ++ nested.flatten

def validateRecords (tree : Payload) (isPartial : Bool := false) : Except Failure Unit := do
  let complaints ← treeComplaints tree isPartial
  if !complaints.isEmpty then
    throw (.refused (.fields tree.contract.schema.name) complaints)

def validate (b : ContractBook) (c : Catalog) (contract : Contract) (payload : Value)
    (isPartial : Bool := false) : Except Failure Payload := do
  let tree ← b.validateShape c contract payload isPartial
  validateRecords tree isPartial
  return tree

end ContractBook

end RecordRules
