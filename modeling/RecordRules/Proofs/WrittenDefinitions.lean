import RecordRules.Proofs.Clauses

/-!
The definitions of fields and schemas. Main statement: a field or a schema that passed its check is
read back from its own definition, whichever of its clauses are left out.
-/
namespace RecordRules

/-- The parts of a field that can be written down as they are. -/
structure Field.Writable (f : Field) : Prop where
  kind : ∃ kind, f.kind = .known kind
  refer : f.refer.IsTextOr .null
  description : f.description.IsText

structure Schema.Writable (s : Schema) : Prop where
  name : s.name.IsText
  fields : ∀ f ∈ s.fields, f.Writable
  description : s.description.IsText

theorem mapM_map_eq {α β : Type} {f : β → Except Failure α} {g : α → β} {xs : List α}
    (each : ∀ x ∈ xs, f (g x) = .ok x) : (xs.map g).mapM f = .ok xs := by
  have whole : xs.mapM (f ∘ g) = .ok (xs.map id) := mapM_eq_map each
  rw [List.mapM_map, whole, List.map_id]

namespace Field

open Clause

variable {f : Field}

def kindName (f : Field) : String :=
  match f.kind with
  | .known kind => kind.name
  | .other _ => ""

def clauses (f : Field) : List Clause :=
  [always "name" (.text f.name), always "kind" (.text f.kindName), flag "required" f.required,
    unlessNull "default" f.default, unlessEmpty "enum_values" f.enumValues,
    unlessNull "min" f.min, unlessNull "max" f.max, ifTrue "refer" f.refer,
    flag "unique" f.unique, ifTrue "description" f.description]

def definition (f : Field) : Value := .object (written f.clauses)

theorem keys_nodup (f : Field) : (f.clauses.map Clause.key).Nodup := by
  change ["name", "kind", "required", "default", "enum_values", "min", "max", "refer", "unique",
    "description"].Nodup
  decide

theorem Writable.toValue (writable : f.Writable) : f.toValue = .ok f.definition := by
  obtain ⟨kind, known⟩ := writable.kind
  rw [Field.toValue, entries, definition, clauses, kindName, known]
  simp only [written, List.flatMap_cons, List.flatMap_nil, List.append_nil, ← List.append_assoc]
  rfl

theorem Writable.kindOf_kindName (writable : f.Writable) :
    kindOf (.text f.kindName) = .ok f.kind := by
  obtain ⟨kind, known⟩ := writable.kind
  rw [kindName, known, kindOf, FieldKind.ofName?_name]

theorem Writable.kindName_ne (writable : f.Writable) : (Value.text f.kindName).isTrue = true := by
  obtain ⟨kind, known⟩ := writable.kind
  rw [kindName, known]
  cases kind <;> rfl

/-- A field that passed its check is read back from its definition. -/
theorem Writable.ofValue (writable : f.Writable) (checked : f.check = .ok f) :
    Field.ofValue f.definition = .ok f := by
  have distinct := f.keys_nodup
  have name : Definition.require (written f.clauses) "name" = .ok (.text f.name) := by
    rw [Definition.require, find?_always distinct (v := .text f.name) (by simp [clauses])]
  have enumValues : givenEnumValues (written f.clauses) = .ok f.enumValues := by
    have listed : unlessEmpty "enum_values" f.enumValues ∈ f.clauses := by simp [clauses]
    rw [givenEnumValues, get_unlessEmpty distinct listed]
    cases f.enumValues <;> rfl
  have kind : kindOf (givenKind (written f.clauses)) = .ok f.kind := by
    rw [givenKind, get_always distinct (v := .text f.kindName) (by simp [clauses]),
      if_pos writable.kindName_ne, writable.kindOf_kindName]
  have refer : (written f.clauses).get "refer" = f.refer :=
    getD_ifTrue distinct (by simp [clauses]) writable.refer.eq_of_not_isTrue
  have description : ((written f.clauses).find? "description").getD (.text "") = f.description :=
    getD_ifTrue distinct (by simp [clauses]) writable.description.isTextOr.eq_of_not_isTrue
  have required : ((written f.clauses).get "required").isTrue = f.required :=
    get_flag distinct (by simp [clauses])
  have unique : ((written f.clauses).get "unique").isTrue = f.unique :=
    get_flag distinct (by simp [clauses])
  have default : (written f.clauses).get "default" = f.default :=
    get_unlessNull distinct (by simp [clauses])
  have min : (written f.clauses).get "min" = f.min :=
    get_unlessNull distinct (by simp [clauses])
  have max : (written f.clauses).get "max" = f.max :=
    get_unlessNull distinct (by simp [clauses])
  change ofEntries (written f.clauses) = .ok f
  rw [ofEntries, name, enumValues, kind, refer, description, required, unique, default, min, max]
  exact checked

end Field

namespace Schema

open Clause

variable {s : Schema}

def clauses (s : Schema) : List Clause :=
  [always "name" s.name, always "fields" (.list (s.fields.map Field.definition)),
    ifTrue "description" s.description]

def definition (s : Schema) : Value := .object (written s.clauses)

theorem keys_nodup (s : Schema) : (s.clauses.map Clause.key).Nodup := by
  change ["name", "fields", "description"].Nodup
  decide

theorem Writable.toValue (writable : s.Writable) : s.toValue = .ok s.definition := by
  rw [Schema.toValue, entries, mapM_eq_map fun f listed => (writable.fields f listed).toValue,
    definition, clauses]
  simp only [written, List.flatMap_cons, List.flatMap_nil, List.append_nil]
  rfl

theorem Writable.ofValue (writable : s.Writable) (checked : s.Checked) :
    Schema.ofValue s.definition = .ok s := by
  have distinct := s.keys_nodup
  have name : Definition.require (written s.clauses) "name" = .ok s.name := by
    rw [Definition.require, find?_always distinct (v := s.name) (by simp [clauses])]
  have given : givenFields (written s.clauses) = .ok (.list (s.fields.map Field.definition)) := by
    rw [givenFields, find?_always distinct (v := .list (s.fields.map Field.definition))
      (by simp [clauses])]
  have fields : (s.fields.map Field.definition).mapM Field.ofValue = .ok s.fields :=
    mapM_map_eq fun f listed => (writable.fields f listed).ofValue (checked.fields f listed)
  have description : ((written s.clauses).find? "description").getD (.text "") = s.description :=
    getD_ifTrue distinct (by simp [clauses]) writable.description.isTextOr.eq_of_not_isTrue
  change ofEntries (written s.clauses) = .ok s
  rw [ofEntries, name, given, description]
  change (s.fields.map Field.definition).mapM Field.ofValue >>= _ = _
  rw [fields]
  exact checked.schema

end Schema

end RecordRules
