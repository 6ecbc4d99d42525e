import RecordRules.Schema.Catalog
import RecordRules.Rule.Reaction

/-!
The store: rows of field values by schema and id, in order of insertion. Every access leaves a
trace. Inside a scope all changes can still be undone: the outermost scope keeps the rows as they
were when it was entered, and restores them when it is left by a failure.
-/
namespace RecordRules

inductive Access where
  | get
  | related (scope : Scope)
  | write
  | insert
  | delete
  | query
deriving DecidableEq, Repr

def Access.name : Access → String
  | get => "get"
  | related scope => "fetch_related:" ++ scope.name
  | write => "write"
  | insert => "insert"
  | delete => "delete"
  | query => "query"

structure Invocation where
  action : Key
  rule : Value
  event : Event
  targets : List Record
deriving Repr

abbrev Table := Keyed Key Entries

/-- The scope that is open: how often it was entered, and the rows at its start. -/
structure OpenScope where
  /-- Scopes inside the outermost one. -/
  inner : Nat
  saved : Keyed Key Table
deriving Repr

structure Store where
  tables : Keyed Key Table := []
  scope : Option OpenScope := none
  /-- How many ids were generated so far; they are never taken back. -/
  issued : Nat := 0
  /-- Accesses so far, with the schema accessed. -/
  trace : List (Access × Key) := []
  invocations : List Invocation := []
deriving Repr

namespace Store

def table (s : Store) (schema : Key) : Table := (s.tables.find? schema).getD []

def row? (s : Store) (schema id : Key) : Option Entries := (s.table schema).find? id

theorem row?_congr (s : Store) {schema id other otherId : Key}
    (same : (schema, id) == (other, otherId)) : s.row? schema id = s.row? other otherId := by
  obtain ⟨schemas, ids⟩ : schema == other ∧ id == otherId := Bool.and_eq_true_iff.mp same
  rw [row?, row?, table, table, Keyed.find?_congr schemas, Keyed.find?_congr ids]

def peek? (s : Store) (schema id : Key) : Option Record :=
  (s.row? schema id).map fun data => ⟨schema, id, data⟩

def recordsOf (s : Store) (schema : Key) : List Record :=
  (s.table schema).map fun (id, data) => ⟨schema, id, data⟩

def size (s : Store) : Nat := (s.tables.flatMap Prod.snd).length

def putRow (s : Store) (schema id : Key) (data : Entries) : Store :=
  { s with tables := s.tables.put schema ((s.table schema).put id data) }

theorem row?_putRow (s : Store) (schema id other otherId : Key) (data : Entries) :
    (s.putRow schema id data).row? other otherId =
      if (schema, id) == (other, otherId) then some data else s.row? other otherId := by
  change (((s.tables.put schema _).find? other).getD []).find? otherId =
    if schema == other && id == otherId then _ else ((s.tables.find? other).getD []).find? otherId
  rw [Keyed.find?_put]
  by_cases same : schema == other
  · have table : s.table schema = (s.tables.find? other).getD [] := by
      rw [Store.table, Keyed.find?_congr same]
    simp only [same, ↓reduceIte, Option.getD_some, Keyed.find?_put, table, Bool.true_and]
  · simp [same]

def ids (s : Store) : List (Key × List Key) :=
  s.tables.map fun (schema, rows) => (schema, rows.names)

theorem ids_putRow {s : Store} {schema id : Key} {old : Entries} (data : Entries)
    (stored : s.row? schema id = some old) : (s.putRow schema id data).ids = s.ids := by
  rw [row?, table] at stored
  cases found : s.tables.find? schema with
  | none =>
    rw [found] at stored
    cases stored
  | some rows =>
    rw [found] at stored
    have names : ((s.table schema).put id data).names = rows.names := by
      rw [table, found]
      exact Keyed.map_put_of_find? Prod.fst stored fun _ => rfl
    exact Keyed.map_put_of_find? (fun entry => (entry.1, Keyed.names entry.2)) found
      fun _ => congrArg _ names

def removeRow (s : Store) (schema id : Key) : Store :=
  { s with tables := s.tables.put schema ((s.table schema).erase id) }

def note (access : Access) (schema : Key) : Step Store Unit :=
  modify fun s => { s with trace := s.trace ++ [(access, schema)] }

def get (schema id : Key) : Step Store (Option Record) := do
  note .get schema
  return (← MonadState.get).peek? schema id

def require (schema id : Key) : Step Store Record := do
  match ← get schema id with
  | some r => return r
  | none => throw (.naming [schema, id] (.recordNotFound schema id))

theorem exec_require (schema id : Key) (s : Store) :
    Step.exec (require schema id) s =
      (match s.row? schema id with
        | some data => .ok ⟨schema, id, data⟩
        | none => .error (.naming [schema, id] (.recordNotFound schema id)),
      { s with trace := s.trace ++ [(.get, schema)] }) := by
  simp only [require, get, note, peek?, Step.exec_bind, Step.exec_modify, Step.exec_get,
    Step.exec_pure]
  change Step.exec (match (s.row? schema id).map (Record.mk schema id) with
    | some r => _
    | none => _) _ = _
  cases s.row? schema id with
  | some data => rfl
  | none => rfl

def write (r : Record) (updates : Entries) : Step Store Record := do
  note .write r.schema
  let s ← MonadState.get
  match s.row? r.schema r.id with
  | none => throw (.naming [r.schema, r.id] (.recordNotFound r.schema r.id))
  | some data =>
    let changed := data.merge updates
    set (s.putRow r.schema r.id changed)
    return ⟨r.schema, r.id, changed⟩

theorem exec_write (r : Record) (updates : Entries) (s : Store) :
    Step.exec (write r updates) s =
      let noted := { s with trace := s.trace ++ [(.write, r.schema)] }
      match s.row? r.schema r.id with
      | none =>
        (.error (.naming [r.schema, r.id] (.recordNotFound r.schema r.id)), noted)
      | some data =>
        (.ok ⟨r.schema, r.id, data.merge updates⟩,
          noted.putRow r.schema r.id (data.merge updates)) := by
  rw [write, Step.exec_bind, note, Step.exec_modify]
  simp only [Step.exec_bind, Step.exec_get]
  change Step.exec (match s.row? r.schema r.id with | none => _ | some data => _) _ = _
  cases s.row? r.schema r.id with
  | none => rfl
  | some data => rfl

def paddedNumber (width n : Nat) : String :=
  let digits := toString n
  String.ofList (List.replicate (width - digits.length) '0') ++ digits

/-- The id after `issued` others: the schema in lower case and a number of twelve digits. -/
def generatedId (schema : String) (issued : Nat) : Key :=
  .text (Text.lowercase schema ++ "_" ++ paddedNumber 12 (issued + 1))

def issueId : Key → Step Store Key
  | .text schema => do
    let s ← MonadState.get
    set { s with issued := s.issued + 1 }
    return generatedId schema s.issued
  | schema =>
    throw (.noSuchPart ("'" ++ schema.toValue.kindName ++ "' object has no attribute 'lower'"))

def chooseId (schema : Key) (id : Value) : Step Store Key :=
  if id.isTrue then Step.ofExcept (Key.ofValue id) else issueId schema

def insert (c : Catalog) (schema : Key) (data : Entries) (id : Value := .null) :
    Step Store Record := do
  note .insert schema
  let _ ← Step.ofExcept (c.require schema)
  let id ← chooseId schema id
  let s ← MonadState.get
  if (s.row? schema id).isSome then throw (.invalid (.recordExists schema id))
  set (s.putRow schema id data)
  return ⟨schema, id, data⟩

def delete (r : Record) : Step Store Bool := do
  note .delete r.schema
  let s ← MonadState.get
  match s.row? r.schema r.id with
  | none => return false
  | some _ =>
    set (s.removeRow r.schema r.id)
    return true

def meets (filter data : Entries) : Bool :=
  filter.all fun entry => (data.get entry.1).equals entry.2

def query (schema : Key) (filter : Entries) : Step Store (List Record) := do
  note .query schema
  return ((← MonadState.get).recordsOf schema).filter fun r => meets filter r.data

/-- The record that a reference field of a record points at. A set cannot be the id of anything. -/
def parentAlong (s : Store) (r : Record) (f : Field) : Except Failure (Option Record) := do
  let reference := r.get f.name
  if !reference.isTrue then return none
  let schema ← Key.ofValue f.refer
  if !reference.isKey then throw (.notAKey reference)
  return reference.key?.bind fun id => s.peek? schema id

/-- Records without repetitions of the same key, each where it stands first. -/
def distinctRecords (records : List Record) : List Record :=
  records.foldl (fun seen r => if seen.any fun q => q.key == r.key then seen else seen ++ [r]) []

def countsFor (only schema : Value) : Bool := !only.isTrue || only.same schema

def parents (s : Store) (schema : Schema) (r : Record) (only : Value) :
    Except Failure (List Record) := do
  let fields := schema.referFields.filter fun f => countsFor only f.refer
  return distinctRecords ((← fields.mapM (s.parentAlong r)).filterMap id)

def referring (s : Store) (r : Record) (schema : Key) (f : Field) : List Record :=
  (s.recordsOf schema).filter fun q => (q.data.get f.name).names r.id

def children (s : Store) (c : Catalog) (r : Record) (only : Value) : List Record :=
  ((c.childrenOf r.schema).filter fun edge => countsFor only edge.1.toValue).flatMap
    fun edge => s.referring r edge.1 edge.2

/-- The records related to a record: itself as it is stored, those that it refers to, or those that
refer to it. -/
def relatedTo (s : Store) (c : Catalog) (r : Record) (scope : Scope) (only : Value) :
    Except Failure (List Record) :=
  match scope with
  | .self => .ok (s.peek? r.schema r.id).toList
  | .parent => do s.parents (← c.require r.schema) r only
  | .child => .ok (s.children c r only)

def related (c : Catalog) (r : Record) (scope : Scope) (only : Value := .null) :
    Step Store (List Record) := do
  note (.related scope) r.schema
  Step.ofExcept ((← MonadState.get).relatedTo c r scope only)

def enter (s : Store) : Store :=
  match s.scope with
  | none => { s with scope := some ⟨0, s.tables⟩ }
  | some scope => { s with scope := some { scope with inner := scope.inner + 1 } }

/-- Leave the innermost scope. Leaving the outermost one by a failure restores the rows. -/
def leave (failed : Bool) (s : Store) : Store :=
  match s.scope with
  | none => s
  | some ⟨0, saved⟩ =>
    { s with scope := none, tables := if failed then saved else s.tables }
  | some ⟨inner + 1, saved⟩ => { s with scope := some ⟨inner, saved⟩ }

def transaction {α : Type} (step : Step Store α) : Step Store α :=
  Step.of fun s =>
    match Step.exec step s.enter with
    | (.ok answer, after) => (.ok answer, after.leave false)
    | (.error failure, after) => (.error failure, after.leave true)

def clearTrace (s : Store) : Store := { s with trace := [] }

end Store

end RecordRules
