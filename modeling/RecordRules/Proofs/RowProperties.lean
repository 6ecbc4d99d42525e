import RecordRules.Engine.Host
import RecordRules.Proofs.Frame.Engine
import RecordRules.Proofs.InitialRows
import RecordRules.Proofs.QuietEngines
import RecordRules.Proofs.Reading

/-!
Properties of rows that engines without reactions keep. A property of rows that all created rows
have, and all rows that a schema accepts, holds of all that is stored, after whatever calls of the
host, and whether they fail or not: the rows that an open scope has saved have it too.
-/
namespace RecordRules

open Step

theorem Schema.complaints_of_validate {s : Schema} {data : Entries}
    (valid : s.validate data = .ok ()) : s.complaints data = .ok [] := by
  rw [validate] at valid
  split at valid
  · cases valid
  · obtain ⟨complaints, found, valid⟩ := bind_eq_ok.mp valid
    split at valid
    · cases valid
    · rename_i empty
      rw [Bool.not_eq_true, Bool.not_eq_false', List.isEmpty_iff] at empty
      rwa [empty] at found

/-- A property of rows, by the name of the schema that they are stored under; names that are equal
say the same. -/
class RowProperty (P : Key → Entries → Prop) : Prop where
  congr : ∀ {schema other : Key} {data : Entries}, schema == other → P other data → P schema data

variable {P : Key → Entries → Prop}

def EachRow (P : Key → Entries → Prop) (tables : Keyed Key Table) : Prop :=
  ∀ schema rows, (schema, rows) ∈ tables → ∀ id data, (id, data) ∈ rows → P schema data

theorem EachRow.put [RowProperty P] {tables : Keyed Key Table} (each : EachRow P tables)
    {schema : Key} {rows : Table} (has : ∀ id data, (id, data) ∈ rows → P schema data) :
    EachRow P (tables.put schema rows) := by
  intro other others inside id data member
  rcases Keyed.mem_put inside with before | ⟨key, same, entry⟩
  · exact each other others before id data member
  · obtain ⟨rfl, rfl⟩ := Prod.mk.inj entry
    exact RowProperty.congr same (has id data member)

namespace Store

variable {c : Catalog} {α : Type}

/-- The rows have a property, and so do those that are saved for the scope that is open. -/
structure Upholds (P : Key → Entries → Prop) (s : Store) : Prop where
  rows : EachRow P s.tables
  saved : ∀ scope, s.scope = some scope → EachRow P scope.saved

theorem upholds_empty (P : Key → Entries → Prop) : Upholds P {} where
  rows _ _ inside := by cases inside
  saved _ opened := by cases opened

instance : Looks (Stays (Upholds P)) where
  note _ _ _ upholds := ⟨upholds.rows, upholds.saved⟩

section

variable {K : Keyed Key Table → Prop} {s : Store} (rows : K s.tables)
  (saved : ∀ scope, s.scope = some scope → K scope.saved)

include rows saved

theorem enter_keeps :
    K s.enter.tables ∧ ∀ scope, s.enter.scope = some scope → K scope.saved := by
  rw [show s.enter.tables = s.tables from sameRows_enter s]
  refine ⟨rows, fun scope opened => ?_⟩
  rw [Store.enter] at opened
  split at opened
  · cases Option.some.inj opened
    exact rows
  · rename_i outer before
    cases Option.some.inj opened
    exact saved outer before

theorem leave_keeps (failed : Bool) :
    K (s.leave failed).tables ∧ ∀ scope, (s.leave failed).scope = some scope → K scope.saved := by
  rw [Store.leave]
  split
  · exact ⟨rows, saved⟩
  · rename_i backup before
    have restored : K backup := saved _ before
    refine ⟨?_, fun _ opened => by cases opened⟩
    cases failed with
    | true => exact restored
    | false => exact rows
  · rename_i inner backup before
    have kept : K backup := saved _ before
    refine ⟨rows, fun scope opened => ?_⟩
    obtain rfl := Option.some.inj opened
    exact kept

end

namespace Upholds

variable {s : Store}

theorem table [RowProperty P] (upholds : s.Upholds P) (schema id : Key) (data : Entries)
    (member : (id, data) ∈ s.table schema) : P schema data := by
  rw [Store.table] at member
  cases found : s.tables.find? schema with
  | none =>
    rw [found] at member
    cases member
  | some rows =>
    rw [found] at member
    obtain ⟨key, same, inside⟩ := Keyed.mem_of_find? found
    exact RowProperty.congr (BEq.symm same) (upholds.rows key rows inside id data member)

theorem row? [RowProperty P] (upholds : s.Upholds P) {schema id : Key} {data : Entries}
    (stored : s.row? schema id = some data) : P schema data := by
  obtain ⟨key, -, inside⟩ := Keyed.mem_of_find? stored
  exact upholds.table schema key data inside

theorem putRow [RowProperty P] (upholds : s.Upholds P) {schema : Key} {data : Entries}
    (has : P schema data) (id : Key) : (s.putRow schema id data).Upholds P where
  saved := upholds.saved
  rows := by
    refine upholds.rows.put fun other given member => ?_
    rcases Keyed.mem_put member with before | ⟨key, -, entry⟩
    · exact upholds.table schema other given before
    · obtain ⟨-, rfl⟩ := Prod.mk.inj entry
      exact has

theorem removeRow [RowProperty P] (upholds : s.Upholds P) (schema id : Key) :
    (s.removeRow schema id).Upholds P where
  saved := upholds.saved
  rows := upholds.rows.put fun other data member =>
    upholds.table schema other data (List.mem_filter.mp member).1

theorem enter (upholds : s.Upholds P) : s.enter.Upholds P := by
  obtain ⟨rows, saved⟩ := enter_keeps upholds.rows upholds.saved
  exact ⟨rows, saved⟩

theorem leave (upholds : s.Upholds P) (failed : Bool) : (s.leave failed).Upholds P := by
  obtain ⟨rows, saved⟩ := leave_keeps upholds.rows upholds.saved failed
  exact ⟨rows, saved⟩

end Upholds

theorem transaction_stays {I : Store → Prop} (entered : ∀ s, I s → I s.enter)
    (left : ∀ s failed, I s → I (s.leave failed)) {step : Step Store α}
    (inside : Moves (Stays I) step) : Moves (Stays I) (transaction step) := by
  intro s holds
  have after := inside s.enter (entered s holds)
  rw [transaction, exec_of]
  cases ran : exec step s.enter with
  | mk outcome reached =>
    rw [ran] at after
    cases outcome with
    | ok answer => exact left reached false after
    | error failure => exact left reached true after

theorem transaction_upholds {step : Step Store α} (inside : Moves (Stays (Upholds P)) step) :
    Moves (Stays (Upholds P)) (transaction step) :=
  transaction_stays (fun _ upholds => upholds.enter) (fun _ failed upholds => upholds.leave failed)
    inside

theorem chooseId_upholds (schema : Key) (id : Value) :
    Moves (Stays (Upholds P)) (chooseId schema id) := by
  refine moves_ite (moves_ofExcept _) ?_
  cases schema with
  | text schema => exact moves_get_bind fun s upholds => ⟨upholds.rows, upholds.saved⟩
  | _ => exact moves_throw _

theorem insert_upholds [RowProperty P] {schema : Key} {data : Entries}
    (has : ∀ s, c.get? schema = some s → P schema data) (id : Value) :
    Moves (Stays (Upholds P)) (insert c schema data id) := by
  refine moves_bind (note_moves _ _) fun _ => moves_ofExcept_bind fun s required =>
    moves_bind (chooseId_upholds schema id) fun id => moves_get_bind fun t => ?_
  cases (t.row? schema id).isSome with
  | true => exact fun upholds => upholds
  | false => exact fun upholds => upholds.putRow (has s (Catalog.get?_of_require required)) id

theorem delete_upholds [RowProperty P] (r : Record) : Moves (Stays (Upholds P)) (delete r) := by
  refine moves_bind (note_moves _ _) fun _ => moves_get_bind fun s => ?_
  cases s.row? r.schema r.id with
  | none => exact fun upholds => upholds
  | some data => exact fun upholds => upholds.removeRow r.schema r.id

theorem generatedId_ne_empty (schema : String) (issued : Nat) :
    Text.lowercase schema ++ "_" ++ paddedNumber 12 (issued + 1) ≠ "" := by
  intro empty
  have lengths := congrArg String.length empty
  simp only [String.length_append, String.length_empty] at lengths
  have one : "_".length = 1 := rfl
  omega

theorem issueId_answers (schema : Key) :
    Answers (fun id : Key => ∃ s, id = .text s ∧ s ≠ "") (issueId schema) := by
  intro s id t ran
  cases schema with
  | text schema =>
    obtain ⟨answered, -⟩ := Prod.mk.inj ran
    exact ⟨_, (Except.ok.inj answered).symm, generatedId_ne_empty schema s.issued⟩
  | _ => cases ran

theorem insert_referable (schema : Key) (data : Entries) :
    Answers Record.Referable (insert c schema data) := by
  refine answers_bind fun _ => answers_bind fun _ =>
    answers_bind_of (issueId_answers schema) fun id issued => answers_bind fun s => ?_
  intro t r after ran
  cases stored : (s.row? schema id).isSome with
  | true =>
    rw [stored] at ran
    cases ran
  | false =>
    rw [stored] at ran
    obtain ⟨answered, -⟩ := Prod.mk.inj ran
    rw [← Except.ok.inj answered]
    exact issued

structure Holding (P : Key → Entries → Prop) (r : Record) (s : Store) : Prop where
  upholds : s.Upholds P
  row : s.row? r.schema r.id = some r.data

instance {r : Record} : Looks (Stays (Holding P r)) where
  note _ _ _ holding := ⟨⟨holding.upholds.rows, holding.upholds.saved⟩, holding.row⟩

theorem holding_of_require {schema id : Key} {r : Record} {s t : Store} (upholds : s.Upholds P)
    (ran : exec (require schema id) s = (.ok r, t)) : r.schema = schema ∧ t.Holding P r := by
  rw [exec_require] at ran
  obtain ⟨found, rfl⟩ := Prod.mk.inj ran
  split at found
  · rename_i data stored
    obtain rfl := Except.ok.inj found
    exact ⟨rfl, ⟨upholds.rows, upholds.saved⟩, stored⟩
  · cases found

theorem write_upholds [RowProperty P] {r : Record} {updates : Entries}
    (has : P r.schema (r.withUpdates updates).data) :
    Leads (Holding P r) (Upholds P) (write r updates) := by
  intro s holding
  have noted : Upholds P { s with trace := s.trace ++ [(.write, r.schema)] } :=
    ⟨holding.upholds.rows, holding.upholds.saved⟩
  rw [exec_write, holding.row]
  exact noted.putRow has r.id

end Store

def HostCall.isProper : HostCall → Bool
  | create _ payload _ => payload.isProper
  | _ => true

namespace Engine

def performAll (e : Engine) (calls : List HostCall) (s : Store) : Store :=
  calls.foldl (fun s call => (exec (e.perform call) s).2) s

/-- Rows have the property when they are created from accepted payloads, and when their schema
accepts them. -/
structure Imparts (e : Engine) (P : Key → Entries → Prop) : Prop where
  created : ∀ schema p parent, p.Built e.catalog → p.Accepted → p.Placed parent →
    e.catalog.get? schema = some p.contract.schema → P schema (initialValues p parent)
  accepted : ∀ schema s data, e.catalog.get? schema = some s → s.complaints data = .ok [] →
    P schema data

variable {e : Engine}

theorem propagate_stays {I : Store → Prop} (quiet : e.rules.reactions = []) (roots : List Event) :
    Moves (Stays I) (e.propagate roots) := by
  intro s holds
  obtain ⟨c, ended⟩ := propagate_quiet quiet roots s
  rw [ended]
  exact holds

theorem insertRecord_upholds [RowProperty P] (imparts : e.Imparts P) {p : Payload}
    {parent : Option Record} (built : p.Built e.catalog) (accepted : p.Accepted)
    (placed : p.Placed parent) : Moves (Stays (Store.Upholds P)) (e.insertRecord p parent) := by
  refine moves_ofExcept_bind fun schema named => moves_bind (e.stateOf_moves _) fun _ =>
    moves_bind (moves_ofExcept _) fun _ => ?_
  apply Store.insert_upholds
  intro s found
  obtain rfl : s = p.contract.schema := built.known.registered schema s named found
  exact imparts.created schema p parent built accepted placed found

theorem insertRecord_referable (p : Payload) (parent : Option Record) :
    Answers Record.Referable (e.insertRecord p parent) :=
  answers_bind fun schema => answers_bind fun _ => answers_bind fun _ =>
    Store.insert_referable schema _

variable {I : Store → Prop} {Fault : Failure → Prop}

abbrev Insertable (e : Engine) (I : Store → Prop) (Fault : Failure → Prop) (p : Payload) : Prop :=
  ∀ parent, p.Placed parent → Safe I Fault Record.Referable (e.insertRecord p parent)

mutual

/-- If all its records are inserted safely, so is a payload. -/
theorem insertTree_safe : (p : Payload) → (parent : Option Record) →
    p.All (e.Insertable I Fault) → p.Placed parent →
    Safe I Fault (fun _ => True) (e.insertTree p parent)
  | .node contract location data children, parent, all, placed => by
    cases all with
    | node here below =>
      refine safe_bind (here parent placed) fun r referable => ?_
      exact safe_bind (insertGroups_safe children r referable below) fun _ _ => safe_pure trivial

theorem insertGroups_safe : (groups : List (String × List Payload)) → (parent : Record) →
    parent.Referable → (∀ group ∈ groups, ∀ p ∈ group.2, p.All (e.Insertable I Fault)) →
    Safe I Fault (fun _ => True) (e.insertGroups groups parent)
  | [], _, _, _ => safe_pure trivial
  | (key, nodes) :: rest, parent, referable, each => by
    have first := insertAll_safe nodes parent referable (each (key, nodes) List.mem_cons_self)
    have others := insertGroups_safe rest parent referable fun group later =>
      each group (List.mem_cons_of_mem _ later)
    exact safe_bind first fun _ _ => safe_bind others fun _ _ => safe_pure trivial

theorem insertAll_safe : (nodes : List Payload) → (parent : Record) → parent.Referable →
    (∀ p ∈ nodes, p.All (e.Insertable I Fault)) →
    Safe I Fault (fun _ => True) (e.insertAll nodes parent)
  | [], _, _, _ => safe_pure trivial
  | p :: rest, parent, referable, each => by
    have first := insertTree_safe p (some parent) (each p List.mem_cons_self) referable
    have others := insertAll_safe rest parent referable fun q later =>
      each q (List.mem_cons_of_mem _ later)
    exact safe_bind first fun _ _ => safe_bind others fun _ _ => safe_pure trivial

end

section

variable [RowProperty P] (imparts : e.Imparts P) (quiet : e.rules.reactions = [])

include imparts quiet

theorem update_upholds (schema id : Key) (updates : Value) :
    Moves (Stays (Store.Upholds P)) (e.update schema id updates) := by
  refine moves_ofExcept_bind fun s required => moves_ofExcept_bind fun data _ => ?_
  have found := Catalog.get?_of_require required
  apply Store.transaction_upholds
  intro before upholds
  refine bind_ends (P := fun ended => Store.Upholds P ended.2) (fun failure t ran => ?_)
    fun current t ran => ?_
  · have looked := Store.require_moves (R := Stays (Store.Upholds P)) schema id before upholds
    rwa [ran] at looked
  · obtain ⟨rfl, holding⟩ := Store.holding_of_require upholds ran
    have weaker (u : Store) (held : u.Holding P current) : u.Upholds P := held.upholds
    have looked : Moves (Stays (Store.Holding P current)) (e.stateOf current) :=
      e.stateOf_moves current
    refine (?_ : Leads (Store.Holding P current) (Store.Upholds P) _) t holding
    dsimp only
    split
    · exact weaker
    · refine leads_bind weaker looked fun state => ?_
      refine leads_ofExcept_bind weaker fun _ _ => leads_ofExcept_bind weaker fun _ valid => ?_
      have accepted := imparts.accepted _ s _ found (Schema.complaints_of_validate valid)
      refine leads_bind (fun _ upholds => upholds) (Store.write_upholds accepted) fun written => ?_
      exact moves_bind (propagate_stays quiet _) fun _ => moves_pure _

omit imparts in
theorem delete_upholds (schema id : Key) :
    Moves (Stays (Store.Upholds P)) (e.delete schema id) := by
  refine moves_ofExcept_bind fun s _ => Store.transaction_upholds ?_
  refine moves_bind (Store.require_moves schema id) fun current =>
    moves_bind (e.stateOf_moves current) fun state => moves_ite (moves_throw _) ?_
  refine moves_bind (Store.delete_upholds current) fun _ => ?_
  exact moves_bind (propagate_stays quiet _) fun _ => moves_pure _

variable (registered : e.catalog.Registered)

include registered

theorem create_upholds (schema : Key) {payload : Value}
    (proper : payload.isProper = true) (placement : Placement) :
    Moves (Stays (Store.Upholds P)) (e.create schema payload placement) := by
  refine moves_ofExcept_bind fun contract composed => moves_ofExcept_bind fun tree passed => ?_
  obtain ⟨s, required, composed⟩ := bind_eq_ok.mp composed
  obtain rfl := Except.ok.inj composed
  have found := Catalog.get?_of_require required
  have known := ContractBook.known_contractOf (b := e.contracts)
    (ContractBook.registered_of_get? registered found) .create placement .null
  obtain ⟨under, all⟩ := ContractBook.validate_ok registered known proper passed
  have insertable : tree.All (e.Insertable (Store.Upholds P) fun _ => True) := by
    refine all.mono fun p fine parent placed before upholds => ⟨?_, fun _ _ => trivial, ?_⟩
    · exact insertRecord_upholds imparts fine.1 fine.2 placed before upholds
    · exact fun r answered => insertRecord_referable p parent before r _ (Prod.ext answered rfl)
  have root : tree.Placed none := by
    rw [Payload.Placed, under]
    exact ContractBook.contractOf_alone e.contracts s .create placement
  apply Store.transaction_upholds
  have stored : Moves (Stays (Store.Upholds P)) (e.insertTree tree none) :=
    fun before upholds => (insertTree_safe tree none insertable root before upholds).1
  exact moves_bind stored fun _ => moves_bind (propagate_stays quiet _) fun _ => moves_pure _

theorem perform_upholds {call : HostCall} (proper : call.isProper = true) :
    Moves (Stays (Store.Upholds P)) (e.perform call) := by
  cases call with
  | create schema payload placement =>
    have created := create_upholds imparts quiet registered schema proper placement
    exact moves_bind created fun _ => moves_pure _
  | update schema id updates =>
    exact moves_bind (update_upholds imparts quiet schema id updates) fun _ => moves_pure _
  | delete schema id => exact moves_bind (delete_upholds quiet schema id) fun _ => moves_pure _
  | report events =>
    have dispatched : Moves (Stays (Store.Upholds P)) (e.run events) :=
      Store.transaction_upholds (propagate_stays quiet events)
    exact moves_bind dispatched fun _ => moves_pure _

end

end Engine

end RecordRules
