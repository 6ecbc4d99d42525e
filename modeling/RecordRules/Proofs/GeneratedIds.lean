import RecordRules.Proofs.ReachedRows

/-!
Generated ids. Hosts that do not choose ids get generated ones, with a number that grows from one to
the next, also where a call is undone. So in an engine without reactions every stored row stands
under an id of a number that was given before, and a new row always finds its place.
-/
namespace RecordRules

open Step

namespace Store

theorem ofDigitChars_paddedNumber (width n : Nat) :
    Nat.ofDigitChars 10 (paddedNumber width n).toList 0 = n := by
  unfold paddedNumber
  rw [String.toList_append, String.toList_ofList, Nat.ofDigitChars_append,
    Nat.ofDigitChars_replicate_zero, Nat.toString_eq_ofList_toDigits, String.toList_ofList,
    Nat.mul_zero, Nat.ofDigitChars_ten_toDigits]

theorem paddedNumber_injective (width : Nat) : Function.Injective (paddedNumber width) := by
  intro m n same
  rw [← ofDigitChars_paddedNumber width m, same, ofDigitChars_paddedNumber]

theorem generatedId_injective (schema : String) : Function.Injective (generatedId schema) := by
  intro m n same
  have numbers := (String.append_right_inj _).mp (Key.text.inj same)
  exact Nat.succ.inj (paddedNumber_injective 12 numbers)

/-- The id is one of those that were generated first for a schema. -/
def Issued (count : Nat) (schema id : Key) : Prop :=
  ∃ name number, schema = .text name ∧ number < count ∧ id = generatedId name number

theorem Issued.mono {count more : Nat} {schema id : Key} (issued : Issued count schema id)
    (grows : count ≤ more) : Issued more schema id := by
  obtain ⟨name, number, named, small, generated⟩ := issued
  exact ⟨name, number, named, small.trans_le grows, generated⟩

theorem Issued.congr {count : Nat} {schema other id otherId : Key} (issued : Issued count schema id)
    (schemas : (schema == other) = true) (ids : (id == otherId) = true) :
    Issued count other otherId := by
  obtain ⟨name, number, rfl, small, rfl⟩ := issued
  exact ⟨name, number, Key.eq_text schemas, small, Key.eq_text ids⟩

def AllIssued (count : Nat) (tables : Keyed Key Table) : Prop :=
  ∀ schema rows, (schema, rows) ∈ tables → ∀ id ∈ rows.names, Issued count schema id

/-- The rows stand under generated ids, and so do those that are saved for the open scope. -/
structure Numbered (s : Store) : Prop where
  rows : AllIssued s.issued s.tables
  saved : ∀ scope, s.scope = some scope → AllIssued s.issued scope.saved

theorem numbered_empty : Numbered {} where
  rows _ _ inside := by cases inside
  saved _ opened := by cases opened

instance : Looks (Stays Numbered) where
  note _ _ _ numbered := ⟨numbered.rows, numbered.saved⟩

namespace Numbered

variable {s : Store}

theorem table (numbered : s.Numbered) {schema id : Key} (listed : id ∈ (s.table schema).names) :
    Issued s.issued schema id := by
  unfold Store.table at listed
  cases found : s.tables.find? schema with
  | none =>
    rw [found] at listed
    cases listed
  | some rows =>
    rw [found] at listed
    obtain ⟨key, same, inside⟩ := Keyed.mem_of_find? found
    exact (numbered.rows key rows inside id listed).congr same BEq.rfl

theorem issued (numbered : s.Numbered) {schema id : Key} {data : Entries}
    (stored : s.row? schema id = some data) : Issued s.issued schema id := by
  obtain ⟨key, same, inside⟩ := Keyed.mem_of_find? stored
  exact (numbered.table (List.mem_map_of_mem inside)).congr BEq.rfl same

theorem issue (numbered : s.Numbered) : Numbered { s with issued := s.issued + 1 } where
  rows schema rows inside id listed := (numbered.rows schema rows inside id listed).mono (by simp)
  saved scope opened schema rows inside id listed :=
    (numbered.saved scope opened schema rows inside id listed).mono (by simp)

theorem put (numbered : s.Numbered) {schema : Key} {rows : Table}
    (each : ∀ id ∈ rows.names, Issued s.issued schema id) :
    Numbered { s with tables := s.tables.put schema rows } where
  saved := numbered.saved
  rows other others inside id listed := by
    rcases Keyed.mem_put inside with before | ⟨key, same, entry⟩
    · exact numbered.rows other others before id listed
    · obtain ⟨rfl, rfl⟩ := Prod.mk.inj entry
      exact (each id listed).congr (BEq.symm same) BEq.rfl

theorem putRow (numbered : s.Numbered) {schema id : Key} (issued : Issued s.issued schema id)
    (data : Entries) : (s.putRow schema id data).Numbered := by
  refine numbered.put fun other listed => ?_
  rcases Keyed.mem_names_put listed with before | rfl
  · exact numbered.table before
  · exact issued

theorem removeRow (numbered : s.Numbered) (schema id : Key) : (s.removeRow schema id).Numbered :=
  numbered.put fun _ listed =>
    numbered.table ((Keyed.names_filter_sublist _ _).subset listed)

theorem enter (numbered : s.Numbered) : s.enter.Numbered := by
  have kept : s.enter.issued = s.issued := by
    unfold Store.enter
    split <;> rfl
  obtain ⟨rows, saved⟩ := enter_keeps numbered.rows numbered.saved
  rw [← kept] at rows saved
  exact ⟨rows, saved⟩

theorem leave (numbered : s.Numbered) (failed : Bool) : (s.leave failed).Numbered := by
  have kept : (s.leave failed).issued = s.issued := by
    unfold Store.leave
    split <;> rfl
  obtain ⟨rows, saved⟩ := leave_keeps numbered.rows numbered.saved failed
  rw [← kept] at rows saved
  exact ⟨rows, saved⟩

theorem row?_generatedId (numbered : s.Numbered) (name : String) :
    s.row? (.text name) (generatedId name s.issued) = none := by
  rw [Option.eq_none_iff_forall_ne_some]
  intro data stored
  obtain ⟨_, number, ⟨⟩, small, same⟩ := numbered.issued stored
  obtain rfl := generatedId_injective name same
  exact small.false

end Numbered

def inserted (s : Store) (name : String) (data : Entries) : Store :=
  let noted : Store :=
    { s with trace := s.trace ++ [(.insert, .text name)], issued := s.issued + 1 }
  noted.putRow (.text name) (generatedId name s.issued) data

theorem exec_chooseId (name : String) (s : Store) :
    exec (chooseId (.text name) .null) s =
      (.ok (generatedId name s.issued), { s with issued := s.issued + 1 }) := rfl

/-- A record always finds its place, which is one under the next id. -/
theorem exec_insert {c : Catalog} {name : String} {schema : Schema} {s : Store}
    (known : c.require (.text name) = .ok schema) (numbered : s.Numbered) (data : Entries) :
    exec (insert c (.text name) data) s =
      (.ok ⟨.text name, generatedId name s.issued, data⟩, s.inserted name data) := by
  have fresh : Store.row? { s with
      trace := s.trace ++ [(.insert, .text name)], issued := s.issued + 1 }
      (.text name) (generatedId name s.issued) = none := numbered.row?_generatedId name
  simp only [insert, note, exec_bind, exec_modify, known, exec_ofExcept, exec_chooseId, exec_get]
  rw [fresh]
  rfl

theorem Numbered.inserted {s : Store} (numbered : s.Numbered) (name : String) (data : Entries) :
    (s.inserted name data).Numbered := by
  have noted : Numbered { s with
      trace := s.trace ++ [(.insert, .text name)], issued := s.issued + 1 } :=
    ⟨numbered.issue.rows, numbered.issue.saved⟩
  exact noted.putRow ⟨name, s.issued, rfl, s.issued.lt_succ_self, rfl⟩ data

theorem insert_numbered (c : Catalog) (schema : Key) (data : Entries) :
    Moves (Stays Numbered) (insert c schema data) := by
  intro s numbered
  cases known : c.require schema with
  | error failure =>
    simp only [insert, note, exec_bind, exec_modify, known, exec_ofExcept]
    exact ⟨numbered.rows, numbered.saved⟩
  | ok definition =>
    cases schema with
    | text name =>
      rw [exec_insert known numbered]
      exact numbered.inserted name data
    | _ =>
      simp only [insert, note, exec_bind, exec_modify, known, exec_ofExcept]
      exact ⟨numbered.rows, numbered.saved⟩

theorem write_numbered (r : Record) (updates : Entries) :
    Moves (Stays Numbered) (write r updates) := by
  intro s numbered
  have noted : Numbered { s with trace := s.trace ++ [(.write, r.schema)] } :=
    ⟨numbered.rows, numbered.saved⟩
  rw [exec_write]
  cases stored : s.row? r.schema r.id with
  | none => exact noted
  | some data => exact noted.putRow (numbered.issued stored) _

theorem delete_numbered (r : Record) : Moves (Stays Numbered) (delete r) := by
  refine moves_bind (note_moves _ _) fun _ => moves_get_bind fun s => ?_
  cases s.row? r.schema r.id with
  | none => exact fun numbered => numbered
  | some data => exact fun numbered => numbered.removeRow r.schema r.id

theorem transaction_numbered {α : Type} {step : Step Store α}
    (inside : Moves (Stays Numbered) step) : Moves (Stays Numbered) (transaction step) :=
  transaction_stays (fun _ numbered => numbered.enter)
    (fun _ failed numbered => numbered.leave failed) inside

end Store

namespace Engine

variable {e : Engine} {s : Store}

theorem insertRecord_numbered (p : Payload) (parent : Option Record) :
    Moves (Stays Store.Numbered) (e.insertRecord p parent) :=
  moves_bind (moves_ofExcept _) fun _ => moves_bind (e.stateOf_moves _) fun _ =>
    moves_bind (moves_ofExcept _) fun _ => Store.insert_numbered _ _ _

section

variable (quiet : e.rules.reactions = [])

include quiet

theorem create_numbered (schema : Key) (payload : Value) (placement : Placement) :
    Moves (Stays Store.Numbered) (e.create schema payload placement) := by
  refine moves_bind (moves_ofExcept _) fun _ => moves_bind (moves_ofExcept _) fun tree => ?_
  refine Store.transaction_numbered ?_
  refine moves_bind (insertTree_moves_of insertRecord_numbered tree none) fun _ => ?_
  exact moves_bind (propagate_stays quiet _) fun _ => moves_pure _

theorem update_numbered (schema id : Key) (updates : Value) :
    Moves (Stays Store.Numbered) (e.update schema id updates) := by
  refine moves_bind (moves_ofExcept _) fun _ => moves_bind (moves_ofExcept _) fun _ => ?_
  refine Store.transaction_numbered ?_
  refine moves_bind (Store.require_moves schema id) fun current =>
    moves_ite (moves_pure _) (moves_bind (e.stateOf_moves current) fun _ => ?_)
  refine moves_bind (moves_ofExcept _) fun _ => moves_bind (moves_ofExcept _) fun _ => ?_
  refine moves_bind (Store.write_numbered _ _) fun _ => ?_
  exact moves_bind (propagate_stays quiet _) fun _ => moves_pure _

theorem delete_numbered (schema id : Key) : Moves (Stays Store.Numbered) (e.delete schema id) := by
  refine moves_bind (moves_ofExcept _) fun _ => Store.transaction_numbered ?_
  refine moves_bind (Store.require_moves schema id) fun current =>
    moves_bind (e.stateOf_moves current) fun _ => moves_ite (moves_throw _) ?_
  refine moves_bind (Store.delete_numbered current) fun _ => ?_
  exact moves_bind (propagate_stays quiet _) fun _ => moves_pure _

theorem perform_numbered (call : HostCall) : Moves (Stays Store.Numbered) (e.perform call) := by
  cases call with
  | create schema payload placement =>
    exact moves_bind (create_numbered quiet schema payload placement) fun _ => moves_pure _
  | update schema id updates =>
    exact moves_bind (update_numbered quiet schema id updates) fun _ => moves_pure _
  | delete schema id => exact moves_bind (delete_numbered quiet schema id) fun _ => moves_pure _
  | report events =>
    have dispatched := Store.transaction_numbered (propagate_stays quiet events)
    exact moves_bind dispatched fun _ => moves_pure _

end

theorem Runs.numbered (runs : e.Runs s) : s.Numbered := by
  induction runs with
  | start => exact Store.numbered_empty
  | schema _ _ ih => exact ih
  | stateRule _ _ ih => exact ih
  | augmentation _ _ ih => exact ih
  | action _ _ ih => exact ih
  | freeze _ _ ih => exact ih
  | call before _ ih => exact perform_numbered before.fits.1.quiet _ _ ih

end Engine

end RecordRules
