import RecordRules.Proofs.Frame.Step
import RecordRules.State.Loading

/-!
Frames of the store: what every look at the rows keeps is kept by traversal and by the loading of
states; what every change keeps too is kept by every operation on the store.
-/
namespace RecordRules

open Step

/-- A relation that holds between the stores before and after a look at the rows, which only leaves
a trace. -/
class Store.Looks (R : Store → Store → Prop) : Prop extends IsPreorder Store R where
  note : ∀ s access schema, R s { s with trace := s.trace ++ [(access, schema)] }

/-- A relation that holds between the stores before and after every kind of change: a trace is
left, a run of an action is noted, an id is issued, a row is put or removed, or a scope is entered
and left around other changes. -/
class Store.Frame (R : Store → Store → Prop) : Prop extends Store.Looks R where
  invocation : ∀ s ran, R s { s with invocations := s.invocations ++ [ran] }
  issue : ∀ s, R s { s with issued := s.issued + 1 }
  put : ∀ s schema id data, R s (s.putRow schema id data)
  remove : ∀ s schema id, R s (s.removeRow schema id)
  inside : ∀ s t failed, R s.enter t → R s (t.leave failed)

section

variable {R : Store → Store → Prop} [Store.Looks R]

namespace Store

theorem note_moves (access : Access) (schema : Key) : Moves R (note access schema) :=
  moves_modify fun s => Looks.note s access schema

theorem get_moves (schema id : Key) : Moves R (get schema id) :=
  moves_bind (note_moves _ _) fun _ => moves_bind moves_get fun _ => moves_pure _

theorem require_moves (schema id : Key) : Moves R (require schema id) := by
  refine moves_bind (get_moves schema id) fun found => ?_
  cases found with
  | some r => exact moves_pure r
  | none => exact moves_throw _

theorem query_moves (schema : Key) (filter : Entries) : Moves R (query schema filter) :=
  moves_bind (note_moves _ _) fun _ => moves_bind moves_get fun _ => moves_pure _

theorem related_moves (c : Catalog) (r : Record) (scope : Scope) (only : Value) :
    Moves R (related c r scope only) :=
  moves_bind (note_moves _ _) fun _ => moves_bind moves_get fun _ => moves_ofExcept _

end Store

namespace Traversal

theorem expand_moves {look : Record → Step Store (List Record)} (h : ∀ r, Moves R (look r))
    (start : Record) (limit : Nat) (level : List Record) (front : Front) :
    Moves R (expand look start limit level front) := by
  induction level generalizing front with
  | nil => exact moves_pure front
  | cons r rest ih =>
    exact moves_bind (h r) fun _ => moves_ite (moves_pure _) (ih _)

theorem levels_moves {look : Record → Step Store (List Record)} (h : ∀ r, Moves R (look r))
    (start : Record) (limit rounds : Nat) (level found : List Record) :
    Moves R (levels look start limit rounds level found) := by
  induction rounds generalizing level found with
  | zero => exact moves_pure found
  | succ rounds ih =>
    cases level with
    | nil => exact moves_pure found
    | cons r rest =>
      refine moves_ite (moves_pure found) ?_
      exact moves_bind (expand_moves h start limit _ _) fun _ => ih _ _

theorem collect_moves (c : Catalog) (direction : Direction) (start : Record) (extent : Extent) :
    Moves R (collect c direction start extent) :=
  moves_ite (moves_pure _) (levels_moves (fun r => Store.related_moves c r _ .null) _ _ _ _ _)

end Traversal

namespace RecordState

theorem loadRelated_moves (c : Catalog) (b : RuleBook) (r : Record) :
    Moves R (loadRelated c b r) :=
  moves_ite (moves_pure _) (moves_bind (Traversal.collect_moves c .up r _) fun _ =>
    moves_bind (Traversal.collect_moves c .down r _) fun _ => moves_pure _)

theorem load_moves (c : Catalog) (b : RuleBook) (r : Record) : Moves R (load c b r) :=
  moves_bind (loadRelated_moves c b r) fun _ => moves_ofExcept _

end RecordState

end

namespace Store

variable {R : Store → Store → Prop} [Frame R]

theorem write_moves (r : Record) (updates : Entries) : Moves R (write r updates) := by
  refine moves_bind (note_moves _ _) fun _ => moves_get_bind fun s => ?_
  cases s.row? r.schema r.id with
  | none => exact refl s
  | some data => exact Frame.put s r.schema r.id (data.merge updates)

theorem issueId_moves (schema : Key) : Moves R (issueId schema) := by
  cases schema with
  | text schema => exact moves_get_bind fun s => Frame.issue s
  | _ => exact moves_throw _

theorem chooseId_moves (schema : Key) (id : Value) : Moves R (chooseId schema id) :=
  moves_ite (moves_ofExcept _) (issueId_moves schema)

theorem insert_moves (c : Catalog) (schema : Key) (data : Entries) (id : Value) :
    Moves R (insert c schema data id) := by
  refine moves_bind (note_moves _ _) fun _ => moves_bind (moves_ofExcept _) fun _ =>
    moves_bind (chooseId_moves schema id) fun id => moves_get_bind fun s => ?_
  cases (s.row? schema id).isSome with
  | true => exact refl s
  | false => exact Frame.put s schema id data

theorem delete_moves (r : Record) : Moves R (delete r) := by
  refine moves_bind (note_moves _ _) fun _ => moves_get_bind fun s => ?_
  cases s.row? r.schema r.id with
  | none => exact refl s
  | some data => exact Frame.remove s r.schema r.id

theorem transaction_moves {α : Type} {step : Step Store α} (within : Moves R step) :
    Moves R (transaction step) := by
  intro s
  have moved := within s.enter
  rw [transaction, exec_of]
  cases ran : exec step s.enter with
  | mk outcome after =>
    rw [ran] at moved
    cases outcome with
    | ok answer => exact Frame.inside s after false moved
    | error failure => exact Frame.inside s after true moved

end Store

end RecordRules
