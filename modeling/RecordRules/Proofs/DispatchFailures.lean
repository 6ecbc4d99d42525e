import RecordRules.Proofs.CascadeLoop
import RecordRules.Proofs.Frame.Step

/-!
Failures of a dispatch. Whatever goes wrong while an event is dispatched, it is not the depth limit:
only the loop of a cascade gives up for that. Custom actions are no exception, since all that goes
wrong in them is reported as a failure of the action.
-/
namespace RecordRules

def Failure.OffLimit (failure : Failure) : Prop :=
  ∀ depth limit, failure ≠ .cascadeLimit depth limit

def Faults {α : Type} (P : Failure → Prop) (outcome : Except Failure α) : Prop :=
  ∀ failure, outcome = .error failure → P failure

section

variable {α β : Type} {P : Failure → Prop}

theorem faults_ok (x : α) : Faults P (.ok x) := fun _ failed => by cases failed

theorem faults_error {failure : Failure} (h : P failure) :
    Faults P (.error failure : Except _ α) := by
  intro other failed
  cases failed
  exact h

theorem faults_ite {condition : Prop} [Decidable condition] {yes no : Except Failure α}
    (hy : Faults P yes) (hn : Faults P no) : Faults P (if condition then yes else no) := by
  split
  · exact hy
  · exact hn

theorem faults_bind {outcome : Except Failure α} {next : α → Except Failure β}
    (first : Faults P outcome) (later : ∀ x, Faults P (next x)) : Faults P (outcome >>= next) := by
  cases outcome with
  | ok x => exact later x
  | error failure => exact faults_error (first failure rfl)

theorem faults_mapM {f : α → Except Failure β} (h : ∀ x, Faults P (f x)) (xs : List α) :
    Faults P (xs.mapM f) := by
  induction xs with
  | nil => exact faults_ok []
  | cons x rest ih =>
    rw [List.mapM_cons]
    exact faults_bind (h x) fun _ => faults_bind ih fun _ => faults_ok _

end

namespace Step

variable {σ τ α β : Type} {P : Failure → Prop}

/-- Wherever an operation starts, it ends in failures of a kind only. -/
def Fails (P : Failure → Prop) (step : Step σ α) : Prop := ∀ s, Faults P (exec step s).1

theorem fails_pure (x : α) : Fails P (pure x : Step σ α) := fun _ => faults_ok x

theorem fails_throw {failure : Failure} (h : P failure) : Fails P (throw failure : Step σ α) :=
  fun _ => faults_error h

theorem fails_get : Fails P (get : Step σ σ) := fun s => faults_ok s

theorem fails_modify (f : σ → σ) : Fails P (modify f : Step σ PUnit) := fun _ => faults_ok _

theorem fails_set (t : σ) : Fails P (set t : Step σ PUnit) := fun _ => faults_ok _

theorem fails_attempt (step : Step σ α) : Fails P (attempt step) := fun _ => faults_ok _

theorem fails_ofExcept {outcome : Except Failure α} (h : Faults P outcome) :
    Fails P (ofExcept outcome : Step σ α) := fun _ => h

theorem fails_within {part : σ → τ} {update : σ → τ → σ} {step : Step τ α} (h : Fails P step) :
    Fails P (within part update step) := fun s => h (part s)

theorem fails_ite {condition : Prop} [Decidable condition] {yes no : Step σ α}
    (hy : Fails P yes) (hn : Fails P no) : Fails P (if condition then yes else no) := by
  split
  · exact hy
  · exact hn

theorem fails_bind {step : Step σ α} {next : α → Step σ β} (first : Fails P step)
    (later : ∀ x, Fails P (next x)) : Fails P (step >>= next) := by
  intro s
  refine bind_ends (P := fun ended => Faults P ended.1) (fun failure t ran => ?_)
    fun x t _ => later x t
  have failed := first s failure (congrArg Prod.fst ran)
  exact faults_error failed

theorem fails_forM {step : α → Step σ PUnit} (h : ∀ x, Fails P (step x)) (xs : List α) :
    Fails P (xs.forM step) := by
  induction xs with
  | nil => exact fails_pure _
  | cons x rest ih =>
    change Fails P (step x >>= fun _ => rest.forM step)
    exact fails_bind (h x) fun _ => ih

end Step

open Step

namespace Failure

theorem offLimit_ofValue (v : Value) : Faults OffLimit (Key.ofValue v) := by
  rw [Key.ofValue]
  cases v.key? with
  | some key => exact faults_ok key
  | none => exact faults_error fun _ _ same => by cases same

theorem offLimit_naming {failure : Failure} (keys : List Key) (off : failure.OffLimit) :
    (naming keys failure).OffLimit := by
  unfold naming
  split
  · exact off
  · exact fun _ _ same => by cases same

theorem offLimit_require (c : Catalog) (name : Key) : Faults OffLimit (c.require name) := by
  rw [Catalog.require]
  cases c.get? name with
  | some s => exact faults_ok s
  | none => exact faults_error (offLimit_naming _ fun _ _ same => by cases same)

theorem offLimit_sorted (members : List Value) : Faults OffLimit (Value.sorted? members) :=
  faults_ite (faults_ok _) (faults_error fun _ _ same => by cases same)

theorem offLimit_setMembers (v : Value) : Faults OffLimit (Definition.setMembers v) := by
  have members : Faults OffLimit (Definition.members v) := by
    cases v <;> first | exact faults_ok _ | exact faults_error fun _ _ same => by cases same
  refine faults_bind members fun items => ?_
  cases items.find? fun item => !item.isKey with
  | some item => exact faults_error fun _ _ same => by cases same
  | none => exact faults_ok _

theorem offLimit_parentAlong (s : Store) (r : Record) (f : Field) :
    Faults OffLimit (s.parentAlong r f) := by
  refine faults_ite (faults_ok _) (faults_bind (offLimit_ofValue _) fun _ => ?_)
  exact faults_ite (faults_error fun _ _ same => by cases same) (faults_ok _)

theorem offLimit_relatedTo (s : Store) (c : Catalog) (r : Record) (scope : Scope) (only : Value) :
    Faults OffLimit (s.relatedTo c r scope only) := by
  cases scope with
  | self => exact faults_ok _
  | child => exact faults_ok _
  | parent =>
    refine faults_bind (offLimit_require c r.schema) fun schema => ?_
    exact faults_bind (faults_mapM (offLimit_parentAlong s r) _) fun _ => faults_ok _

theorem offLimit_compute (c : Catalog) (b : RuleBook) (r : Record) (up down : List Record) :
    Faults OffLimit (RecordState.compute c b r up down) :=
  faults_bind (offLimit_require c r.schema) fun _ => faults_ok _

theorem offLimit_valueComplaint (state : RecordState) (s : Schema) (name : String) (v : Value) :
    Faults OffLimit (state.valueComplaint? s name v) := by
  rw [RecordState.valueComplaint?]
  split
  · refine faults_ite (faults_ok _) (faults_bind ?_ fun _ => ?_)
    · exact faults_ite (faults_ok _) (faults_bind (offLimit_setMembers _) fun _ => faults_ok _)
    · refine faults_ite (faults_error fun _ _ same => by cases same) (faults_ite (faults_ok _) ?_)
      refine faults_bind (offLimit_sorted _) fun _ => faults_bind ?_ fun _ => faults_ok _
      exact faults_ite (faults_ok _) (faults_error fun _ _ same => by cases same)
  · exact faults_ok _

theorem offLimit_valueComplaints (state : RecordState) (s : Schema) (updates : Entries)
    (names : List String) : Faults OffLimit (state.valueComplaints s updates names) := by
  induction names with
  | nil => exact faults_ok _
  | cons name rest ih =>
    exact faults_bind (offLimit_valueComplaint state s name _) fun _ =>
      faults_bind ih fun _ => faults_ok _

theorem offLimit_checkWrite (c : Catalog) (state : RecordState) (r : Record) (updates : Entries) :
    Faults OffLimit (state.checkWrite c r updates) := by
  refine faults_ite (faults_error fun _ _ same => by cases same) ?_
  refine faults_bind (offLimit_require c _) fun s => ?_
  refine faults_bind (offLimit_valueComplaints state s updates _) fun _ => ?_
  exact faults_ite (faults_error fun _ _ same => by cases same) (faults_ok _)

end Failure

namespace Store

theorem note_fails {P : Failure → Prop} (access : Access) (schema : Key) :
    Fails P (note access schema) := fails_modify _

theorem get_fails {P : Failure → Prop} (schema id : Key) : Fails P (get schema id) :=
  fails_bind (note_fails _ _) fun _ => fails_bind fails_get fun _ => fails_pure _

theorem related_fails (c : Catalog) (r : Record) (scope : Scope) (only : Value) :
    Fails Failure.OffLimit (related c r scope only) :=
  fails_bind (note_fails _ _) fun _ => fails_bind fails_get fun _ =>
    fails_ofExcept (Failure.offLimit_relatedTo _ c r scope only)

theorem write_fails (r : Record) (updates : Entries) :
    Fails Failure.OffLimit (write r updates) := by
  refine fails_bind (note_fails _ _) fun _ => fails_bind fails_get fun s => ?_
  cases s.row? r.schema r.id with
  | none => exact fails_throw (Failure.offLimit_naming _ fun _ _ same => by cases same)
  | some data => exact fails_bind (fails_set _) fun _ => fails_pure _

end Store

namespace Traversal

variable {P : Failure → Prop} {look : Record → Step Store (List Record)}

theorem expand_fails (h : ∀ r, Fails P (look r)) (start : Record) (limit : Nat)
    (level : List Record) (front : Front) : Fails P (expand look start limit level front) := by
  induction level generalizing front with
  | nil => exact fails_pure front
  | cons r rest ih => exact fails_bind (h r) fun _ => fails_ite (fails_pure _) (ih _)

theorem levels_fails (h : ∀ r, Fails P (look r)) (start : Record) (limit rounds : Nat)
    (level found : List Record) : Fails P (levels look start limit rounds level found) := by
  induction rounds generalizing level found with
  | zero => exact fails_pure found
  | succ rounds ih =>
    cases level with
    | nil => exact fails_pure found
    | cons r rest =>
      refine fails_ite (fails_pure found) ?_
      exact fails_bind (expand_fails h start limit _ _) fun _ => ih _ _

theorem collect_fails (c : Catalog) (direction : Direction) (start : Record) (extent : Extent) :
    Fails Failure.OffLimit (collect c direction start extent) :=
  fails_ite (fails_pure _) (levels_fails (fun r => Store.related_fails c r _ .null) _ _ _ _ _)

end Traversal

namespace Engine

variable (e : Engine)

theorem stateOf_fails (r : Record) : Fails Failure.OffLimit (e.stateOf r) := by
  have loaded : Fails Failure.OffLimit (RecordState.loadRelated e.catalog e.rules r) :=
    fails_ite (fails_pure _) (fails_bind (Traversal.collect_fails _ .up r _) fun _ =>
      fails_bind (Traversal.collect_fails _ .down r _) fun _ => fails_pure _)
  exact fails_bind loaded fun _ => fails_ofExcept (Failure.offLimit_compute _ _ _ _ _)

theorem guardWrite_fails (r : Record) (updates : Entries) :
    Fails Failure.OffLimit (e.guardWrite r updates) :=
  fails_ite (fails_bind (e.stateOf_fails r) fun _ =>
    fails_ofExcept (Failure.offLimit_checkWrite _ _ _ _)) (fails_pure _)

theorem applyWrite_fails (r : Record) (updates : Entries) :
    Fails Failure.OffLimit (e.applyWrite r updates) := by
  refine fails_bind (fails_within (Store.get_fails _ _)) fun _ => fails_bind fails_get fun _ => ?_
  refine fails_ite (fails_pure _) ?_
  refine fails_bind (fails_within (e.guardWrite_fails _ _)) fun _ => ?_
  refine fails_bind (fails_within (Store.write_fails _ _)) fun _ => ?_
  exact fails_bind (fails_modify _) fun _ => fails_bind (fails_modify _) fun _ => fails_pure _

theorem invoke_fails (name : Value) (call : ActionCall) :
    Fails Failure.OffLimit (e.invoke name call) := by
  refine fails_bind (fails_ofExcept (Failure.offLimit_ofValue name)) fun key => ?_
  cases e.actions.actions.find? key with
  | none => exact fails_throw fun _ _ same => by cases same
  | some action =>
    refine fails_bind (fails_modify _) fun _ => fails_bind (fails_attempt _) fun outcome => ?_
    cases outcome with
    | ok events => exact fails_pure events
    | error failure =>
      refine fails_throw fun depth limit => ?_
      intro same
      cases failure <;> cases same

theorem setFields_fails (assignments : List (String × Operand)) (scene : Scene) (target : Record) :
    Fails Failure.OffLimit (e.setFields assignments scene target) := by
  refine fails_bind (fails_ofExcept (Failure.offLimit_require _ _)) fun _ => ?_
  exact fails_ite (fails_bind (e.applyWrite_fails _ _) fun _ => fails_pure _) (fails_pure _)

theorem react_fails (event : Event) (r : Reaction) : Fails Failure.OffLimit (e.react event r) := by
  refine fails_bind (fails_within (Store.related_fails _ _ _ _)) fun targets => ?_
  cases r.action with
  | set assignments => exact fails_forM (e.setFields_fails assignments _) targets
  | custom name => exact fails_bind (e.invoke_fails _ _) (fails_forM fun _ => fails_modify _)

theorem hydrate_fails (event : Event) : Fails Failure.OffLimit (e.hydrate event) := by
  have looked (direction : Direction) (extent : Extent) (present : List Record) :
      Fails Failure.OffLimit (e.relatedFor direction event.object extent present) :=
    fails_ite (fails_pure _) (Traversal.collect_fails _ _ _ _)
  refine fails_ite (fails_pure _) (fails_ite (fails_pure _) ?_)
  exact fails_bind (looked _ _ _) fun _ => fails_bind (looked _ _ _) fun _ => fails_pure _

/-- No dispatch fails at the depth limit. -/
theorem dispatchLoaded_fails (event : Event) :
    Fails Failure.OffLimit (e.dispatchLoaded event) := by
  refine fails_bind (fails_within (e.hydrate_fails _)) fun event => ?_
  refine fails_bind (fails_modify _) fun _ => ?_
  refine fails_bind (fails_forM (e.react_fails event) _) fun _ => ?_
  exact fails_bind fails_get fun _ => fails_pure _

end Engine

end RecordRules
