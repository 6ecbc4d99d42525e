import RecordRules.Proofs.QuietRuns
import RecordRules.Proofs.Rendering
import RecordRules.Proofs.RetouchedRows
import RecordRules.Proofs.StateCheck

/-!
Hidden values. While the state of a record hides a field, no view depends on the value that is
stored there: neither the view of the record nor that of a record in which it is nested.
-/
namespace RecordRules

open Step

namespace Engine

variable {α β γ : Type} {P : Store → Store → Prop} {Q : α → β → Prop}

theorem collectAll_pairs {step : α → Step Store γ} {other : β → Step Store γ}
    (each : ∀ x y, Q x y → Pairs P Eq (step x) (other y)) {xs : List α} {ys : List β}
    (related : List.Forall₂ Q xs ys) : Pairs P Eq (collectAll step xs) (collectAll other ys) := by
  induction related with
  | nil => exact pairs_pure rfl
  | cons first _ ih =>
    exact pairs_bind_eq (each _ _ first) fun _ => pairs_bind_eq ih fun _ => pairs_pure rfl

variable (e : Engine) {s t : Store} {field : String} (change : Retouch s field)

/-- The state of the row hides the field, under each way to write its key. -/
def Hides : Prop :=
  ∀ schema id, ((schema, id) == (change.schema, change.recordId)) = true →
    ∃ state, (exec (e.stateOf ⟨schema, id, change.before⟩) s).1 = .ok state ∧
      field ∈ state.hiddenFields

variable {e change}

theorem hides_of_texts {schema id : String} (named : change.schema = .text schema)
    (known : change.recordId = .text id) {state : RecordState}
    (loaded : (exec (e.stateOf ⟨.text schema, .text id, change.before⟩) s).1 = .ok state)
    (hidden : field ∈ state.hiddenFields) : e.Hides change := by
  intro other otherId here
  rw [named, known] at here
  obtain ⟨same, also⟩ := Bool.and_eq_true_iff.mp here
  rcases Key.same_cases same with rfl | ⟨_, _, _, none, _⟩
  · rcases Key.same_cases also with rfl | ⟨_, _, _, none, _⟩
    · exact ⟨state, loaded, hidden⟩
    · cases none
  · cases none

theorem ownView_eq {r q : Record} (beside : change.Beside r q) {state : RecordState}
    (hidden : field ∈ state.hiddenFields) (k : Contract) :
    ownView k state r = ownView k state q := by
  rw [ownView, ownView, beside.id_eq]
  refine congrArg _ (List.map_congr_left fun name shown => ?_)
  have other : name ≠ field := by
    rintro rfl
    have := (List.mem_filter.mp shown).2
    simp [hidden] at this
  rw [beside.get_eq other]

section

variable (gives : change.Gives t) (registered : e.catalog.Registered)
  (refers : ∀ entry ∈ e.catalog.schemas, ∀ f ∈ entry.2.referFields, f.name ≠ field)
  (spared : ∀ rule ∈ e.rules.stateRules, ∀ p ∈ rule.paths, Retouch.Spared field p)
  (hides : e.Hides change)

include gives registered refers spared hides

theorem stateOf_pairs_hidden {r q : Record} (beside : change.Beside r q) :
    Pairs (Retouch.Around s t)
      (fun state other => state = other ∧ ∀ k, ownView k state r = ownView k other q)
      (e.stateOf r) (e.stateOf q) := by
  intro s' t' around
  obtain ⟨alike, after⟩ :=
    Retouch.stateOf_pairs gives registered refers spared beside s' t' around
  refine ⟨?_, after⟩
  cases beside with
  | same =>
    rw [alike.eq]
    cases (exec (e.stateOf r) t').1 with
    | error failure => exact .error failure
    | ok state => exact .ok ⟨rfl, fun _ => rfl⟩
  | @changed schema id here =>
    obtain ⟨state, loaded, hidden⟩ := hides schema id here
    rw [← alike.eq, e.stateOf_of_sameRows _ around.1, loaded]
    exact .ok ⟨rfl, ownView_eq (.changed here) hidden⟩

theorem viewWithin_pairs (levels : Nat) (k : Contract) (r q : Record)
    (beside : change.Beside r q) :
    Pairs (Retouch.Around s t) Eq (e.viewWithin levels k r) (e.viewWithin levels k q) := by
  induction levels generalizing k r q with
  | zero =>
    rw [viewWithin, viewWithin, beside.schema_eq, beside.id_eq]
    exact pairs_throw _
  | succ levels ih =>
    refine pairs_bind (stateOf_pairs_hidden gives registered refers spared hides beside)
      fun state other own => ?_
    obtain ⟨rfl, own⟩ := own
    rw [own k]
    refine pairs_bind_eq (collectAll_pairs (Q := Eq) ?_ (List.forall₂_eq_eq_eq ▸ rfl)) fun _ =>
      pairs_bind_eq (pairs_ofExcept (.refl _)) fun _ => pairs_pure rfl
    rintro child _ rfl
    refine pairs_bind
      (Retouch.related_pairs gives registered refers beside .child child.schema) ?_
    intro records others found
    exact pairs_bind_eq (collectAll_pairs (ih _) found) fun _ => pairs_pure rfl

theorem viewRecord_pairs {r q : Record} (beside : change.Beside r q) (placement : Placement) :
    Pairs (Retouch.Around s t) Eq (e.viewRecord r placement) (e.viewRecord q placement) := by
  rw [viewRecord, viewRecord, beside.schema_eq]
  refine pairs_bind_eq (pairs_ofExcept (.refl _)) fun k => pairs_get_bind fun s' t' around => ?_
  have sizes : t'.size = s'.size := by
    rw [Store.size, Store.size, show t'.tables = _ from around.2, show s'.tables = _ from around.1]
    exact Retouch.size_eq gives
  rw [sizes]
  exact viewWithin_pairs gives registered refers spared hides _ k r q beside s' t' around

end

/-- No view depends on a value that is hidden: whatever record is viewed, in whatever context, the
answer is the same in both stores. -/
theorem view_eq_of_hides (e : Engine) (registered : e.catalog.Registered) (s t : Store)
    (field : String) (change : Retouch s field) (gives : change.Gives t)
    (refers : ∀ entry ∈ e.catalog.schemas, ∀ f ∈ entry.2.referFields, f.name ≠ field)
    (spared : ∀ rule ∈ e.rules.stateRules, ∀ p ∈ rule.paths,
      p.tail ≠ [] ∧ p.field? ≠ some field)
    (hides : e.Hides change) (schema id : Key) (placement : Placement) :
    (exec (e.view schema id placement) t).1 = (exec (e.view schema id placement) s).1 := by
  have viewed : Pairs (Retouch.Around s t) Eq (e.view schema id placement)
      (e.view schema id placement) :=
    pairs_bind (Retouch.require_pairs gives schema id) fun _ _ beside =>
      viewRecord_pairs gives registered refers spared hides beside placement
  exact (viewed s t ⟨rfl, rfl⟩).1.eq.symm

def sealedFolders : Engine :=
  let right : StateRule :=
    { schema := .text "Folder", effect := { onFields := [.text "title"], hidden := true }
      conditions := [⟨⟨.parent, 1, none, ["within"], "$parent.within"⟩, .eq, .value .null⟩] }
  { folders with rules :=
      { stateRules := [right], stateReaches := ReachTable.widen [] (.text "Folder") right.paths } }

/-- A folder in a top folder. -/
def inTopFolder (title : String) : Store where
  tables := [(.text "Folder", [(.text "top", [("title", .text "all")]),
    (.text "first", [("title", .text title), ("within", .text "top")])])]

theorem view_top_of_hides :
    let view (title : String) :=
      (exec (sealedFolders.view (.text "Folder") (.text "top")) (inTopFolder title)).1
    view "mine" = view "yours" ∧ (view "mine").isOk = true := by
  let change : Retouch (inTopFolder "yours") "title" :=
    { schema := .text "Folder", recordId := .text "first"
      before := [("title", .text "yours"), ("within", .text "top")]
      after := [("title", .text "mine"), ("within", .text "top")]
      stored := rfl
      only := fun name other => by simp [Keyed.find?, Ne.symm other] }
  have hides : sealedFolders.Hides change := hides_of_texts rfl rfl rfl List.mem_cons_self
  refine ⟨?_, rfl⟩
  refine sealedFolders.view_eq_of_hides folders_registered.fits.catalog (inTopFolder "yours")
    (inTopFolder "mine") "title" change rfl ?_ ?_ hides (.text "Folder") (.text "top") .alone
  · simp [sealedFolders, folders, Schema.referFields, Field.target?, Value.isTrue]
  · simp [sealedFolders, StateRule.paths, Condition.paths, Path.field?]

end Engine

end RecordRules
