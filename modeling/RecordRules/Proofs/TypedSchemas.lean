import RecordRules.Proofs.Contradictions
import RecordRules.Proofs.DispatchFailures
import RecordRules.Proofs.StateCheck

/-!
Schemas whose parts are of the types that are expected of them. Whatever values are given, the check
of a payload against such a schema comes to an end, with complaints or without. So does the check of
a write against the state of a record, unless a value is given for a restricted field that can be in
no set: it cannot be looked up among the values that are allowed.
-/
namespace RecordRules

/-- A failure that the engine declares: something is refused or not found. The others come of values
that were not checked before they were used. -/
def Failure.IsDeclared : Failure → Prop
  | .missingKey _ | .invalid _ | .wrongType _ | .noSuchPart _ | .settings _ | .raised _ _
  | .endlessView _ _ => False
  | _ => True

namespace Value

theorem compare_numeric {v w : Value} (hv : v.isNumeric = true) (hw : w.isNumeric = true) :
    v.compare w = .ok (v.order? w) := by
  have comparable : v.areComparable w = true := by
    cases v with
    | bool _ | int _ | float _ | nan _ =>
      cases w with
      | bool _ | int _ | float _ | nan _ => rfl
      | _ => cases hw
    | _ => cases hv
  rw [compare, if_pos comparable]

theorem isNumeric_of_measure? {v measured : Value} {what : Measure}
    (given : v.measure? = some (what, measured)) : measured.isNumeric = true := by
  cases v <;> simp only [measure?, Option.some.injEq, Prod.mk.injEq, reduceCtorEq] at given <;>
    obtain ⟨-, rfl⟩ := given <;> rfl

theorem isWritable_of_measure? {v measured : Value} {what : Measure}
    (given : v.measure? = some (what, measured)) (writable : v.isWritable = true) :
    (what == .length || measured.isWritable) = true := by
  cases v with
  | text _ | list _ =>
    obtain ⟨rfl, -⟩ := Prod.mk.inj (Option.some.inj given)
    rfl
  | int _ | float _ | nan _ =>
    obtain ⟨-, rfl⟩ := Prod.mk.inj (Option.some.inj given)
    exact Bool.or_eq_true_iff.mpr (.inr writable)
  | _ => cases given

theorem areWritable_iff {members : List Value} :
    areWritable members = true ↔ ∀ v ∈ members, v.isWritable = true := by
  induction members with
  | nil => simp [areWritable]
  | cons v rest ih => simp [areWritable, ih]

theorem isWritable_object_iff {entries : Entries} :
    (object entries).isWritable = true ↔ ∀ entry ∈ entries, entry.2.isWritable = true := by
  change areWritableEntries entries = true ↔ _
  induction entries with
  | nil => simp [areWritableEntries]
  | cons entry rest ih =>
    obtain ⟨name, v⟩ := entry
    simp [areWritableEntries, ih]

theorem isWritable_get {entries : Entries} (writable : (object entries).isWritable = true)
    (name : String) : (entries.get name).isWritable = true := by
  unfold Entries.get
  cases found : entries.find? name with
  | none => rfl
  | some v =>
    obtain ⟨key, -, listed⟩ := Keyed.mem_of_find? found
    exact isWritable_object_iff.mp writable _ listed

theorem isWritable_merge {entries updates : Entries} (stored : (object entries).isWritable = true)
    (given : (object updates).isWritable = true) :
    (object (entries.merge updates)).isWritable = true :=
  isWritable_object_iff.mpr fun entry member => (Keyed.mem_merge member).elim
    (isWritable_object_iff.mp stored entry) (isWritable_object_iff.mp given entry)

def IsBound (v : Value) : Prop := v.isNull = true ∨ v.isNumeric = true

def IsText (v : Value) : Prop := ∃ t, v = text t

theorem IsText.isWritable {v : Value} (isText : v.IsText) : v.isWritable = true := by
  obtain ⟨t, rfl⟩ := isText
  rfl

theorem IsText.isKey {v : Value} (isText : v.IsText) : v.isKey = true := by
  obtain ⟨t, rfl⟩ := isText
  rfl

theorem sorted?_texts {members : List Value} (texts : ∀ v ∈ members, v.IsText) :
    ∃ ordered, sorted? members = .ok ordered := by
  have sortable : areSortable members = true := by
    unfold areSortable
    refine Bool.or_eq_true_iff.mpr (.inl (Bool.or_eq_true_iff.mpr (.inr ?_)))
    refine List.all_eq_true.mpr fun v member => ?_
    obtain ⟨t, rfl⟩ := texts v member
    rfl
  exact ⟨_, if_pos sortable⟩

theorem mem_of_sorted? {members ordered : List Value} (sorted : sorted? members = .ok ordered)
    {v : Value} (member : v ∈ ordered) : v ∈ members := by
  unfold sorted? at sorted
  split at sorted
  · obtain rfl := Except.ok.inj sorted
    exact (Text.mem_sortBy _ _ _).mp member
  · cases sorted

theorem mem_of_mem_distinct {members : List Value} {v : Value} (member : v ∈ distinct members) :
    v ∈ members := by
  suffices kept : ∀ seen, v ∈ members.foldl
      (fun seen w => if w.isIn seen then seen else seen ++ [w]) seen → v ∈ members ∨ v ∈ seen from
    (kept [] member).resolve_right List.not_mem_nil
  clear member
  induction members with
  | nil => exact fun seen found => .inr found
  | cons w rest ih =>
    intro seen found
    rw [List.foldl_cons] at found
    rcases ih _ found with later | found
    · exact .inl (List.mem_cons_of_mem w later)
    · split at found
      · exact .inr found
      · rcases List.mem_append.mp found with old | new
        · exact .inr old
        · exact .inl (List.mem_singleton.mp new ▸ List.mem_cons_self)

theorem isText_of_mem_meet {s t : List Value} (texts : ∀ v ∈ s, v.IsText) :
    ∀ v ∈ meet s t, v.IsText := by
  intro v member
  unfold meet at member
  split at member
  · exact texts v (List.mem_filter.mp member).1
  · obtain ⟨w, among, equal⟩ := isIn_iff.mp (List.mem_filter.mp member).2
    obtain ⟨name, rfl⟩ := texts w among
    cases v with
    | text own => exact ⟨own, rfl⟩
    | _ => cases equal

end Value

/-- The parts of a field are of the types that are expected of them. -/
structure Field.WellTyped (f : Field) : Prop where
  kind : ∃ kind, f.kind = .known kind
  enumValues : ∀ v ∈ f.enumValues, v.IsText
  min : f.min.IsBound
  max : f.max.IsBound

structure Field.IsWritable (f : Field) : Prop where
  min : f.min.isWritable = true
  max : f.max.isWritable = true
  default : f.default.isWritable = true

structure Schema.WellTyped (s : Schema) : Prop where
  name : s.name.IsText
  fields : ∀ f ∈ s.fields, f.WellTyped

def Catalog.WellTyped (c : Catalog) : Prop := ∀ key s, (key, s) ∈ c.schemas → s.WellTyped

def Catalog.IsWritable (c : Catalog) : Prop :=
  ∀ key s, (key, s) ∈ c.schemas → ∀ f ∈ s.fields, f.IsWritable

namespace Field

variable {f : Field}

theorem boundComplaint?_answers (beyond : Ordering) (complaint : FieldComplaint)
    {measured bound : Value} (numeric : measured.isNumeric = true) (typed : bound.IsBound)
    (writable : complaint.isWritable = true) :
    ∃ given, boundComplaint? beyond complaint measured bound = .ok given := by
  unfold boundComplaint?
  rcases typed with null | number
  · exact ⟨none, if_pos null⟩
  · rw [Value.compare_numeric numeric number, FieldComplaint.written, if_pos writable]
    split
    · exact ⟨none, rfl⟩
    · change ∃ given, (if (measured.order? bound == some beyond) = true then
        (.ok (some complaint) : Except Failure _) else .ok none) = .ok given
      split <;> exact ⟨_, rfl⟩

theorem WellTyped.boundsComplaint?_answers (typed : f.WellTyped) (own : f.IsWritable) {v : Value}
    (writable : v.isWritable = true) : ∃ given, f.boundsComplaint? v = .ok given := by
  unfold boundsComplaint?
  cases measured : v.measure? with
  | none => exact ⟨none, rfl⟩
  | some measure =>
    obtain ⟨what, n⟩ := measure
    have numeric := Value.isNumeric_of_measure? measured
    have short := Value.isWritable_of_measure? measured writable
    obtain ⟨least, low⟩ := boundComplaint?_answers .lt (.tooSmall f.name what f.min n) numeric
      typed.min (Bool.and_eq_true_iff.mpr ⟨own.min, short⟩)
    obtain ⟨most, high⟩ := boundComplaint?_answers .gt (.tooLarge f.name what f.max n) numeric
      typed.max (Bool.and_eq_true_iff.mpr ⟨own.max, short⟩)
    dsimp only
    rw [low]
    cases least with
    | some complaint => exact ⟨_, rfl⟩
    | none => exact ⟨most, high⟩

theorem WellTyped.enumComplaint?_answers (typed : f.WellTyped) (v : Value) :
    ∃ given, f.enumComplaint? v = .ok given := by
  have writable (s : String) : (FieldComplaint.notListed f.name f.enumValues s).isWritable = true :=
    Value.areWritable_iff.mpr fun w listed => (typed.enumValues w listed).isWritable
  unfold enumComplaint?
  split
  · split
    · exact ⟨none, rfl⟩
    · rw [FieldComplaint.written, if_pos (writable _)]
      exact ⟨_, rfl⟩
  · exact ⟨_, rfl⟩

theorem WellTyped.complaint?_answers (typed : f.WellTyped) (own : f.IsWritable) {v : Value}
    (writable : v.isWritable = true) : ∃ given, f.complaint? v = .ok given := by
  obtain ⟨kind, known⟩ := typed.kind
  obtain ⟨bounds, checked⟩ := typed.boundsComplaint?_answers own writable
  obtain ⟨listing, compared⟩ := typed.enumComplaint?_answers v
  unfold complaint?
  rw [known, checked, compared]
  split
  · exact ⟨_, rfl⟩
  · cases kind <;> dsimp only <;> first | exact ⟨_, rfl⟩ | (split <;> exact ⟨_, rfl⟩)

theorem isText_of_enum (enumeration : f.kind = .known .enum) {v : Value}
    (accepted : f.complaint? v = .ok none) : v.isNull = true ∨ v.IsText := by
  unfold complaint? at accepted
  rw [enumeration] at accepted
  cases v with
  | null => exact .inl rfl
  | text s => exact .inr ⟨s, rfl⟩
  | _ => cases accepted

end Field

namespace Schema

variable {s : Schema} (typed : ∀ f ∈ s.fields, f.WellTyped) (own : ∀ f ∈ s.fields, f.IsWritable)
  {payload : Entries} (writable : (Value.object payload).isWritable = true)

include typed own writable

theorem complaints_answers (isPartial : Bool) (exempt : List String) :
    ∃ given, s.complaints payload isPartial exempt = .ok given := by
  have each (f : Field) (listed : f ∈ s.fields) :
      ∃ given, fieldComplaint? payload isPartial exempt f = .ok given := by
    have answers {v : Value} := (typed f listed).complaint?_answers (own f listed) (v := v)
    unfold fieldComplaint?
    split
    · split
      · exact ⟨none, rfl⟩
      · exact answers (own f listed).default
    · rename_i v found
      obtain ⟨_, -, given⟩ := Keyed.mem_of_find? found
      split
      · exact ⟨none, rfl⟩
      · exact answers (Value.isWritable_object_iff.mp writable _ given)
  obtain ⟨ofFields, checked⟩ := exists_mapM_eq_ok each
  unfold complaints
  rw [checked]
  exact ⟨_, rfl⟩

theorem validate_faults (isPartial : Bool) (exempt : List String) :
    Faults Failure.IsDeclared (s.validate payload isPartial exempt) := by
  obtain ⟨given, checked⟩ := complaints_answers typed own writable isPartial exempt
  unfold validate
  split
  · exact faults_error trivial
  · rw [checked]
    exact faults_ite (faults_error trivial) (faults_ok ())

end Schema

theorem Field.enumValues_of_check {f : Field} (checked : f.check = .ok f)
    (enumeration : f.isOf .enum = true) : f.enumValues.isEmpty = false := by
  unfold check at checked
  split at checked
  · cases checked
  split at checked
  · cases checked
  split at checked
  · cases checked
  · rename_i listed
    simpa [enumeration] using listed

namespace RecordState

variable {c : Catalog} {b : RuleBook} {state : RecordState} {s : Schema} {f : Field} {r : Record}
  {updates : Entries}

def EnumsOnly (s : Schema) (merged : Keyed String Flags) : Prop :=
  ∀ entry ∈ merged, entry.2.subset.isSome = true →
    ∃ f, s.field? entry.1 = some f ∧ f.isOf .enum = true

theorem EnumsOnly.assert {merged : Keyed String Flags} (before : EnumsOnly s merged)
    {effect : Effect} {name : String} (found : s.field? name = some f) :
    EnumsOnly s (RecordState.assert effect merged f) := by
  intro entry listed restricted
  rcases Keyed.mem_put listed with old | ⟨key, same, rfl⟩
  · exact before entry old restricted
  · obtain rfl := eq_of_beq same
    rw [Schema.name_of_field? found] at restricted ⊢
    by_cases enumeration : f.isOf .enum = true
    · exact ⟨f, found, enumeration⟩
    · -- the rule adds nothing here: what is restricted was so before
      have own : (contribution effect f).subset = none := by simp [contribution, enumeration]
      rw [Flags.merge, own, Flags.meet_none] at restricted
      cases known : merged.find? name with
      | none =>
        rw [known] at restricted
        cases restricted
      | some flags =>
        obtain ⟨key, same, inside⟩ := Keyed.mem_of_find? known
        obtain rfl := eq_of_beq same
        rw [known, Option.getD_some] at restricted
        exact before (key, flags) inside restricted

theorem EnumsOnly.mergeEffect {merged : Keyed String Flags} (before : EnumsOnly s merged)
    (effect : Effect) : EnumsOnly s (RecordState.mergeEffect s merged effect) := by
  refine List.foldlRecOn _ _ before fun merged before f listed => ?_
  obtain ⟨name, -, found⟩ := List.mem_filterMap.mp listed
  exact before.assert found

theorem enumsOnly_mergedEffects (s : Schema) (rules : List StateRule) :
    EnumsOnly s (mergedEffects s rules) := by
  have start : EnumsOnly s [] := fun _ listed => absurd listed List.not_mem_nil
  exact List.foldlRecOn _ _ start fun _ before r _ => before.mergeEffect r.effect

def RestrictsEnums (state : RecordState) (s : Schema) : Prop :=
  ∀ name, (state.flagsOf name).subset.isSome = true →
    ∃ f, s.field? name = some f ∧ f.isOf .enum = true

theorem restrictsEnums_of_compute {up down : List Record}
    (found : c.get? r.schema = some s) (computed : compute c b r up down = .ok state) :
    state.RestrictsEnums s := by
  intro name restricted
  obtain ⟨t, required, computed⟩ := bind_eq_ok.mp computed
  obtain rfl := Option.some.inj (found.symm.trans (Catalog.get?_of_require required))
  obtain rfl := Except.ok.inj computed
  rw [flagsOf, ofRules, Keyed.find?_filterMap] at restricted
  split at restricted
  · cases marked : (mergedEffects s _).find? name with
    | none =>
      rw [marked] at restricted
      cases restricted
    | some flags =>
      obtain ⟨key, same, listed⟩ := Keyed.mem_of_find? marked
      obtain rfl := eq_of_beq same
      refine enumsOnly_mergedEffects s _ _ listed ?_
      rw [marked, Option.filter_some] at restricted
      split at restricted
      · exact restricted
      · cases restricted
  · cases restricted

def Misfits (state : RecordState) (name : String) (v : Value) : Prop :=
  (state.flagsOf name).subset.isSome = true ∧ v.isKey = false

theorem allowed?_texts (state : RecordState) (checked : f.check = .ok f)
    (enumeration : f.isOf .enum = true) (texts : ∀ v ∈ f.enumValues, v.IsText) :
    ∃ allowed, state.allowed? f = .ok (some allowed) ∧ ∀ v ∈ allowed, v.IsText := by
  have listed := Field.enumValues_of_check checked enumeration
  have keys : (f.enumValues.find? fun v => !v.isKey) = none := by
    refine List.find?_eq_none.mpr fun v member => ?_
    rw [(texts v member).isKey]
    decide
  have declared : Definition.setMembers (.list f.enumValues) =
      .ok (Value.distinct f.enumValues) := by
    unfold Definition.setMembers Definition.members
    simp only [bind, Except.bind, keys]
  have distinct : ∀ v ∈ Value.distinct f.enumValues, v.IsText :=
    fun v member => texts v (Value.mem_of_mem_distinct member)
  unfold allowed?
  rw [listed, declared]
  cases (state.flagsOf f.name).subset with
  | none => exact ⟨_, rfl, distinct⟩
  | some values => exact ⟨_, rfl, Value.isText_of_mem_meet distinct⟩

section

variable (restricts : state.RestrictsEnums s) (checked : s.Checked)
  (typed : ∀ f ∈ s.fields, f.WellTyped)

include restricts checked typed

theorem valueComplaint?_restricted {name : String} {v : Value}
    (restricted : (state.flagsOf name).subset.isSome = true) (given : v.isNull = false) :
    ∃ allowed ordered, Value.areWritable ordered = true ∧ state.valueComplaint? s name v =
      if v.isKey then
        if v.isIn allowed then .ok none
        else (StateComplaint.notAllowed name ordered v).written.map some
      else .error (.notAKey v) := by
  obtain ⟨f, found, enumeration⟩ := restricts name restricted
  obtain rfl := Schema.name_of_field? found
  have listed := List.mem_of_find?_eq_some found
  obtain ⟨allowed, answered, texts⟩ := state.allowed?_texts (checked.fields f listed) enumeration
    (typed f listed).enumValues
  obtain ⟨ordered, sorted⟩ := Value.sorted?_texts texts
  obtain ⟨values, subset⟩ := Option.isSome_iff_exists.mp restricted
  have written : Value.areWritable ordered = true := by
    refine Value.areWritable_iff.mpr fun w member => (texts w ?_).isWritable
    exact Value.mem_of_sorted? sorted member
  refine ⟨allowed, ordered, written, ?_⟩
  unfold valueComplaint?
  rw [found, subset]
  dsimp only
  rw [given, answered]
  by_cases key : v.isKey = true
  · by_cases inside : v.isIn allowed = true
    · simp [bind, Except.bind, key, inside]
      rfl
    · simp [bind, Except.bind, key, inside, sorted]
      cases (StateComplaint.notAllowed f.name ordered v).written <;> rfl
  · simp [bind, Except.bind, key]
    rfl

theorem valueComplaint?_answers {name : String} {v : Value} (fits : ¬state.Misfits name v)
    (writable : (state.flagsOf name).subset.isSome = true → v.isWritable = true) :
    ∃ given, state.valueComplaint? s name v = .ok given := by
  by_cases restricted : (state.flagsOf name).subset.isSome = true
  · have key : v.isKey = true := by
      rw [← Bool.not_eq_false]
      exact fun unfit => fits ⟨restricted, unfit⟩
    by_cases null : v.isNull = true
    · unfold valueComplaint?
      split
      · exact ⟨none, if_pos null⟩
      · exact ⟨none, rfl⟩
    · obtain ⟨allowed, ordered, short, complaint⟩ := valueComplaint?_restricted restricts checked
        typed restricted (Bool.not_eq_true _ ▸ null)
      have written : (StateComplaint.notAllowed name ordered v).isWritable = true :=
        Bool.and_eq_true_iff.mpr ⟨short, writable restricted⟩
      rw [complaint, if_pos key, StateComplaint.written, if_pos written]
      split <;> exact ⟨_, rfl⟩
  · have free : (state.flagsOf name).subset = none := by simpa using restricted
    unfold valueComplaint?
    rw [free]
    cases s.field? name <;> exact ⟨none, rfl⟩

theorem valueComplaint?_of_misfits {name : String} {v : Value} (misfits : state.Misfits name v) :
    state.valueComplaint? s name v = .error (.notAKey v) := by
  obtain ⟨restricted, unfit⟩ := misfits
  have given : v.isNull = false := by
    cases v <;> first | rfl | cases unfit
  obtain ⟨allowed, ordered, -, complaint⟩ :=
    valueComplaint?_restricted restricts checked typed restricted given
  rw [complaint, unfit]
  rfl

theorem valueComplaints_answers {names : List String}
    (fit : ∀ name ∈ names, ¬state.Misfits name (updates.get name))
    (writable : ∀ name ∈ names, (state.flagsOf name).subset.isSome = true →
      (updates.get name).isWritable = true) :
    ∃ given, state.valueComplaints s updates names = .ok given := by
  induction names with
  | nil => exact ⟨[], rfl⟩
  | cons name rest ih =>
    obtain ⟨here, later⟩ := List.forall_mem_cons.mp fit
    obtain ⟨short, others⟩ := List.forall_mem_cons.mp writable
    obtain ⟨first, answered⟩ := valueComplaint?_answers restricts checked typed here short
    obtain ⟨others, ended⟩ := ih later others
    rw [valueComplaints, answered, ended]
    exact ⟨_, rfl⟩

theorem valueComplaints_of_misfits {names : List String}
    (unfit : ∃ name ∈ names, state.Misfits name (updates.get name))
    (writable : ∀ name ∈ names, (state.flagsOf name).subset.isSome = true →
      (updates.get name).isWritable = true) :
    ∃ v, state.valueComplaints s updates names = .error (.notAKey v) := by
  induction names with
  | nil =>
    obtain ⟨_, none, -⟩ := unfit
    cases none
  | cons name rest ih =>
    rw [valueComplaints]
    by_cases here : state.Misfits name (updates.get name)
    · rw [valueComplaint?_of_misfits restricts checked typed here]
      exact ⟨_, rfl⟩
    · obtain ⟨short, others⟩ := List.forall_mem_cons.mp writable
      obtain ⟨first, answered⟩ := valueComplaint?_answers restricts checked typed here short
      obtain ⟨other, among, misfits⟩ := unfit
      rcases List.mem_cons.mp among with rfl | later
      · exact absurd misfits here
      · obtain ⟨v, failed⟩ := ih ⟨other, later, misfits⟩ others
        rw [answered, failed]
        exact ⟨v, rfl⟩

variable (known : c.get? r.schema = some s)

include known

/-- The check of a write whose values all fit fails in no other way than by refusing it. -/
theorem checkWrite_faults (fit : ∀ name ∈ r.changedNames updates,
      ¬state.Misfits name (updates.get name))
    (writable : ∀ name ∈ r.changedNames updates, (state.flagsOf name).subset.isSome = true →
      (updates.get name).isWritable = true)
    (checkImmutable : Bool) :
    Faults Failure.IsDeclared (state.checkWrite c r updates checkImmutable) := by
  obtain ⟨values, answered⟩ := valueComplaints_answers restricts checked typed
    (fun name member => fit name ((Text.mem_sorted _ _).mp member))
    (fun name member => writable name ((Text.mem_sorted _ _).mp member))
  have required : c.require r.schema = .ok s := by rw [Catalog.require, known]
  unfold checkWrite
  refine faults_ite (faults_error trivial) ?_
  rw [required]
  change Faults _ (state.valueComplaints s updates _ >>= _)
  rw [answered]
  exact faults_ite (faults_error trivial) (faults_ok ())

theorem checkWrite_of_misfits
    (unlocked : ∀ name ∈ r.changedNames updates, name ∉ state.immutableFields)
    (unfit : ∃ name ∈ r.changedNames updates, state.Misfits name (updates.get name))
    (writable : ∀ name ∈ r.changedNames updates, (state.flagsOf name).subset.isSome = true →
      (updates.get name).isWritable = true) :
    ∃ v, state.checkWrite c r updates = .error (.notAKey v) := by
  obtain ⟨name, changed, misfits⟩ := unfit
  obtain ⟨v, failed⟩ := valueComplaints_of_misfits restricts checked typed
    ⟨name, (Text.mem_sorted _ _).mpr changed, misfits⟩
    fun name member => writable name ((Text.mem_sorted _ _).mp member)
  refine ⟨v, ?_⟩
  have required : c.require r.schema = .ok s := by rw [Catalog.require, known]
  unfold checkWrite
  rw [if_pos rfl, blocked_eq_nil.mpr unlocked, required]
  change (state.valueComplaints s updates _ >>= _) = _
  rw [failed]
  rfl

end

theorem checkWrite_of_locked
    (locked : ¬∀ name ∈ r.changedNames updates, name ∉ state.immutableFields) :
    Faults Failure.IsDeclared (state.checkWrite c r updates) := by
  have blocked : state.blocked r updates ≠ [] := fun none => locked (blocked_eq_nil.mp none)
  unfold checkWrite
  dsimp only
  rw [if_pos rfl, if_pos (by simpa using blocked)]
  exact faults_error trivial

end RecordState

end RecordRules
