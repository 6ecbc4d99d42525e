import RecordRules.Proofs.ParallelRows
import RecordRules.Proofs.UpdateSteps

/-!
Stores that differ in one value. In the second store one field of one row has another value, and
nothing else differs. As long as no schema refers through the field, the same related records are
found in both stores; as long as no state rule looks at it, the same conditions hold, so that all
records have the same state.
-/
namespace RecordRules

open Step

theorem Store.size_of_ids {s t : Store} (same : t.ids = s.ids) :
    t.size = s.size := by
  have counted (u : Store) : u.size = (u.ids.flatMap Prod.snd).length := by
    simp only [Store.size, Store.ids, List.length_flatMap, List.map_map]
    refine congrArg List.sum (List.map_congr_left fun table _ => ?_)
    exact (List.length_map _).symm
  rw [counted, counted, same]

namespace Condition

theorem holds_congr {c : Condition} {scene other : Scene}
    (same : ∀ p ∈ c.paths, p.resolve scene = p.resolve other) :
    c.holds scene = c.holds other := by
  obtain ⟨path, operator, operand⟩ := c
  cases operand with
  | value v => simp only [holds, expected?, same path List.mem_cons_self]
  | path p =>
    have operands := same p (List.mem_cons_of_mem _ List.mem_cons_self)
    simp only [holds, expected?, same path List.mem_cons_self, operands]

theorem allHold_congr {cs : List Condition} {scene other : Scene}
    (same : ∀ p ∈ cs.flatMap paths, p.resolve scene = p.resolve other) :
    allHold cs scene = allHold cs other := by
  induction cs with
  | nil => rfl
  | cons c rest ih =>
    rw [List.flatMap_cons, List.forall_mem_append] at same
    rw [allHold, allHold, List.all_cons, List.all_cons, holds_congr same.1]
    exact congrArg _ (ih same.2)

end Condition

/-- Another value for one field of a stored row. -/
structure Retouch (s : Store) (field : String) where
  schema : Key
  recordId : Key
  before : Entries
  after : Entries
  stored : s.row? schema recordId = some before
  only : ∀ name, name ≠ field → after.find? name = before.find? name

namespace Retouch

variable {s t : Store} {field : String} (change : Retouch s field)

def Gives (t : Store) : Prop :=
  t.tables = (s.putRow change.schema change.recordId change.after).tables

/-- Records of both stores under the same key: the same one, or the one that has the other value. -/
inductive Beside : Record → Record → Prop where
  | same (r : Record) : Beside r r
  | changed {schema id : Key} (here : ((schema, id) == (change.schema, change.recordId)) = true) :
      Beside ⟨schema, id, change.before⟩ ⟨schema, id, change.after⟩

variable {change}

namespace Beside

variable {r q : Record}

theorem schema_eq (beside : change.Beside r q) : r.schema = q.schema := by cases beside <;> rfl

theorem id_eq (beside : change.Beside r q) : r.id = q.id := by cases beside <;> rfl

theorem key_eq (beside : change.Beside r q) : r.key = q.key := by cases beside <;> rfl

theorem data_get_eq (beside : change.Beside r q) {name : String} (other : name ≠ field) :
    r.data.get name = q.data.get name := by
  cases beside with
  | same => rfl
  | changed here => rw [Entries.get, Entries.get, change.only name other]

theorem get_eq (beside : change.Beside r q) {name : String} (other : name ≠ field) :
    r.get name = q.get name := by
  rw [Record.get, Record.get, beside.data_get_eq other, beside.id_eq]

end Beside

theorem row?_eq (gives : change.Gives t) (schema id : Key) :
    t.row? schema id = if (change.schema, change.recordId) == (schema, id) then some change.after
      else s.row? schema id := by
  rw [← Store.row?_putRow, Store.row?, Store.row?, Store.table, Store.table,
    show t.tables = _ from gives]

theorem peek?_beside (gives : change.Gives t) (schema id : Key) :
    Option.Rel change.Beside (s.peek? schema id) (t.peek? schema id) := by
  rw [Store.peek?, Store.peek?, row?_eq gives]
  split
  · rename_i here
    rw [← s.row?_congr here, change.stored]
    exact .some (.changed (BEq.symm here))
  · cases s.row? schema id with
    | none => exact .none
    | some data => exact .some (.same _)

theorem table_eq (gives : change.Gives t) (schema : Key) :
    t.table schema = if change.schema == schema
      then (s.table schema).put change.recordId change.after else s.table schema := by
  rw [← Store.table_putRow, Store.table, Store.table, show t.tables = _ from gives]

theorem recordsOf_beside (gives : change.Gives t) (schema : Key) :
    List.Forall₂ change.Beside (s.recordsOf schema) (t.recordsOf schema) := by
  rw [Store.recordsOf, Store.recordsOf, List.forall₂_map_left_iff, List.forall₂_map_right_iff,
    table_eq gives]
  split
  · rename_i here
    have stored : (s.table schema).find? change.recordId = some change.before := by
      rw [Store.table, ← Keyed.find?_congr here]
      exact change.stored
    refine Keyed.forall₂_put (fun _ => .same _) stored fun key same => .changed ?_
    exact Bool.and_eq_true_iff.mpr ⟨BEq.symm here, same⟩
  · exact List.forall₂_same.mpr fun _ _ => .same _

theorem size_eq (gives : change.Gives t) : t.size = s.size := by
  refine Store.size_of_ids ?_
  rw [← Store.ids_putRow change.after change.stored, Store.ids, Store.ids,
    show t.tables = _ from gives]

section

variable (gives : change.Gives t) {c : Catalog}
  (refers : ∀ entry ∈ c.schemas, ∀ f ∈ entry.2.referFields, f.name ≠ field)

include gives refers

theorem parallel : Store.Parallel c change.Beside s t where
  key _ _ := Beside.key_eq
  refers _ _ beside _ known f declared := by
    obtain ⟨key, -, listed⟩ := Keyed.mem_of_find? known
    exact beside.data_get_eq (refers _ listed f declared)
  peek := peek?_beside gives
  records := recordsOf_beside gives

theorem relatedTo_alike {r q : Record} (beside : change.Beside r q) (registered : c.Registered)
    (which : Scope) (only : Value) :
    Alike (List.Forall₂ change.Beside) (s.relatedTo c r which only)
      (t.relatedTo c q which only) :=
  (parallel gives refers).relatedTo_alike beside registered which only

end

def Around (s t : Store) (s' t' : Store) : Prop := Store.SameRows s s' ∧ Store.SameRows t t'

section

variable (gives : change.Gives t) {c : Catalog} (registered : c.Registered)
  (refers : ∀ entry ∈ c.schemas, ∀ f ∈ entry.2.referFields, f.name ≠ field)

include gives registered refers

theorem related_pairs {r q : Record} (beside : change.Beside r q) (which : Scope) (only : Value) :
    Pairs (Around s t) (List.Forall₂ change.Beside) (Store.related c r which only)
      (Store.related c q which only) := by
  rintro s' t' ⟨here, there⟩
  obtain ⟨answered, left⟩ := Store.related_yields s c r which only s' here
  obtain ⟨also, right⟩ := Store.related_yields t c q which only t' there
  rw [answered, also]
  exact ⟨relatedTo_alike gives refers beside registered which only, left, right⟩

theorem collect_pairs {r q : Record} (beside : change.Beside r q) (direction : Direction)
    (extent : Extent) :
    Pairs (Around s t) (List.Forall₂ change.Beside) (Traversal.collect c direction r extent)
      (Traversal.collect c direction q extent) :=
  Traversal.reached_pairs (fun _ _ => Beside.key_eq) beside
    (fun _ _ here => related_pairs gives registered refers here _ .null) extent

end

theorem require_pairs (gives : change.Gives t) (schema id : Key) :
    Pairs (Around s t) change.Beside (Store.require schema id) (Store.require schema id) := by
  have got : Pairs (Around s t) (Option.Rel change.Beside) (Store.get schema id)
      (Store.get schema id) := by
    refine pairs_bind_eq (pairs_modify fun _ _ around => around) fun _ =>
      pairs_get_bind fun s' t' around => ?_
    have found := peek?_beside gives schema id
    rw [Store.peek?, Store.peek?, ← Store.row?_of_sameRows around.1,
      ← Store.row?_of_sameRows around.2] at found
    exact ⟨.ok found, around⟩
  refine pairs_bind got fun here there found => ?_
  cases found with
  | none => exact pairs_throw _
  | some beside => exact pairs_pure beside

/-- A path that spares a field: it starts at a field, and not at that one. -/
def Spared (field : String) (p : Path) : Prop := p.tail ≠ [] ∧ p.field? ≠ some field

section

variable {up up' down down' : List Record} {r q : Record}

theorem follow_eq (beside : change.Beside r q) {p : Path} (spared : Spared field p) :
    Path.follow r p.tail = Path.follow q p.tail := by
  obtain ⟨starts, elsewhere⟩ := spared
  rw [Path.field?] at elsewhere
  cases here : p.tail with
  | nil => exact absurd here starts
  | cons first rest =>
    rw [here] at elsewhere
    rw [Path.follow, Path.follow, beside.get_eq fun same => elsewhere (congrArg some same)]

theorem getElem?_beside {pool pool' : List Record} (beside : List.Forall₂ change.Beside pool pool')
    (n : Nat) : Option.Rel change.Beside pool[n]? pool'[n]? := by
  induction beside generalizing n with
  | nil => exact .none
  | cons first _ ih =>
    cases n with
    | zero => exact .some first
    | succ n => simpa only [List.getElem?_cons_succ] using ih n

theorem pick_beside {pool pool' : List Record} (beside : List.Forall₂ change.Beside pool pool')
    (index : Nat) (schema : Option String) :
    Option.Rel change.Beside (Path.pick pool index schema) (Path.pick pool' index schema) := by
  unfold Path.pick
  dsimp only
  split
  · exact .none
  · cases schema with
    | none => exact getElem?_beside beside _
    | some name =>
      refine getElem?_beside (List.rel_filter (fun r q related => ?_) beside) _
      change (r.schema == Key.text name) = true ↔ (q.schema == Key.text name) = true
      rw [related.schema_eq]

theorem resolve_eq (beside : change.Beside r q) (above : List.Forall₂ change.Beside up up')
    (below : List.Forall₂ change.Beside down down') {p : Path} (spared : Spared field p) :
    p.resolve (.ofRecord r up down) = p.resolve (.ofRecord q up' down') := by
  have picked {pool pool' : List Record} (pools : List.Forall₂ change.Beside pool pool') :
      ((Path.pick pool p.index p.schema).bind fun r => Path.follow r p.tail) =
        (Path.pick pool' p.index p.schema).bind fun r => Path.follow r p.tail := by
    have found := pick_beside pools p.index p.schema
    revert found
    generalize Path.pick pool p.index p.schema = here, Path.pick pool' p.index p.schema = there
    rintro (related | _)
    · exact follow_eq related spared
    · rfl
  cases origin : p.origin <;> simp only [Path.resolve, origin]
  case object => exact follow_eq beside spared
  case modified => rfl
  case parent => exact picked above
  case child => exact picked below

theorem compute_alike (beside : change.Beside r q) (above : List.Forall₂ change.Beside up up')
    (below : List.Forall₂ change.Beside down down') (c : Catalog) {b : RuleBook}
    (spared : ∀ rule ∈ b.stateRules, ∀ p ∈ rule.paths, Spared field p) :
    RecordState.compute c b r up down = RecordState.compute c b q up' down' := by
  have same : ∀ rule ∈ b.stateRulesFor q.schema,
      Condition.allHold rule.conditions (.ofRecord r up down) =
        Condition.allHold rule.conditions (.ofRecord q up' down') := by
    intro rule listed
    refine Condition.allHold_congr fun p read => resolve_eq beside above below ?_
    exact spared rule (List.mem_filter.mp listed).1 p read
  rw [RecordState.compute, RecordState.compute, beside.schema_eq]
  refine congrArg _ (funext fun s => ?_)
  exact congrArg (fun rules => pure (RecordState.ofRules q.schema s rules)) (List.filter_congr same)

end

theorem stateOf_pairs (gives : change.Gives t) {e : Engine} (registered : e.catalog.Registered)
    (refers : ∀ entry ∈ e.catalog.schemas, ∀ f ∈ entry.2.referFields, f.name ≠ field)
    (spared : ∀ rule ∈ e.rules.stateRules, ∀ p ∈ rule.paths, Spared field p) {r q : Record}
    (beside : change.Beside r q) :
    Pairs (Around s t) Eq (e.stateOf r) (e.stateOf q) := by
  have collects := collect_pairs gives registered refers beside
  have loaded : Pairs (Around s t)
      (fun related other => List.Forall₂ change.Beside related.1 other.1 ∧
        List.Forall₂ change.Beside related.2 other.2)
      (RecordState.loadRelated e.catalog e.rules r)
      (RecordState.loadRelated e.catalog e.rules q) := by
    rw [RecordState.loadRelated, RecordState.loadRelated, ← beside.schema_eq]
    refine pairs_ite (pairs_pure ⟨.nil, .nil⟩) ?_
    exact pairs_bind (collects .up _) fun _ _ above =>
      pairs_bind (collects .down _) fun _ _ below => pairs_pure ⟨above, below⟩
  refine pairs_bind loaded fun _ _ related => ?_
  dsimp only
  rw [compute_alike beside related.1 related.2 e.catalog spared]
  exact pairs_ofExcept (.refl _)

end Retouch

end RecordRules
