import RecordRules.Proofs.Frame.Pairs
import RecordRules.Proofs.RegisteredEngines

/-!
Stores whose rows go together. Where each row has its counterpart in the other store, under the same
key and with the same references, whatever else they hold, the same related records are found in
both. Main statement: a write that touches no reference field changes nothing about which records
are related.
-/
namespace RecordRules

open Step

theorem Alike.map_eq {α β γ : Type} {Q : α → β → Prop} {outcome : Except Failure α}
    {other : Except Failure β} {f : α → γ} {g : β → γ} (alike : Alike Q outcome other)
    (same : ∀ x y, Q x y → f x = g y) : outcome.map f = other.map g := by
  cases alike with
  | ok related => exact congrArg Except.ok (same _ _ related)
  | error failure => rfl

namespace Keyed

variable {κ α : Type}

theorem forall₂_put [BEq κ] {Q : κ × α → κ × α → Prop} (same : ∀ entry, Q entry entry)
    {members : Keyed κ α} {name : κ} {old member : α} (found : members.find? name = some old)
    (replaced : ∀ key, (key == name) = true → Q (key, old) (key, member)) :
    List.Forall₂ Q members (members.put name member) := by
  induction members with
  | nil => cases found
  | cons entry rest ih =>
    obtain ⟨key, here⟩ := entry
    rw [find?_cons] at found
    rw [put]
    split
    · rename_i here
      rw [if_pos here] at found
      obtain rfl := Option.some.inj found
      exact .cons (replaced key here) (List.forall₂_same.mpr fun other _ => same other)
    · rename_i other
      rw [if_neg other] at found
      exact .cons (same _) (ih found)

end Keyed

namespace Store

/-- Records that go together are under the same key and refer to the same records, and so do those
that two stores hold. -/
structure Parallel (c : Catalog) (Q : Record → Record → Prop) (s t : Store) : Prop where
  key : ∀ r q, Q r q → r.key = q.key
  refers : ∀ r q, Q r q → ∀ schema, c.get? r.schema = some schema → ∀ f ∈ schema.referFields,
    r.data.get f.name = q.data.get f.name
  peek : ∀ schema id, Option.Rel Q (s.peek? schema id) (t.peek? schema id)
  records : ∀ schema, List.Forall₂ Q (s.recordsOf schema) (t.recordsOf schema)

namespace Parallel

variable {c : Catalog} {Q : Record → Record → Prop} {s t : Store} (parallel : Parallel c Q s t)

include parallel

theorem distinctRecords {records others : List Record} (beside : List.Forall₂ Q records others) :
    List.Forall₂ Q (Store.distinctRecords records) (Store.distinctRecords others) := by
  refine List.rel_foldl (P := List.Forall₂ Q) (fun seen seen' before r q related => ?_) .nil beside
  rw [Traversal.any_key_congr parallel.key before, parallel.key r q related]
  split
  · exact before
  · exact List.rel_append before (.cons related .nil)

section

variable {r q : Record} (beside : Q r q)

include beside

theorem parentAlong_alike {schema : Schema} (known : c.get? r.schema = some schema) {f : Field}
    (declared : f ∈ schema.referFields) :
    Alike (Option.Rel Q) (s.parentAlong r f) (t.parentAlong q f) := by
  have held : r.get f.name = q.get f.name := by
    rw [Record.get, Record.get, parallel.refers r q beside schema known f declared,
      (Prod.mk.inj (parallel.key r q beside)).2]
  rw [Store.parentAlong, Store.parentAlong, ← held]
  dsimp only
  split
  · exact .ok .none
  · refine (Alike.refl _).bind fun schema _ same => ?_
    subst same
    split
    · exact .error _
    · cases (r.get f.name).key? with
      | none => exact .ok .none
      | some id => exact .ok (parallel.peek schema id)

theorem parents_alike {schema : Schema} (known : c.get? r.schema = some schema) (only : Value) :
    Alike (List.Forall₂ Q) (s.parents schema r only) (t.parents schema q only) := by
  refine (Alike.mapM fun f listed => ?_).bind fun _ _ found =>
    .ok (parallel.distinctRecords (List.rel_filterMap (fun _ _ related => related) found))
  exact parallel.parentAlong_alike beside known (List.mem_filter.mp listed).1

theorem referring_beside {child : Key} {schema : Schema} (known : c.get? child = some schema)
    {f : Field} (declared : f ∈ schema.referFields) :
    List.Forall₂ Q (s.referring r child f) (t.referring q child f) := by
  have own : ∀ p ∈ s.recordsOf child, p.schema = child := by
    intro p inside
    obtain ⟨row, -, rfl⟩ := List.mem_map.mp inside
    rfl
  have rows : List.Forall₂ (fun p p' => p.schema = child ∧ Q p p') (s.recordsOf child)
      (t.recordsOf child) := (List.forall₂_and_left _ _).mpr ⟨own, parallel.records child⟩
  refine (List.rel_filter ?_ rows).imp fun _ _ => And.right
  rintro p p' ⟨rfl, related⟩
  change (p.data.get f.name).names r.id = true ↔ (p'.data.get f.name).names q.id = true
  rw [parallel.refers p p' related schema known f declared,
    (Prod.mk.inj (parallel.key r q beside)).2]

variable (registered : c.Registered)

include registered

theorem children_beside (only : Value) :
    List.Forall₂ Q (s.children c r only) (t.children c q only) := by
  have each {edges : List (Key × Field)} (declared : ∀ edge ∈ edges, ∃ schema,
      c.get? edge.1 = some schema ∧ edge.2 ∈ schema.referFields) :
      List.Forall₂ Q (edges.flatMap fun edge => s.referring r edge.1 edge.2)
        (edges.flatMap fun edge => t.referring q edge.1 edge.2) := by
    induction edges with
    | nil => exact .nil
    | cons edge rest ih =>
      rw [List.forall_mem_cons] at declared
      obtain ⟨schema, known, field⟩ := declared.1
      exact List.rel_append (parallel.referring_beside beside known field) (ih declared.2)
  rw [Store.children, Store.children, (Prod.mk.inj (parallel.key r q beside)).1]
  refine each fun edge listed => ?_
  obtain ⟨recorded, inside, rfl⟩ := List.mem_map.mp (List.mem_filter.mp listed).1
  obtain ⟨-, schema, among, declared⟩ :=
    registered.linked.edges recorded (List.mem_filter.mp inside).1
  exact ⟨schema, registered.get?_of_mem among BEq.rfl, declared⟩

theorem relatedTo_alike (which : Scope) (only : Value) :
    Alike (List.Forall₂ Q) (s.relatedTo c r which only) (t.relatedTo c q which only) := by
  obtain ⟨schemas, ids⟩ := Prod.mk.inj (parallel.key r q beside)
  cases which with
  | self =>
    rw [Store.relatedTo, Store.relatedTo, ← schemas, ← ids]
    refine .ok ?_
    have found := parallel.peek r.schema r.id
    revert found
    generalize s.peek? r.schema r.id = here, t.peek? r.schema r.id = there
    rintro (related | _)
    · exact .cons related .nil
    · exact .nil
  | parent =>
    rw [Store.relatedTo, Store.relatedTo, ← schemas]
    cases known : c.require r.schema with
    | error failure => exact .error failure
    | ok schema => exact parallel.parents_alike beside (Catalog.get?_of_require known) only
  | child => exact .ok (parallel.children_beside beside registered only)

end

end Parallel

end Store

structure Record.SameLinks (c : Catalog) (r q : Record) : Prop where
  key : r.key = q.key
  refers : ∀ schema, c.get? r.schema = some schema → ∀ f ∈ schema.referFields,
    r.data.get f.name = q.data.get f.name

theorem Record.SameLinks.trans {c : Catalog} {r q p : Record} (first : r.SameLinks c q)
    (later : q.SameLinks c p) : r.SameLinks c p where
  key := first.key.trans later.key
  refers known found f declared := by
    rw [first.refers known found f declared]
    exact later.refers known ((Prod.mk.inj first.key).1 ▸ found) f declared

namespace Store

theorem table_putRow (s : Store) (schema id other : Key) (data : Entries) :
    (s.putRow schema id data).table other =
      if schema == other then (s.table other).put id data else s.table other := by
  rw [table, putRow]
  dsimp only
  rw [Keyed.find?_put]
  split
  · rename_i same
    rw [Option.getD_some, table, table, Keyed.find?_congr same]
  · rfl

def SameLinks (c : Catalog) (s t : Store) : Prop :=
  ∀ schema, List.Forall₂ (Record.SameLinks c) (s.recordsOf schema) (t.recordsOf schema)

namespace SameLinks

variable {c : Catalog} {s t u : Store}

theorem refl (c : Catalog) (s : Store) : s.SameLinks c s :=
  fun _ => List.forall₂_same.mpr fun _ _ => ⟨rfl, fun _ _ _ _ => rfl⟩

theorem trans (first : s.SameLinks c t) (later : t.SameLinks c u) : s.SameLinks c u := by
  have each {records others more : List Record}
      (before : List.Forall₂ (Record.SameLinks c) records others)
      (after : List.Forall₂ (Record.SameLinks c) others more) :
      List.Forall₂ (Record.SameLinks c) records more := by
    induction before generalizing more with
    | nil => exact after
    | cons here _ ih =>
      cases after with
      | cons next rest => exact .cons (here.trans next) (ih rest)
  exact fun schema => each (first schema) (later schema)

theorem of_sameRows (links : s.SameLinks c t) (same : SameRows t u) : s.SameLinks c u := by
  intro schema
  rw [show u.recordsOf schema = t.recordsOf schema by
    rw [recordsOf, recordsOf, table, table, show u.tables = t.tables from same]]
  exact links schema

theorem peek (links : s.SameLinks c t) (schema id : Key) :
    Option.Rel (Record.SameLinks c) (s.peek? schema id) (t.peek? schema id) := by
  have rows := links schema
  rw [recordsOf, recordsOf, List.forall₂_map_left_iff, List.forall₂_map_right_iff] at rows
  rw [peek?, peek?, row?, row?]
  generalize s.table schema = table, t.table schema = table' at rows
  induction rows with
  | nil => exact .none
  | @cons row row' rest rest' here _ ih =>
    obtain ⟨key, data⟩ := row
    obtain ⟨key', data'⟩ := row'
    obtain rfl : key = key' := (Prod.mk.inj here.key).2
    rw [Keyed.find?_cons, Keyed.find?_cons]
    split
    · exact .some ⟨rfl, here.refers⟩
    · exact ih

theorem isSome_row? (links : s.SameLinks c t) (schema id : Key) :
    (s.row? schema id).isSome = (t.row? schema id).isSome := by
  have beside := links.peek schema id
  rw [peek?, peek?] at beside
  generalize s.row? schema id = row, t.row? schema id = row' at beside
  cases row <;> cases row' <;> first | rfl | cases beside

theorem parallel (links : s.SameLinks c t) : Parallel c (Record.SameLinks c) s t where
  key _ _ := Record.SameLinks.key
  refers _ _ := Record.SameLinks.refers
  peek := links.peek
  records := links

theorem putRow (links : s.SameLinks c t) {schema id : Key} {data changes : Entries}
    (stored : t.row? schema id = some data)
    (spared : ∀ known, c.get? schema = some known → ∀ f ∈ known.referFields,
      f.name ∉ changes.names) :
    s.SameLinks c (t.putRow schema id (data.merge changes)) := by
  refine links.trans fun other => ?_
  rw [recordsOf, recordsOf, List.forall₂_map_left_iff, List.forall₂_map_right_iff, table_putRow]
  split
  · rename_i same
    have found : (t.table other).find? id = some data := by
      rw [table, ← Keyed.find?_congr same]
      exact stored
    refine Keyed.forall₂_put (fun _ => ⟨rfl, fun _ _ _ _ => rfl⟩) found fun key _ => ⟨rfl, ?_⟩
    intro known present f declared
    rw [Catalog.get?, ← Keyed.find?_congr same] at present
    have kept : Keyed.find? changes.reverse f.name = none := by
      rw [← Option.not_isSome_iff_eq_none, Keyed.isSome_find?_reverse, List.contains_iff_mem]
      exact spared known present f declared
    rw [Entries.get, Entries.get, Keyed.find?_merge, kept, Option.none_or]
  · exact List.forall₂_same.mpr fun _ _ => ⟨rfl, fun _ _ _ _ => rfl⟩

theorem relatedTo_keys (links : s.SameLinks c t) (registered : c.Registered) (r : Record)
    (scope : Scope) (only : Value) :
    (s.relatedTo c r scope only).map (List.map Record.key) =
      (t.relatedTo c r scope only).map (List.map Record.key) := by
  have alike := links.parallel.relatedTo_alike (r := r) ⟨rfl, fun _ _ _ _ => rfl⟩ registered scope
    only
  refine alike.map_eq fun records others beside => List.forall₂_eq_eq_eq ▸ ?_
  rw [List.forall₂_map_left_iff, List.forall₂_map_right_iff]
  exact beside.imp fun _ _ => Record.SameLinks.key

end SameLinks

end Store

end RecordRules
