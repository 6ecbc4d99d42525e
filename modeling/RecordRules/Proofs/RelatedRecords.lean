import RecordRules.Proofs.CreatedReferences
import RecordRules.Proofs.FailedRegistrations
import RecordRules.Proofs.ReachedRows

/-!
Related records: how often each stored record is among those that a look-up finds. Upwards a record
is found once, if any field that counts mentions it; downwards it is found once for every field
that does. A record that mentions another one in two fields is so found twice from there, against
what is said of look-ups.
-/
namespace RecordRules

open Step

namespace Keyed

variable {κ α : Type} [BEq κ] {members : Keyed κ α}

def Apart (members : Keyed κ α) : Prop :=
  members.Pairwise fun member other => (member.1 == other.1) = false

instance : Decidable members.Apart := inferInstanceAs (Decidable (List.Pairwise _ members))

theorem Apart.put [EquivBEq κ] (apart : members.Apart) (name : κ) (member : α) :
    (members.put name member).Apart := by
  induction members with
  | nil => exact List.pairwise_singleton _ _
  | cons head rest ih =>
    obtain ⟨key, old⟩ := head
    obtain ⟨first, others⟩ := List.pairwise_cons.mp apart
    rw [Keyed.put]
    split
    · exact List.pairwise_cons.mpr ⟨first, others⟩
    · rename_i different
      refine List.pairwise_cons.mpr ⟨fun entry listed => ?_, ih others⟩
      rcases mem_put listed with before | ⟨other, same, rfl⟩
      · exact first entry before
      · rw [← Bool.not_eq_true]
        intro equal
        exact different (PartialEquivBEq.trans equal same)

theorem Apart.erase (apart : members.Apart) (name : κ) : (members.erase name).Apart :=
  apart.sublist List.filter_sublist

theorem Apart.find?_of_mem [EquivBEq κ] (apart : members.Apart) {key name : κ} {member : α}
    (listed : (key, member) ∈ members) (same : (key == name) = true) :
    members.find? name = some member := by
  induction members with
  | nil => cases listed
  | cons head rest ih =>
    obtain ⟨first, others⟩ := List.pairwise_cons.mp apart
    rw [find?_cons]
    rcases List.mem_cons.mp listed with rfl | later
    · rw [if_pos same]
    · rw [if_neg, ih others later]
      intro equal
      have unlike := first _ later
      rw [PartialEquivBEq.trans equal (BEq.symm same)] at unlike
      cases unlike

theorem Apart.countP_eq [EquivBEq κ] (apart : members.Apart) {name : κ} {member : α}
    (found : members.find? name = some member) (p : α → Bool) :
    members.countP (fun entry => entry.1 == name && p entry.2) = if p member then 1 else 0 := by
  induction members with
  | nil => cases found
  | cons head rest ih =>
    obtain ⟨key, old⟩ := head
    obtain ⟨first, others⟩ := List.pairwise_cons.mp apart
    rw [find?_cons] at found
    rw [List.countP_cons]
    by_cases same : (key == name) = true
    · rw [if_pos same] at found
      obtain rfl := Option.some.inj found
      have none : rest.countP (fun entry => entry.1 == name && p entry.2) = 0 := by
        rw [List.countP_eq_zero]
        intro entry later both
        have unlike := first entry later
        rw [PartialEquivBEq.trans same (BEq.symm (Bool.and_eq_true_iff.mp both).1)] at unlike
        cases unlike
      rw [none, Nat.zero_add, same, Bool.true_and]
    · rw [if_neg same] at found
      rw [ih others found]
      simp [same]

end Keyed

section

variable {α β : Type} {p : β → Bool}

theorem countP_flatMap_of_each {xs : List α} {find : α → List β} {hits : α → Bool}
    (each : ∀ x ∈ xs, (find x).countP p = if hits x then 1 else 0) :
    (xs.flatMap find).countP p = xs.countP hits := by
  induction xs with
  | nil => rfl
  | cons x rest ih =>
    rw [List.forall_mem_cons] at each
    rw [List.flatMap_cons, List.countP_append, each.1, ih each.2, List.countP_cons, Nat.add_comm]

theorem countP_filterMap_of_mapM {xs : List α} {look : α → Except Failure (Option β)}
    {answers : List (Option β)} {hits : α → Bool} (looked : xs.mapM look = .ok answers)
    (each : ∀ x ∈ xs, ∀ answer, look x = .ok answer → answer.any p = hits x) :
    (answers.filterMap id).countP p = xs.countP hits := by
  induction xs generalizing answers with
  | nil =>
    obtain rfl := Except.ok.inj looked
    rfl
  | cons x rest ih =>
    rw [List.mapM_cons] at looked
    obtain ⟨answer, first, looked⟩ := bind_eq_ok.mp looked
    obtain ⟨others, later, looked⟩ := bind_eq_ok.mp looked
    obtain rfl := Except.ok.inj looked
    rw [List.forall_mem_cons] at each
    have here := each.1 answer first
    have rest := ih later each.2
    cases answer with
    | none => rw [List.filterMap_cons, id, rest, List.countP_cons, ← here]; rfl
    | some y => rw [List.filterMap_cons, id, List.countP_cons, rest, List.countP_cons, ← here]; rfl

end

namespace Store

def TablesApart (tables : Keyed Key Table) : Prop :=
  ∀ schema rows, (schema, rows) ∈ tables → rows.Apart

/-- Each id is given once in a table, also in those that are saved for the open scope. -/
structure Tidy (s : Store) : Prop where
  rows : TablesApart s.tables
  saved : ∀ scope, s.scope = some scope → TablesApart scope.saved

variable {s : Store}

theorem tidy_empty : Tidy {} where
  rows _ _ inside := by cases inside
  saved _ opened := by cases opened

theorem Tidy.table (tidy : s.Tidy) (schema : Key) : (s.table schema).Apart := by
  unfold Store.table
  cases found : s.tables.find? schema with
  | none => exact .nil
  | some rows =>
    obtain ⟨key, -, listed⟩ := Keyed.mem_of_find? found
    exact tidy.rows key rows listed

theorem Tidy.put (tidy : s.Tidy) (schema : Key) {rows : Table} (apart : rows.Apart) :
    Tidy { s with tables := s.tables.put schema rows } where
  saved := tidy.saved
  rows key others listed := by
    rcases Keyed.mem_put listed with before | ⟨other, -, entry⟩
    · exact tidy.rows key others before
    · rwa [(Prod.mk.inj entry).2]

instance : Frame (Stays Tidy) where
  note _ _ _ tidy := ⟨tidy.rows, tidy.saved⟩
  invocation _ _ tidy := ⟨tidy.rows, tidy.saved⟩
  issue _ tidy := ⟨tidy.rows, tidy.saved⟩
  put _ schema id data tidy := tidy.put schema ((tidy.table schema).put id data)
  remove _ schema id tidy := tidy.put schema ((tidy.table schema).erase id)
  inside s t failed within tidy := by
    obtain ⟨rows, saved⟩ := enter_keeps tidy.rows tidy.saved
    have after := within ⟨rows, saved⟩
    obtain ⟨rows, saved⟩ := leave_keeps after.rows after.saved failed
    exact ⟨rows, saved⟩

end Store

theorem Engine.performAll_tidy (e : Engine) (calls : List HostCall) {s : Store} (tidy : s.Tidy) :
    (e.performAll calls s).Tidy := by
  induction calls generalizing s with
  | nil => exact tidy
  | cons call rest ih => exact ih (e.perform_moves (R := Stays Store.Tidy) call s tidy)

namespace Value

theorem names_of_no_key {v : Value} (none : v.key? = none) (key : Key) : v.names key = false := by
  rw [← Bool.not_eq_true]
  intro named
  obtain ⟨other, given, -⟩ := key_of_same named
  rw [given, key?_toValue] at none
  cases none

theorem names_congr {v : Value} {key other : Key} (same : (key == other) = true) :
    v.names key = v.names other := by
  rw [Bool.eq_iff_iff]
  constructor
  · exact fun named => names_of_beq named same
  · exact fun named => names_of_beq named (BEq.symm same)

theorem isTrue_of_names {v : Value} {key : Key} (named : v.names key = true) :
    v.isTrue = key.toValue.isTrue := by
  obtain ⟨other, rfl, same⟩ := key_of_same named
  rw [Bool.eq_iff_iff]
  exact ⟨Key.isTrue_of_same same, Key.isTrue_of_same (BEq.symm same)⟩

end Value

def Catalog.referFieldsOf (c : Catalog) (r : Record) : List Field :=
  ((c.get? r.schema).map Schema.referFields).getD []

/-- All references between schemas name a key, so that no schema was given up while it was
linked. -/
def Catalog.Linkable (c : Catalog) : Prop :=
  ∀ key s, (key, s) ∈ c.schemas → ∀ f ∈ s.referFields, ∃ parent, Key.ofValue f.refer = .ok parent

def Field.mentions (f : Field) (held : Value) (p : Record) : Bool :=
  f.refersTo p.schema.toValue && held.names p.id

theorem Field.isTrue_and_mentions (f : Field) (held : Value) (p : Record) :
    (held.isTrue && f.mentions held p) = (p.id.toValue.isTrue && f.mentions held p) := by
  unfold mentions
  cases named : held.names p.id with
  | false => simp
  | true => rw [Value.isTrue_of_names named]

namespace Catalog

variable {c : Catalog}

/-- In how many fields a record mentions another one, given what it holds in each. -/
def mentions (c : Catalog) (r : Record) (held : String → Value) (p : Record) : Nat :=
  (c.referFieldsOf r).countP fun f => f.mentions (held f.name) p

theorem Linkable.register (linkable : c.Linkable) {s : Schema}
    (added : (exec (Catalog.register s) c).1 = .ok ()) :
    (exec (Catalog.register s) c).2.Linkable := by
  by_cases received : ∃ key, c.Receives s key
  · obtain ⟨key, receives⟩ := received
    intro other t listed f refer
    rw [receives.schemas] at listed
    rcases List.mem_append.mp listed with old | new
    · exact linkable other t old f refer
    · obtain ⟨rfl, rfl⟩ := Prod.mk.inj (List.mem_singleton.mp new)
      cases named : f.refer.key? with
      | some parent => exact ⟨parent, by rw [Key.ofValue, named]⟩
      | none =>
        obtain ⟨failure, failed⟩ :=
          (addEdges_fails_iff other t.referFields _).mpr ⟨f, refer, named⟩
        rw [receives.register, failed] at added
        cases added
  · obtain ⟨failure, kept⟩ := register_of_not_receives (not_exists.mp received)
    rwa [kept]

theorem Linked.refersTo (linked : c.Linked) {edge : Edge} (listed : edge ∈ c.edges)
    (schema : Key) : edge.field.refersTo schema.toValue = (edge.parent == schema) := by
  obtain ⟨called, s, -, declared⟩ := linked.edges edge listed
  exact Field.refersTo_eq (List.mem_filter.mp declared).2 called schema

theorem Registered.mentions_eq (registered : c.Registered) {r : Record}
    (linked : ∀ f ∈ c.referFieldsOf r, ∃ parent, Key.ofValue f.refer = .ok parent)
    (held : String → Value) (p : Record) :
    c.mentions r held p = c.edges.countP fun edge =>
      edge.child == r.schema && edge.field.mentions (held edge.field.name) p := by
  unfold mentions referFieldsOf
  unfold referFieldsOf at linked
  cases known : c.get? r.schema with
  | none =>
    rw [Option.map_none, Option.getD_none, List.countP_nil, eq_comm, List.countP_eq_zero]
    intro edge listed both
    obtain ⟨-, s, among, -⟩ := registered.linked.edges edge listed
    have found := registered.get?_of_mem among (Bool.and_eq_true_iff.mp both).1
    rw [known] at found
    cases found
  | some s =>
    obtain ⟨key, same, among⟩ := Keyed.mem_of_find? known
    rw [known] at linked
    rw [Option.map_some, Option.getD_some, ← registered.linked.complete key s among linked,
      List.countP_map, List.countP_filter]
    apply List.countP_congr
    intro edge _
    rw [Function.comp_apply, BEq.congr_right same, Bool.and_comm]

theorem mem_referFieldsOf {r : Record} {f : Field} :
    f ∈ c.referFieldsOf r ↔ ∃ s, c.get? r.schema = some s ∧ f ∈ s.referFields := by
  unfold referFieldsOf
  cases c.get? r.schema with
  | none => simp
  | some s => simp

theorem Linkable.named (linkable : c.Linkable) {r : Record} {f : Field}
    (listed : f ∈ c.referFieldsOf r) : ∃ parent, Key.ofValue f.refer = .ok parent := by
  obtain ⟨s, known, declared⟩ := mem_referFieldsOf.mp listed
  obtain ⟨key, -, registered⟩ := Keyed.mem_of_find? known
  exact linkable key s registered f declared

end Catalog

namespace Store

variable {s : Store} {c : Catalog} {r p q : Record} {only : Value}

theorem Has.data_eq (stored : s.Has r) (also : s.Has q) (same : (r.key == q.key) = true) :
    r.data = q.data := by
  have row := row?_congr s same
  rw [show s.row? r.schema r.id = _ from stored, show s.row? q.schema q.id = _ from also] at row
  exact Option.some.inj row

def timesIn (found : List Record) (r : Record) : Nat := found.countP fun q => q.key == r.key

/-- Only stored records are found, and each one so many times. -/
structure Finds (s : Store) (found : List Record) (times : Record → Nat) : Prop where
  stored : ∀ q ∈ found, s.Has q
  times : ∀ q, s.Has q → timesIn found q = times q

theorem any_peek? (stored : s.Has p) (schema id : Key) :
    (s.peek? schema id).any (fun q => q.key == p.key) = ((schema, id) == p.key) := by
  rw [peek?, Option.any_map]
  by_cases same : ((schema, id) == p.key) = true
  · rw [row?_congr s same, show s.row? p.schema p.id = _ from stored]
    rfl
  · rw [Bool.not_eq_true] at same
    cases s.row? schema id with
    | none => exact same.symm
    | some data => rfl

theorem any_parentAlong {f : Field} (target : f.target?.isSome = true) (stored : s.Has p)
    {answer : Option Record} (looked : s.parentAlong r f = .ok answer) :
    answer.any (fun q => q.key == p.key) =
      (p.id.toValue.isTrue && f.mentions (r.get f.name) p) := by
  rw [← Field.isTrue_and_mentions]
  rw [parentAlong] at looked
  split at looked
  · rename_i empty
    rw [Bool.not_eq_true'] at empty
    obtain rfl := Except.ok.inj looked
    rw [empty, Bool.false_and]
    rfl
  · rename_i whole
    rw [Bool.not_eq_true', Bool.not_eq_false] at whole
    obtain ⟨schema, called, looked⟩ := bind_eq_ok.mp looked
    split at looked
    · cases looked
    · obtain rfl := Except.ok.inj looked
      rw [whole, Bool.true_and, Field.mentions, Field.refersTo_eq target called]
      cases held : (r.get f.name).key? with
      | none =>
        rw [Value.names_of_no_key held, Bool.and_false]
        rfl
      | some id =>
        have names : (r.get f.name).names p.id = (id == p.id) :=
          Value.names_of_key (by rw [Key.ofValue, held]) p.id
        rw [names]
        exact any_peek? stored schema id

/-- Of records with the same key, the first one is kept. -/
theorem timesIn_distinctRecords (records : List Record) (p : Record) :
    timesIn (distinctRecords records) p = min 1 (timesIn records p) := by
  suffices h : ∀ seen : List Record,
      timesIn (records.foldl (fun seen r => if seen.any fun q => q.key == r.key then seen
        else seen ++ [r]) seen) p =
          if seen.any (fun q => q.key == p.key) then timesIn seen p
          else min 1 (timesIn records p) from
    h []
  unfold timesIn
  induction records with
  | nil =>
    intro seen
    rw [List.foldl_nil, List.countP_nil]
    split
    · rfl
    · rename_i unseen
      rw [List.countP_eq_zero.mpr]
      · rfl
      · simpa using unseen
  | cons first rest ih =>
    intro seen
    rw [List.foldl_cons, ih]
    by_cases known : seen.any (fun q => q.key == first.key) = true
    · rw [if_pos known]
      split
      · rfl
      · rename_i unseen
        rw [List.countP_cons, if_neg, Nat.add_zero]
        intro same
        rw [List.any_eq_true] at known unseen
        obtain ⟨q, listed, equal⟩ := known
        exact unseen ⟨q, listed, PartialEquivBEq.trans equal same⟩
    · rw [if_neg known, List.any_append, List.countP_append, List.any_cons, List.any_nil,
        Bool.or_false, List.countP_singleton, List.countP_cons]
      by_cases same : (first.key == p.key) = true
      · have unseen : seen.any (fun q => q.key == p.key) = false := by
          rw [← Bool.not_eq_true]
          intro seen
          rw [List.any_eq_true] at known seen
          obtain ⟨q, listed, equal⟩ := seen
          exact known ⟨q, listed, PartialEquivBEq.trans equal (BEq.symm same)⟩
        have none : seen.countP (fun q => q.key == p.key) = 0 := by
          rw [List.countP_eq_zero]
          simpa using unseen
        simp [unseen, same, none]
      · simp only [same, Bool.or_false, Bool.false_eq_true, ↓reduceIte, Nat.add_zero]

theorem countsFor_congr {schema other : Key} (same : (schema == other) = true) :
    countsFor only schema.toValue = countsFor only other.toValue := by
  have names : only.same schema.toValue = only.same other.toValue := Value.names_congr same
  rw [countsFor, countsFor, names]

theorem countsFor_of_mentions {f : Field} {held : Value} (mentions : f.mentions held p = true) :
    countsFor only f.refer = countsFor only p.schema.toValue := by
  have refers := (Bool.and_eq_true_iff.mp mentions).1
  rw [Field.refersTo, Field.target?_eq_some refers, Option.any_some] at refers
  obtain ⟨schema, given, same⟩ := Value.key_of_same refers
  rw [given, countsFor_congr same]

theorem relatedTo_parent_eq_ok {found : List Record} :
    s.relatedTo c r .parent only = .ok found ↔ ∃ schema answers, c.get? r.schema = some schema ∧
      (schema.referFields.filter fun f => countsFor only f.refer).mapM (s.parentAlong r) =
        .ok answers ∧ distinctRecords (answers.filterMap id) = found := by
  rw [relatedTo, bind_eq_ok]
  constructor
  · rintro ⟨schema, required, looked⟩
    obtain ⟨answers, ran, given⟩ := bind_eq_ok.mp looked
    exact ⟨schema, answers, Catalog.get?_of_require required, ran, Except.ok.inj given⟩
  · rintro ⟨schema, answers, known, ran, rfl⟩
    exact ⟨schema, by rw [Catalog.require, known], bind_eq_ok.mpr ⟨answers, ran, rfl⟩⟩

theorem has_of_parent {found : List Record} (looked : s.relatedTo c r .parent only = .ok found)
    (listed : q ∈ found) : s.Has q := by
  obtain ⟨schema, answers, -, ran, rfl⟩ := relatedTo_parent_eq_ok.mp looked
  obtain ⟨answer, inside, present⟩ := List.mem_filterMap.mp (mem_of_mem_distinctRecords listed)
  obtain rfl : answer = some q := present
  obtain ⟨f, -, along⟩ := exists_of_mem_mapM ran inside
  rw [parentAlong] at along
  split at along
  · cases along
  · obtain ⟨key, -, along⟩ := bind_eq_ok.mp along
    split at along
    · cases along
    · obtain ⟨id, -, peeked⟩ := Option.bind_eq_some_iff.mp (Except.ok.inj along)
      exact has_of_peek? peeked

theorem timesIn_parent {found : List Record} (looked : s.relatedTo c r .parent only = .ok found)
    (stored : s.Has p) :
    timesIn found p =
      if countsFor only p.schema.toValue && p.id.toValue.isTrue then min 1 (c.mentions r r.get p)
      else 0 := by
  obtain ⟨schema, answers, known, ran, rfl⟩ := relatedTo_parent_eq_ok.mp looked
  have along : timesIn (answers.filterMap id) p =
      (schema.referFields.filter fun f => countsFor only f.refer).countP
        fun f => p.id.toValue.isTrue && f.mentions (r.get f.name) p := by
    apply countP_filterMap_of_mapM ran
    intro f listed answer looked
    have target := (List.mem_filter.mp (List.mem_filter.mp listed).1).2
    exact any_parentAlong target stored looked
  have each : ∀ f ∈ schema.referFields,
      (((p.id.toValue.isTrue && f.mentions (r.get f.name) p) && countsFor only f.refer) = true ↔
        ((countsFor only p.schema.toValue && p.id.toValue.isTrue) &&
          f.mentions (r.get f.name) p) = true) := by
    intro f _
    cases mentions : f.mentions (r.get f.name) p with
    | false => simp
    | true =>
      rw [countsFor_of_mentions mentions, Bool.and_true, Bool.and_true, Bool.and_comm]
  rw [timesIn_distinctRecords, along, List.countP_filter, List.countP_congr each, Catalog.mentions,
    Catalog.referFieldsOf, known]
  cases countsFor only p.schema.toValue && p.id.toValue.isTrue with
  | false => simp
  | true => simp

theorem finds_parent {found : List Record} (looked : s.relatedTo c r .parent only = .ok found) :
    s.Finds found fun p =>
      if countsFor only p.schema.toValue && p.id.toValue.isTrue then min 1 (c.mentions r r.get p)
      else 0 where
  stored _ listed := has_of_parent looked listed
  times _ stored := timesIn_parent looked stored

theorem relatedTo_parent_isOk_iff :
    (∃ found, s.relatedTo c r .parent only = .ok found) ↔ c.has r.schema = true ∧
      ∀ f ∈ c.referFieldsOf r, countsFor only f.refer = true → (r.get f.name).isTrue = true →
        (∃ key, Key.ofValue f.refer = .ok key) ∧ (r.get f.name).isKey = true := by
  constructor
  · rintro ⟨found, looked⟩
    obtain ⟨schema, answers, known, ran, -⟩ := relatedTo_parent_eq_ok.mp looked
    refine ⟨Option.isSome_iff_exists.mpr ⟨schema, known⟩, ?_⟩
    intro f listed counts whole
    rw [Catalog.referFieldsOf, known] at listed
    obtain ⟨answer, -, along⟩ := exists_mem_of_mapM ran (List.mem_filter.mpr ⟨listed, counts⟩)
    rw [parentAlong, whole] at along
    obtain ⟨key, called, along⟩ := bind_eq_ok.mp along
    split at along
    · cases along
    · rename_i hashable
      exact ⟨⟨key, called⟩, by simpa using hashable⟩
  · rintro ⟨has, usable⟩
    obtain ⟨schema, known⟩ := Option.isSome_iff_exists.mp has
    rw [Catalog.referFieldsOf, known] at usable
    have each : ∀ f ∈ schema.referFields.filter fun f => countsFor only f.refer,
        ∃ answer, s.parentAlong r f = .ok answer := by
      intro f listed
      obtain ⟨listed, counts⟩ := List.mem_filter.mp listed
      rw [parentAlong]
      cases whole : (r.get f.name).isTrue with
      | false => exact ⟨none, rfl⟩
      | true =>
        obtain ⟨⟨key, called⟩, hashable⟩ := usable f listed counts whole
        rw [called, hashable]
        exact ⟨_, rfl⟩
    obtain ⟨answers, ran⟩ := exists_mapM_eq_ok each
    exact ⟨_, relatedTo_parent_eq_ok.mpr ⟨schema, answers, known, ran, rfl⟩⟩

theorem has_of_child (tidy : s.Tidy) (listed : q ∈ s.children c r only) : s.Has q := by
  obtain ⟨edge, -, -, -, inside⟩ := mem_children.mp listed
  obtain ⟨⟨id, data, row, rfl⟩, -⟩ := mem_referring.mp inside
  exact (tidy.table edge.child).find?_of_mem row BEq.rfl

theorem timesIn_referring (tidy : s.Tidy) (stored : s.Has q) (schema : Key) (f : Field) :
    timesIn (s.referring r schema f) q =
      if (schema == q.schema) && (q.data.get f.name).names r.id then 1 else 0 := by
  rw [timesIn, referring, List.countP_filter, recordsOf, List.countP_map]
  by_cases same : (schema == q.schema) = true
  · have key : ((schema, q.id) == (q.schema, q.id)) = true :=
      Bool.and_eq_true_iff.mpr ⟨same, BEq.rfl⟩
    have found : (s.table schema).find? q.id = some q.data := (row?_congr s key).trans stored
    rw [same, Bool.true_and, ← (tidy.table schema).countP_eq found
      fun data => (data.get f.name).names r.id]
    apply List.countP_congr
    intro row _
    change (((schema == q.schema) && (row.1 == q.id)) && _) = true ↔ _
    rw [same, Bool.true_and]
  · rw [Bool.not_eq_true] at same
    rw [same, Bool.false_and, if_neg Bool.false_ne_true, List.countP_eq_zero]
    intro row _
    change ¬ (((schema == q.schema) && (row.1 == q.id)) && _) = true
    rw [same]
    exact Bool.false_ne_true

theorem timesIn_child (registered : c.Registered) (tidy : s.Tidy) (stored : s.Has q)
    (linked : ∀ f ∈ c.referFieldsOf q, ∃ parent, Key.ofValue f.refer = .ok parent) :
    timesIn (s.children c r only) q =
      if countsFor only q.schema.toValue then c.mentions q q.data.get r else 0 := by
  have along : timesIn (s.children c r only) q =
      ((c.childrenOf r.schema).filter fun pair => countsFor only pair.1.toValue).countP
        fun pair => (pair.1 == q.schema) && (q.data.get pair.2.name).names r.id :=
    countP_flatMap_of_each fun pair _ => timesIn_referring tidy stored pair.1 pair.2
  have each : ∀ edge ∈ c.edges,
      (((edge.child == q.schema && (q.data.get edge.field.name).names r.id) &&
        countsFor only edge.child.toValue) && edge.parent == r.schema) =
          (countsFor only q.schema.toValue &&
            (edge.child == q.schema && edge.field.mentions (q.data.get edge.field.name) r)) := by
    intro edge listed
    rw [Field.mentions, registered.linked.refersTo listed]
    by_cases same : (edge.child == q.schema) = true
    · rw [countsFor_congr same]
      ac_rfl
    · rw [Bool.not_eq_true] at same
      simp [same]
  rw [along, List.countP_filter, Catalog.childrenOf, List.countP_map, List.countP_filter,
    registered.mentions_eq linked]
  cases counts : countsFor only q.schema.toValue with
  | false =>
    rw [if_neg Bool.false_ne_true, List.countP_eq_zero]
    intro edge listed
    have same := each edge listed
    rw [counts, Bool.false_and] at same
    exact ne_true_of_eq_false same
  | true =>
    rw [if_pos rfl]
    apply List.countP_congr
    intro edge listed
    have same := each edge listed
    rw [counts, Bool.true_and] at same
    exact iff_of_eq (congrArg (· = true) same)

theorem finds_child (registered : c.Registered) (linkable : c.Linkable) (tidy : s.Tidy) :
    s.Finds (s.children c r only) fun q =>
      if countsFor only q.schema.toValue then c.mentions q q.data.get r else 0 where
  stored _ listed := has_of_child tidy listed
  times _ stored := timesIn_child registered tidy stored fun _ listed => linkable.named listed

theorem exec_related (s : Store) (c : Catalog) (r : Record) (scope : Scope) (only : Value) :
    (exec (related c r scope only) s).1 = s.relatedTo c r scope only := rfl

/-- Whatever schemas were registered and whatever is stored: downwards a look-up always answers, and
a record of a schema that counts is found as often as it has fields that mention the one looked
from. Upwards a look-up answers where all that the fields hold can be an id, and a record of a
schema that counts is found once, if a field mentions it. -/
theorem related_times (registered : c.Registered) (linkable : c.Linkable) (tidy : s.Tidy)
    (r : Record) (only : Value) :
    (∃ found, (exec (related c r .child only) s).1 = .ok found ∧ s.Finds found fun q =>
      if countsFor only q.schema.toValue then c.mentions q q.data.get r else 0) ∧
    ((∃ found, (exec (related c r .parent only) s).1 = .ok found) ↔ c.has r.schema = true ∧
      ∀ f ∈ c.referFieldsOf r, countsFor only f.refer = true → (r.get f.name).isTrue = true →
        (r.get f.name).isKey = true) ∧
    ∀ found, (exec (related c r .parent only) s).1 = .ok found → s.Finds found fun p =>
      if countsFor only p.schema.toValue && p.id.toValue.isTrue then min 1 (c.mentions r r.get p)
      else 0 := by
  simp only [exec_related]
  refine ⟨?_, ?_, fun found looked => finds_parent looked⟩
  · exact ⟨s.children c r only, rfl, finds_child registered linkable tidy⟩
  · rw [relatedTo_parent_isOk_iff]
    refine and_congr_right fun _ => forall₂_congr fun f listed => ?_
    rw [and_iff_right (linkable.named listed)]

end Store

/-- Loans have a lender and a borrower, and may renew other ones. They are registered before the
persons that they refer to. -/
def loanSchema : Schema where
  name := .text "Loan"
  fields := [
    { name := "lender", kind := .known .reference, refer := .text "Person" },
    { name := "borrower", kind := .known .reference, refer := .text "Person" },
    { name := "renews", kind := .known .reference, refer := .text "Loan" }]

def personSchema : Schema := { name := .text "Person" }

def Catalog.loans : Catalog :=
  (exec (register personSchema) (exec (register loanSchema) {}).2).2

theorem Catalog.loans_registered : loans.Registered := by
  have checked : loanSchema.Checked ∧ personSchema.Checked := by
    constructor
    · refine ⟨rfl, ?_⟩
      intro f listed
      simp only [loanSchema, List.mem_cons, List.not_mem_nil, or_false] at listed
      rcases listed with rfl | rfl | rfl
      all_goals
        simp [Field.check, Field.isOf, GivenKind.isKind, Field.target?, Field.checkBounds,
          Value.isTrue, Value.isNull]
    · exact ⟨rfl, fun f listed => absurd listed List.not_mem_nil⟩
  exact .register (.register .empty checked.1) checked.2

theorem Catalog.loans_linkable : loans.Linkable := by
  have empty : ({} : Catalog).Linkable := fun _ _ listed => absurd listed List.not_mem_nil
  exact Linkable.register (Linkable.register empty rfl) rfl

namespace Store

/-- The second of two loans of a person is one to herself. -/
def loans : Store where
  tables := [
    (.text "Person", [(.text "ann", []), (.text "bob", [])]),
    (.text "Loan", [
      (.text "first", [("lender", .text "ann"), ("borrower", .text "bob")]),
      (.text "second", [("lender", .text "ann"), ("borrower", .text "ann"),
        ("renews", .text "first")])])]

theorem loans_tidy : loans.Tidy where
  rows schema rows listed := by
    rcases List.mem_pair.mp listed with same | same
    · rw [(Prod.mk.inj same).2]
      decide
    · rw [(Prod.mk.inj same).2]
      decide
  saved _ opened := by cases opened

theorem related_times_loans :
    let ann : Record := ⟨.text "Person", .text "ann", []⟩
    let second : Record := ⟨.text "Loan", .text "second",
      [("lender", .text "ann"), ("borrower", .text "ann"), ("renews", .text "first")]⟩
    (∃ found, (exec (related .loans ann .child (.text "Loan")) loans).1 = .ok found ∧
      timesIn found second = 2) ∧
    ∃ found, (exec (related .loans second .parent (.text "Person")) loans).1 = .ok found ∧
      timesIn found ann = 1 := by
  intro ann second
  have times := related_times Catalog.loans_registered Catalog.loans_linkable loans_tidy
  constructor
  · obtain ⟨found, looked, finds⟩ := (times ann (.text "Loan")).1
    exact ⟨found, looked, finds.times second rfl⟩
  · obtain ⟨-, answers, finds⟩ := times second (.text "Person")
    obtain ⟨found, looked⟩ := answers.mpr ⟨rfl, by decide⟩
    exact ⟨found, looked, (finds found looked).times ann rfl⟩

/-- Not every related record comes back once: the loans of a person are looked up, and one of the
two stands in the answer twice. -/
theorem second_loan_comes_back_twice : ∃ c s r found q, c.Registered ∧ c.Linkable ∧ s.Tidy ∧
    s.Has r ∧ s.Has q ∧ (exec (related c r .child) s).1 = .ok found ∧ found.length = 3 ∧
      timesIn found q = 2 :=
  ⟨.loans, loans, ⟨.text "Person", .text "ann", []⟩, _, ⟨.text "Loan", .text "second", _⟩,
    Catalog.loans_registered, Catalog.loans_linkable, loans_tidy, rfl, rfl, rfl, rfl, rfl⟩

end Store

end RecordRules
