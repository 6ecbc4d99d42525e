import RecordRules.Proofs.FrozenEngines
import RecordRules.Proofs.WrittenCatalogs

/-!
Relations between schemas. What refers to a schema is noted while schemas are registered, before the
schema itself or after it; what a schema refers to is read off its fields when it is asked for. Main
statement: after any calls, accepted or refused, both agree with the fields that are declared, and
so do their orders.
-/
namespace RecordRules

open Step

namespace Text

variable {α : Type} [BEq α]

theorem distinct_concat (xs : List α) (x : α) :
    distinct (xs ++ [x]) =
      if (distinct xs).contains x then distinct xs else distinct xs ++ [x] := by
  rw [distinct, List.foldl_append]
  rfl

theorem mem_distinct [LawfulBEq α] {xs : List α} {x : α} : x ∈ distinct xs ↔ x ∈ xs := by
  induction xs using List.reverseRecOn with
  | nil => exact Iff.rfl
  | append_singleton xs y ih =>
    rw [distinct_concat, List.mem_append, ← ih, List.mem_singleton]
    split
    · rename_i known
      rw [List.contains_iff_mem] at known
      exact (or_iff_left_of_imp fun same => same ▸ known).symm
    · rw [List.mem_append, List.mem_singleton]

theorem pairwise_distinct [LawfulBEq α] (xs : List α) :
    (distinct xs).Pairwise fun x y => xs.idxOf x < xs.idxOf y := by
  induction xs using List.reverseRecOn with
  | nil => exact .nil
  | append_singleton xs y ih =>
    have place {x : α} (inside : x ∈ distinct xs) : (xs ++ [y]).idxOf x = xs.idxOf x :=
      List.idxOf_append_of_mem (mem_distinct.mp inside)
    have before : (distinct xs).Pairwise fun x z => (xs ++ [y]).idxOf x < (xs ++ [y]).idxOf z :=
      ih.imp_of_mem fun hx hz less => by rwa [place hx, place hz]
    rw [distinct_concat]
    split
    · exact before
    · rename_i fresh
      rw [List.contains_iff_mem, mem_distinct] at fresh
      refine List.pairwise_append.mpr ⟨before, List.pairwise_singleton _ _, ?_⟩
      intro x inside z last
      rw [List.mem_singleton.mp last, place inside, List.idxOf_append_of_notMem fresh]
      exact Nat.lt_add_right _ (List.idxOf_lt_length_of_mem (mem_distinct.mp inside))

theorem distinct_map_text (names : List String) :
    distinct (names.map Key.text) = (distinct names).map Key.text := by
  induction names using List.reverseRecOn with
  | nil => rfl
  | append_singleton names name ih =>
    have known : ((distinct names).map Key.text).contains (.text name) =
        (distinct names).contains name := by
      rw [List.contains_map, List.contains_eq_any_beq]
      simp only [Key.text_beq_text]
    rw [List.map_append, List.map_singleton, distinct_concat, distinct_concat, ih, known]
    split
    · rfl
    · rw [List.map_append, List.map_singleton]

end Text

/-- The name of the schema that a field refers to. An empty text is no name: no schema has it. -/
def Field.referred? (f : Field) : Option String :=
  match f.refer with
  | .text name => if name = "" then none else some name
  | _ => none

/-- What a field refers to is named by a text, and its kind is known, as in all definitions that are
well typed. -/
structure Field.Relatable (f : Field) : Prop where
  kind : ∃ kind, f.kind = .known kind
  refer : f.refer = .null ∨ f.refer.IsText

structure Schema.Relatable (s : Schema) : Prop where
  name : s.name.IsText
  fields : ∀ f ∈ s.fields, f.Relatable

namespace Field

variable {f : Field}

namespace Relatable

variable (relatable : f.Relatable)

include relatable

theorem refer_cases : (f.target? = none ∧ f.referred? = none) ∨
    ∃ name, f.refer = .text name ∧ f.target? = some (.text name) ∧ f.referred? = some name := by
  unfold target? referred?
  rcases relatable.refer with null | ⟨name, text⟩
  · rw [null]
    exact .inl ⟨rfl, rfl⟩
  · rw [text]
    by_cases empty : name = ""
    · rw [empty]
      exact .inl ⟨rfl, rfl⟩
    · refine .inr ⟨name, rfl, if_pos ?_, if_neg empty⟩
      simpa [Value.isTrue] using empty

theorem refersTo (name : String) :
    f.refersTo (.text name) = decide (f.referred? = some name) := by
  unfold Field.refersTo
  rcases relatable.refer_cases with ⟨none, unnamed⟩ | ⟨other, -, given, named⟩
  · rw [none, unnamed]
    rfl
  · rw [given, named]
    change (other == name) = decide (some other = some name)
    rw [Bool.eq_iff_iff, beq_iff_eq, decide_eq_true_eq, Option.some.injEq]

theorem exists_toValue : ∃ v, f.toValue = .ok v := by
  obtain ⟨kind, known⟩ := relatable.kind
  rw [toValue, entries, known]
  exact ⟨_, rfl⟩

end Relatable

end Field

namespace Schema

variable {s : Schema}

def referred (s : Schema) : List String := s.fields.filterMap Field.referred?

theorem mem_referred_iff (s : Schema) (name : String) :
    name ∈ s.referred ↔ (s.fields.find? fun f => f.referred? = some name).isSome = true := by
  rw [referred, List.mem_filterMap, List.find?_isSome]
  simp only [decide_eq_true_eq]

namespace Relatable

variable (relatable : s.Relatable)

include relatable

theorem mapM_refer :
    s.referFields.mapM (fun f => Key.ofValue f.refer) = .ok (s.referred.map .text) := by
  have each := relatable.fields
  unfold referFields referred
  generalize s.fields = fields at each
  induction fields with
  | nil => rfl
  | cons f rest ih =>
    obtain ⟨here, later⟩ := List.forall_mem_cons.mp each
    rcases here.refer_cases with ⟨none, unnamed⟩ | ⟨name, text, given, named⟩
    · rw [List.filter_cons_of_neg (by simp [none]), List.filterMap_cons_none unnamed, ih later]
    · rw [List.filter_cons_of_pos (by simp [given]), List.filterMap_cons_some named,
        List.mapM_cons, ih later, text]
      rfl

theorem named : ∀ f ∈ s.referFields, f.refer.key?.isSome = true := by
  intro f listed
  rcases (relatable.fields f (List.mem_filter.mp listed).1).refer with null | ⟨name, text⟩
  · rw [null]
    rfl
  · rw [text]
    rfl

theorem exists_toValue : ∃ v, s.toValue = .ok v := by
  obtain ⟨fields, written⟩ := exists_mapM_eq_ok fun f listed =>
    (relatable.fields f listed).exists_toValue
  rw [Schema.toValue, entries, written]
  exact ⟨_, rfl⟩

theorem edgesOf_to (key : Key) (name : String) :
    ((Catalog.edgesOf (key, s)).filter fun e => e.parent == .text name).map
        (fun e => (e.child, e.field)) =
      (s.fields.filter fun f => f.referred? = some name).map fun f => (key, f) := by
  have each := relatable.fields
  unfold Catalog.edgesOf referFields
  dsimp only
  generalize s.fields = fields at each
  induction fields with
  | nil => rfl
  | cons f rest ih =>
    obtain ⟨here, later⟩ := List.forall_mem_cons.mp each
    rcases here.refer_cases with ⟨none, unnamed⟩ | ⟨other, text, given, named⟩
    · rw [List.filter_cons_of_neg (by simp [none]), ih later,
        List.filter_cons_of_neg (by simp [unnamed])]
    · have edge : Catalog.edge? key f = some ⟨.text other, key, f⟩ := by
        rw [Catalog.edge?, text]
        rfl
      rw [List.filter_cons_of_pos (by simp [given]), List.filterMap_cons_some edge]
      by_cases same : other = name
      · rw [List.filter_cons_of_pos (by simp [same]),
          List.filter_cons_of_pos (by simp [named, same]), List.map_cons, List.map_cons, ih later]
      · rw [List.filter_cons_of_neg (by simp [same, Key.text_beq_text]),
          List.filter_cons_of_neg (by simp [named, same]), ih later]

end Relatable

end Schema

namespace Catalog

inductive Call where
  | register (s : Schema)
  | freeze

def Call.run : Call → Step Catalog Unit
  | register s => Catalog.register s
  | freeze => do let _ ← Catalog.freeze

def after (c : Catalog) (calls : List Call) : Catalog :=
  calls.foldl (fun c call => (exec call.run c).2) c

/-- The schemas that are there after some calls: until the catalog is frozen, the first one of each
name is registered. -/
def admitted (known : List Schema) : List Call → List Schema
  | [] => known
  | .freeze :: _ => known
  | .register s :: rest =>
    if known.any fun t => t.title == s.title then admitted known rest
    else admitted (known ++ [s]) rest

def titledEntry (s : Schema) : Key × Schema := (.text s.title, s)

variable {c : Catalog} {known : List Schema} {s : Schema}

theorem run_frozen (frozen : c.frozen = true) (call : Call) : (exec call.run c).2 = c := by
  cases call with
  | register s =>
    have never (key : Key) : ¬c.Receives s key := fun receives =>
      absurd frozen (Bool.not_eq_true _ ▸ receives.unfrozen)
    obtain ⟨failure, refused⟩ := register_of_not_receives never
    rw [Call.run, refused]
  | freeze => rw [Call.run, exec_ignore_snd, exec_freeze, if_pos frozen]

theorem after_cons (call : Call) (rest : List Call) :
    c.after (call :: rest) = (exec call.run c).2.after rest := rfl

theorem after_frozen (frozen : c.frozen = true) (calls : List Call) : c.after calls = c := by
  induction calls with
  | nil => rfl
  | cons call rest ih =>
    rw [after_cons, run_frozen frozen, ih]

theorem isSome_find?_titled (known : List Schema) (name : String) :
    (Keyed.find? (known.map titledEntry) (.text name)).isSome =
      known.any fun t => t.title == name := by
  induction known with
  | nil => rfl
  | cons t rest ih =>
    rw [List.map_cons, titledEntry, Keyed.find?_cons, Key.text_beq_text, List.any_cons]
    cases t.title == name with
    | true => rfl
    | false => exact ih

structure Lists (c : Catalog) (known : List Schema) : Prop where
  registered : c.Registered
  schemas : c.schemas = known.map titledEntry
  relatable : ∀ s ∈ known, s.Relatable

namespace Lists

variable (lists : c.Lists known)

include lists

theorem has_text (name : String) :
    c.has (.text name) = known.any fun t => t.title == name := by
  rw [has, get?, lists.schemas, isSome_find?_titled]

theorem relatable_of_mem {key : Key} (listed : (key, s) ∈ c.schemas) : s.Relatable := by
  rw [lists.schemas] at listed
  obtain ⟨t, among, same⟩ := List.mem_map.mp listed
  obtain ⟨-, rfl⟩ := Prod.mk.inj same
  exact lists.relatable t among

theorem get?_of_mem (listed : s ∈ known) : c.get? (.text s.title) = some s := by
  refine lists.registered.get?_of_mem ?_ BEq.rfl
  rw [lists.schemas]
  exact List.mem_map_of_mem listed

theorem require_of_mem (listed : s ∈ known) : c.require (.text s.title) = .ok s := by
  rw [require, lists.get?_of_mem listed]

theorem eq_of_title {t : Schema} (listed : s ∈ known) (also : t ∈ known)
    (same : s.title = t.title) : s = t := by
  have found := lists.get?_of_mem listed
  rw [same, lists.get?_of_mem also] at found
  exact (Option.some.inj found).symm

theorem exists_fingerprint : ∃ fingerprint, c.computeFingerprint = .ok fingerprint := by
  have texts : ∀ v ∈ c.names.map Key.toValue, v.IsText := by
    rw [names, lists.schemas, Keyed.names, List.map_map, List.map_map]
    exact List.forall_mem_map.mpr fun t _ => ⟨t.title, rfl⟩
  obtain ⟨ordered, sorted⟩ := Value.sorted?_texts texts
  have each : ∀ t ∈ ordered.filterMap (fun name => name.key?.bind c.get?),
      ∃ v, t.toValue = .ok v := by
    intro t inside
    obtain ⟨name, -, found⟩ := List.mem_filterMap.mp inside
    obtain ⟨key, -, found⟩ := Option.bind_eq_some_iff.mp found
    obtain ⟨own, -, listed⟩ := Keyed.mem_of_find? found
    exact (lists.relatable_of_mem listed).exists_toValue
  obtain ⟨schemas, written⟩ := exists_mapM_eq_ok each
  have given : c.toValue = .ok (.object [("schemas", .list schemas)]) :=
    bind_eq_ok.mpr ⟨ordered, sorted, bind_eq_ok.mpr ⟨schemas, written, rfl⟩⟩
  rw [computeFingerprint, canonicalText, given]
  exact ⟨_, rfl⟩

theorem freeze (unfrozen : c.frozen = false) :
    ((exec Catalog.freeze c).2).Lists known ∧ (exec Catalog.freeze c).2.frozen = true := by
  obtain ⟨fingerprint, computed⟩ := lists.exists_fingerprint
  refine ⟨⟨lists.registered.freeze, (freeze_moves c).trans lists.schemas, lists.relatable⟩, ?_⟩
  rw [exec_freeze, unfrozen, computed]
  rfl

theorem receives_iff (relatable : s.Relatable) :
    (∃ key, c.Receives s key) ↔ c.frozen = false ∧ ∀ t ∈ known, t.title ≠ s.title := by
  have named : Key.ofValue s.name = .ok (.text s.title) := by
    rw [Schema.name_eq_title relatable.name]
    rfl
  have fresh : c.has (.text s.title) = false ↔ ∀ t ∈ known, t.title ≠ s.title := by
    rw [lists.has_text, List.any_eq_false]
    simp only [beq_iff_eq]
  constructor
  · rintro ⟨key, receives⟩
    obtain rfl := Except.ok.inj (receives.named.symm.trans named)
    exact ⟨receives.unfrozen, fresh.mp receives.fresh⟩
  · rintro ⟨unfrozen, apart⟩
    exact ⟨_, unfrozen, named, fresh.mpr apart⟩

theorem refuses (relatable : s.Relatable)
    (closed : ¬(c.frozen = false ∧ ∀ t ∈ known, t.title ≠ s.title)) :
    ∃ failure, exec (Catalog.register s) c = (.error failure, c) :=
  register_of_not_receives (not_exists.mp fun received =>
    closed ((lists.receives_iff relatable).mp received))

theorem register (checked : s.Checked) (relatable : s.Relatable)
    (apart : ∀ t ∈ known, t.title ≠ s.title) (unfrozen : c.frozen = false) :
    ∃ d, exec (Catalog.register s) c = (.ok (), d) ∧ d.Lists (known ++ [s]) ∧ d.frozen = false := by
  obtain ⟨key, receives⟩ := (lists.receives_iff relatable).mpr ⟨unfrozen, apart⟩
  have added := receives.exec_register relatable.named
  refine ⟨_, added, ⟨?_, ?_, ?_⟩, unfrozen⟩
  · have registered := lists.registered.register checked
    rwa [added] at registered
  · have named := receives.named
    rw [Schema.name_eq_title relatable.name] at named
    obtain rfl : Key.text s.title = key := Except.ok.inj named
    rw [lists.schemas, List.map_append]
    rfl
  · intro t listed
    rcases List.mem_append.mp listed with old | new
    · exact lists.relatable t old
    · exact List.mem_singleton.mp new ▸ relatable

theorem after {calls : List Call} (typed : ∀ s, .register s ∈ calls → s.Checked ∧ s.Relatable)
    (unfrozen : c.frozen = false) :
    (c.after calls).Lists (admitted known calls) ∧
      ((c.after calls).frozen = false ↔ .freeze ∉ calls) := by
  induction calls generalizing c known with
  | nil => exact ⟨lists, by simp [Catalog.after, unfrozen]⟩
  | cons call rest ih =>
    have later (s : Schema) (listed : .register s ∈ rest) := typed s (List.mem_cons_of_mem _ listed)
    rw [after_cons]
    cases call with
    | freeze =>
      obtain ⟨kept, frozen⟩ := lists.freeze unfrozen
      rw [Call.run, exec_ignore_snd, after_frozen frozen]
      exact ⟨kept, by simp [frozen]⟩
    | register s =>
      obtain ⟨checked, relatable⟩ := typed s List.mem_cons_self
      have unlike : Call.freeze ∉ Call.register s :: rest ↔ Call.freeze ∉ rest := by simp
      rw [unlike, Call.run, admitted]
      by_cases apart : ∀ t ∈ known, t.title ≠ s.title
      · obtain ⟨d, added, more, still⟩ := lists.register checked relatable apart unfrozen
        rw [added, if_neg (by simpa using apart)]
        exact ih more later still
      · obtain ⟨failure, refused⟩ := lists.refuses relatable fun free => apart free.2
        rw [refused, if_pos (by simpa using apart)]
        exact ih lists later unfrozen

theorem childrenOf_text (name : String) :
    c.childrenOf (.text name) = known.flatMap fun s =>
      (s.fields.filter fun f => f.referred? = some name).map fun f => (.text s.title, f) := by
  have edges := lists.registered.edges_eq fun _ _ listed => (lists.relatable_of_mem listed).named
  rw [childrenOf, edges, lists.schemas, List.flatMap_map, List.filter_flatMap, List.map_flatMap]
  exact List.flatMap_congr fun s listed => (lists.relatable s listed).edgesOf_to _ name

theorem parentsOf (listed : s ∈ known) :
    c.parentsOf (.text s.title) = .ok ((Text.distinct s.referred).map .text) := by
  rw [Catalog.parentsOf, lists.require_of_mem listed, ← Text.distinct_map_text]
  exact bind_eq_ok.mpr ⟨s, rfl, bind_eq_ok.mpr ⟨_, (lists.relatable s listed).mapM_refer, rfl⟩⟩

theorem referField? (listed : s ∈ known) (name : String) :
    c.referField? (.text s.title) (.text name) =
      .ok (s.fields.find? fun f => f.referred? = some name) := by
  have each := (lists.relatable s listed).fields
  refine bind_eq_ok.mpr ⟨s, lists.require_of_mem listed, congrArg Except.ok ?_⟩
  exact List.find?_congr fun f inside => (each f inside).refersTo name

theorem mem_childrenOf_iff (listed : s ∈ known) (name : String) :
    (∃ f, (.text s.title, f) ∈ c.childrenOf (.text name)) ↔ name ∈ s.referred := by
  simp only [lists.childrenOf_text, List.mem_flatMap, List.mem_map, List.mem_filter,
    decide_eq_true_eq]
  constructor
  · rintro ⟨_, t, also, f, ⟨inside, refers⟩, same⟩
    obtain rfl := lists.eq_of_title also listed (Key.text.inj (Prod.mk.inj same).1)
    exact List.mem_filterMap.mpr ⟨f, inside, refers⟩
  · intro refers
    obtain ⟨f, inside, refers⟩ := List.mem_filterMap.mp refers
    exact ⟨f, s, listed, f, ⟨inside, refers⟩, rfl⟩

end Lists

/-- Relations follow the declarations. Schemas are registered in any order, before or after those
that they refer to, and in between registrations are refused. Then the children of a name are all
registered schemas with their fields that refer to it, in order of registration and then of
declaration. For a registered schema the three lookups agree on what is a parent: the field that
leads to it is the first one declared, and the parents stand in the order in which they are first
referred to, each of them once. -/
theorem relations_follow_declarations (calls : List Call)
    (typed : ∀ s, .register s ∈ calls → s.Checked ∧ s.Relatable) :
    let c := after {} calls
    let known := admitted [] calls
    c.schemas = known.map titledEntry ∧
    (∀ s : Schema, s.Checked → s.Relatable →
      ((∃ d, exec (register s) c = (.ok (), d)) ↔
        .freeze ∉ calls ∧ ∀ t ∈ known, t.title ≠ s.title)) ∧
    (∀ name : String, c.childrenOf (.text name) = known.flatMap fun s =>
      (s.fields.filter fun f => f.referred? = some name).map fun f => (.text s.title, f)) ∧
    ∀ s ∈ known, ∃ parents : List String,
      c.parentsOf (.text s.title) = .ok (parents.map .text) ∧
      parents.Pairwise (fun p q => s.referred.idxOf p < s.referred.idxOf q) ∧
      ∀ name : String, ∃ found : Option Field,
        c.referField? (.text s.title) (.text name) = .ok found ∧
        found = s.fields.find? (fun f => f.referred? = some name) ∧
        (name ∈ parents ↔ found.isSome = true) ∧
        (name ∈ parents ↔ ∃ f, (.text s.title, f) ∈ c.childrenOf (.text name)) := by
  intro c known
  have empty : Lists {} [] := ⟨.empty, rfl, fun _ listed => by cases listed⟩
  obtain ⟨lists, unfrozen⟩ : c.Lists known ∧ (c.frozen = false ↔ .freeze ∉ calls) :=
    empty.after typed rfl
  refine ⟨lists.schemas, ?received, lists.childrenOf_text, ?related⟩
  case received =>
    intro s checked relatable
    rw [← unfrozen]
    constructor
    · rintro ⟨d, added⟩
      by_contra closed
      obtain ⟨failure, refused⟩ := lists.refuses relatable closed
      rw [added] at refused
      cases refused
    · rintro ⟨free, apart⟩
      obtain ⟨d, added, -⟩ := lists.register checked relatable apart free
      exact ⟨d, added⟩
  case related =>
    intro s listed
    refine ⟨_, lists.parentsOf listed, Text.pairwise_distinct s.referred, fun name => ?_⟩
    refine ⟨_, lists.referField? listed name, rfl, ?_, ?_⟩
    · rw [Text.mem_distinct, s.mem_referred_iff]
    · rw [Text.mem_distinct, lists.mem_childrenOf_iff listed]

/-- Items refer twice to orders, which are registered later, and once to items. There is no second
registration of orders, by which they would refer to items, and none of customers, since the catalog
is frozen before it. -/
theorem relations_follow_declarations_orders :
    let reference (name schema : String) : Field :=
      { name, kind := .known .reference, refer := .text schema }
    let item : Schema :=
      { name := .text "Item"
        fields := [reference "order" "Order", { name := "note", kind := .known .text },
          reference "spare" "Item", reference "former" "Order"] }
    let order : Schema := { name := .text "Order", fields := [reference "customer" "Customer"] }
    let again : Schema := { name := .text "Order", fields := [reference "item" "Item"] }
    let customer : Schema := { name := .text "Customer" }
    let c := after {}
      [.register item, .register order, .register again, .freeze, .register customer]
    c.schemas = [(.text "Item", item), (.text "Order", order)] ∧
    c.childrenOf (.text "Order") =
      [(.text "Item", reference "order" "Order"), (.text "Item", reference "former" "Order")] ∧
    c.childrenOf (.text "Item") = [(.text "Item", reference "spare" "Item")] ∧
    c.childrenOf (.text "Customer") = [(.text "Order", reference "customer" "Customer")] ∧
    c.referField? (.text "Item") (.text "Order") = .ok (some (reference "order" "Order")) ∧
    ∃ parents : List String, c.parentsOf (.text "Item") = .ok (parents.map .text) ∧
      "Order" ∈ parents ∧ "Item" ∈ parents ∧ "Customer" ∉ parents := by
  intro reference item order again customer c
  have checked : ∀ f ∈ item.fields ++ order.fields ++ again.fields, f.check = .ok f := by
    simp [item, order, again, reference, Field.check, Field.isOf, GivenKind.isKind, Field.target?,
      Field.checkBounds, Value.isTrue, Value.isNull]
  have relatable : ∀ f ∈ item.fields ++ order.fields ++ again.fields, f.Relatable := by
    have reads (name schema : String) : (reference name schema).Relatable :=
      ⟨⟨_, rfl⟩, .inr ⟨_, rfl⟩⟩
    simp only [item, order, again, List.cons_append, List.nil_append, List.forall_mem_cons, reads]
    exact ⟨trivial, ⟨⟨_, rfl⟩, .inl rfl⟩, trivial, trivial, trivial, trivial, List.forall_mem_nil _⟩
  simp only [List.forall_mem_append] at checked relatable
  have typed : ∀ s, .register s ∈ [Call.register item, .register order, .register again, .freeze,
      .register customer] → s.Checked ∧ s.Relatable := by
    simp only [List.mem_cons, Call.register.injEq, reduceCtorEq, List.not_mem_nil, false_or,
      or_false, forall_eq_or_imp, forall_eq]
    exact ⟨⟨⟨rfl, checked.1.1⟩, ⟨_, rfl⟩, relatable.1.1⟩,
      ⟨⟨rfl, checked.1.2⟩, ⟨_, rfl⟩, relatable.1.2⟩, ⟨⟨rfl, checked.2⟩, ⟨_, rfl⟩, relatable.2⟩,
      ⟨⟨rfl, List.forall_mem_nil _⟩, ⟨_, rfl⟩, List.forall_mem_nil _⟩⟩
  obtain ⟨schemas, -, children, related⟩ := relations_follow_declarations _ typed
  obtain ⟨parents, answered, -, lookups⟩ := related item List.mem_cons_self
  obtain ⟨_, found, rfl, isParent, -⟩ := lookups "Order"
  obtain ⟨_, -, rfl, isOwn, -⟩ := lookups "Item"
  obtain ⟨_, -, rfl, isOther, -⟩ := lookups "Customer"
  refine ⟨schemas, children "Order", children "Item", children "Customer", found,
    parents, answered, isParent.mpr rfl, isOwn.mpr rfl, fun other => ?_⟩
  cases isOther.mp other

end Catalog

end RecordRules
