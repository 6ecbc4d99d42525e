import RecordRules.Proofs.FailedRegistrations
import RecordRules.Proofs.WrittenDefinitions

/-!
The definition of a catalog, which lists the definitions of its schemas in the order of their
names. Main statements: catalogs with the same schemas answer alike and have the same definition,
in whatever order the schemas were registered; and the edges of a catalog are those of its schemas,
one schema after another.
-/
namespace RecordRules

open Step

namespace Value

theorem isLess_texts (s t : String) : (text s).isLess (text t) = decide (s < t) := by
  change (some (textOrder s t) == some .lt) = decide (s < t)
  unfold textOrder
  split
  · rename_i same
    rw [same]
    simp
  · split <;> simp [*]

theorem sorted_texts (names : List String) :
    sorted (names.map text) = (names.insertionSort (· ≤ ·)).map text := by
  have order (v w : Value) : (!w.isLess v) = decide (¬w.isLess v = true) := by simp
  rw [sorted, funext fun v => funext fun w => order v w, Text.sortBy_eq_insertionSort]
  refine (List.map_insertionSort _ _ text names fun s _ t _ => ?_).symm
  rw [isLess_texts, decide_eq_true_eq, not_lt]

theorem eq_sorted_of_sorted? {members ordered : List Value}
    (given : sorted? members = .ok ordered) : ordered = sorted members := by
  unfold sorted? at given
  split at given
  · exact (Except.ok.inj given).symm
  · cases given

end Value

theorem Keyed.find?_map_text {α : Type} (members : Keyed String α) (name : String) :
    Keyed.find? (members.map fun entry => (Key.text entry.1, entry.2)) (.text name) =
      members.find? name := by
  induction members with
  | nil => rfl
  | cons entry rest ih => rw [List.map_cons, find?_cons, find?_cons, ih, Key.text_beq_text]

def Schema.title (s : Schema) : String :=
  match s.name with
  | .text t => t
  | _ => ""

theorem Schema.name_eq_title {s : Schema} (isText : s.name.IsText) : s.name = .text s.title := by
  obtain ⟨t, named⟩ := isText
  rw [title, named]

theorem Schema.Writable.name_eq {s : Schema} (writable : s.Writable) : s.name = .text s.title :=
  Schema.name_eq_title writable.name

theorem Schema.Writable.named {s : Schema} (writable : s.Writable) :
    ∀ f ∈ s.referFields, f.refer.key?.isSome = true := by
  intro f listed
  rcases (writable.fields f (List.mem_filter.mp listed).1).refer with none | ⟨t, -, given⟩
  · rw [none]
    rfl
  · rw [given]
    rfl

namespace Catalog

variable {c d : Catalog} {s : Schema} {key : Key}

def Writable (c : Catalog) : Prop := ∀ key s, (key, s) ∈ c.schemas → s.Writable

def titled (c : Catalog) : Keyed String Schema :=
  c.schemas.map fun entry => (entry.2.title, entry.2)

def clauses (c : Catalog) : List Clause :=
  [.always "schemas" (.list (c.titled.inOrder.map fun entry => entry.2.definition))]

def definition (c : Catalog) : Value := .object (Clause.written c.clauses)

theorem keys_nodup (c : Catalog) : (c.clauses.map Clause.key).Nodup := List.nodup_singleton _

theorem Writable.of_titled (writable : c.Writable) {name : String} (listed : (name, s) ∈ c.titled) :
    s.Writable := by
  obtain ⟨⟨key, t⟩, among, same⟩ := List.mem_map.mp listed
  obtain ⟨-, rfl⟩ := Prod.mk.inj same
  exact writable key t among

theorem title_of_titled {name : String} (listed : (name, s) ∈ c.titled) : name = s.title := by
  obtain ⟨⟨key, t⟩, -, same⟩ := List.mem_map.mp listed
  obtain ⟨rfl, rfl⟩ := Prod.mk.inj same
  rfl

section

variable (registered : c.Registered) (writable : c.Writable)

include registered

theorem Registered.get?_eq_some_iff :
    c.get? key = some s ↔ ∃ own, (own == key) = true ∧ (own, s) ∈ c.schemas :=
  ⟨Keyed.mem_of_find?, fun ⟨_, same, listed⟩ => registered.get?_of_mem listed same⟩

theorem Registered.get?_eq_of_perm (registered' : d.Registered) (perm : d.schemas.Perm c.schemas)
    (key : Key) : d.get? key = c.get? key := by
  apply Option.ext
  intro s
  simp only [registered.get?_eq_some_iff, registered'.get?_eq_some_iff, perm.mem_iff]

include writable

theorem Registered.key_eq (listed : (key, s) ∈ c.schemas) : key = .text s.title := by
  have named := (registered.checked key s listed).2
  rw [(writable key s listed).name_eq] at named
  exact (Except.ok.inj named).symm

theorem Registered.schemas_eq :
    c.schemas = c.titled.map fun entry => (.text entry.1, entry.2) := by
  rw [titled, List.map_map]
  refine (List.map_id c.schemas).symm.trans (List.map_congr_left fun entry listed => ?_)
  exact Prod.ext (registered.key_eq writable listed) rfl

theorem Registered.titles_nodup : c.titled.names.Nodup := by
  have apart := registered.apart
  rw [registered.schemas_eq writable, List.pairwise_map] at apart
  exact List.pairwise_map.mpr (apart.imp fun {a b} other =>
    ne_of_beq_false (show (a.1 == b.1) = false from other))

theorem Registered.get?_text (name : String) : c.get? (.text name) = c.titled.find? name := by
  rw [get?, registered.schemas_eq writable]
  exact Keyed.find?_map_text c.titled name

theorem Registered.get?_of_titled {name : String} (listed : (name, s) ∈ c.titled) :
    c.get? (.text name) = some s := by
  rw [registered.get?_text writable]
  exact (Keyed.find?_eq_some_iff (registered.titles_nodup writable) name s).mpr listed

theorem Registered.toValue : c.toValue = .ok c.definition := by
  have names : c.names.map Key.toValue = c.titled.names.map Value.text := by
    rw [names, registered.schemas_eq writable]
    simp [Keyed.names, Function.comp_def, Key.toValue]
  have ordered : Value.sorted? (c.names.map Key.toValue) =
      .ok (c.titled.inOrder.names.map Value.text) := by
    have texts : ∀ v ∈ c.names.map Key.toValue, v.IsText := by
      rw [names]
      exact List.forall_mem_map.mpr fun name _ => ⟨name, rfl⟩
    obtain ⟨ordered, sorted⟩ := Value.sorted?_texts texts
    rw [sorted, Value.eq_sorted_of_sorted? sorted, names, Value.sorted_texts, Keyed.names_inOrder]
  have found : (c.titled.inOrder.names.map Value.text).filterMap
      (fun name => name.key?.bind c.get?) = c.titled.inOrder.map Prod.snd := by
    rw [Keyed.names, List.map_map, List.filterMap_map, ← List.filterMap_eq_map]
    refine List.filterMap_congr fun entry listed => ?_
    exact registered.get?_of_titled writable (c.titled.perm_inOrder.mem_iff.mp listed)
  have written : (c.titled.inOrder.map Prod.snd).mapM Schema.toValue =
      .ok (c.titled.inOrder.map fun entry => entry.2.definition) := by
    rw [mapM_eq_map (g := Schema.definition), List.map_map]
    · rfl
    · refine List.forall_mem_map.mpr fun entry listed => ?_
      exact (writable.of_titled (c.titled.perm_inOrder.mem_iff.mp listed)).toValue
  rw [Catalog.toValue, ordered]
  change (List.filterMap _ _).mapM Schema.toValue >>= _ = _
  rw [found, written]
  rfl

theorem Registered.definition_eq_of_perm (perm : c.schemas.Perm d.schemas) :
    c.definition = d.definition := by
  have titled : c.titled.Perm d.titled := perm.map _
  rw [definition, definition, clauses, clauses,
    Keyed.inOrder_eq_of_perm (registered.titles_nodup writable) titled]

end

def edge? (child : Key) (f : Field) : Option Edge :=
  f.refer.key?.map fun parent => ⟨parent, child, f⟩

def edgesOf (entry : Key × Schema) : List Edge := entry.2.referFields.filterMap (edge? entry.1)

/-- If all references name keys, an edge is added for each of them. -/
theorem exec_addEdges (child : Key) {fields : List Field}
    (named : ∀ f ∈ fields, f.refer.key?.isSome = true) (c : Catalog) :
    exec (addEdges child fields) c =
      (.ok (), { c with edges := c.edges ++ fields.filterMap (edge? child) }) := by
  induction fields generalizing c with
  | nil => simp [addEdges]
  | cons f rest ih =>
    obtain ⟨here, later⟩ := List.forall_mem_cons.mp named
    obtain ⟨parent, given⟩ := Option.isSome_iff_exists.mp here
    have edge : edge? child f = some ⟨parent, child, f⟩ := by rw [edge?, given, Option.map_some]
    rw [addEdges, exec_bind, exec_ofExcept, Key.ofValue, given]
    simp only [exec_bind, exec_modify, ih later, List.filterMap_cons_some edge, List.append_assoc,
      List.cons_append, List.nil_append]

theorem Receives.exec_register (receives : c.Receives s key)
    (named : ∀ f ∈ s.referFields, f.refer.key?.isSome = true) :
    exec (Catalog.register s) c = (.ok (), { c with
      schemas := c.schemas ++ [(key, s)]
      edges := c.edges ++ edgesOf (key, s) }) := by
  rw [receives.register, exec_addEdges key named]
  rfl

/-- If all references name keys, the edges stand in the order of the schemas, and for each schema in
the order of its fields. -/
theorem Registered.edges_eq (registered : c.Registered)
    (named : ∀ key s, (key, s) ∈ c.schemas → ∀ f ∈ s.referFields, f.refer.key?.isSome = true) :
    c.edges = c.schemas.flatMap edgesOf := by
  induction registered with
  | empty => rfl
  | @register c s before checked ih =>
    by_cases received : ∃ key, c.Receives s key
    · obtain ⟨key, receives⟩ := received
      rw [receives.schemas] at named
      have earlier := ih fun key t listed => named key t (List.mem_append_left _ listed)
      have added := receives.exec_register (named key s (by simp))
      rw [added, earlier, List.flatMap_append, List.flatMap_singleton]
    · obtain ⟨failure, refused⟩ := register_of_not_receives (not_exists.mp received)
      rw [refused] at named ⊢
      exact ih named
  | @freeze c before ih =>
    have schemas : (exec Catalog.freeze c).2.schemas = c.schemas := freeze_moves c
    rw [schemas] at named
    rw [freeze_edges, schemas, ih named]

end Catalog

end RecordRules
