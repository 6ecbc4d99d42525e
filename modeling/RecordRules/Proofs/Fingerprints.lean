import RecordRules.Proofs.WrittenCatalogs

/-!
The text that the fingerprint of a catalog is computed from. Main statement: of two catalogs whose
values have no rounded numbers, the texts are the same if and only if the same schemas are
registered in both, each with the same fields in the same order; the order of registration does not
matter.
-/
namespace RecordRules

open Clause

structure Field.Exact (f : Field) : Prop where
  writable : f.Writable
  default : f.default.Exact
  enumValues : ∀ v ∈ f.enumValues, v.Exact
  min : f.min.Exact
  max : f.max.Exact

structure Schema.Exact (s : Schema) : Prop where
  writable : s.Writable
  fields : ∀ f ∈ s.fields, f.Exact

def Catalog.Exact (c : Catalog) : Prop := ∀ key s, (key, s) ∈ c.schemas → s.Exact

/-- The same field, up to the order of entries in its values. -/
structure Field.Equivalent (f g : Field) : Prop where
  name : f.name = g.name
  kind : f.kind = g.kind
  required : f.required = g.required
  default : f.default.Equivalent g.default
  enumValues : List.Forall₂ Value.Equivalent f.enumValues g.enumValues
  min : f.min.Equivalent g.min
  max : f.max.Equivalent g.max
  refer : f.refer = g.refer
  unique : f.unique = g.unique
  description : f.description = g.description

structure Schema.Equivalent (s t : Schema) : Prop where
  name : s.name = t.name
  fields : List.Forall₂ Field.Equivalent s.fields t.fields
  description : s.description = t.description

namespace Value

theorem equivalent_text_iff {s t : String} : (text s).Equivalent (text t) ↔ s = t := by
  constructor
  · rintro ⟨⟩
    rfl
  · rintro rfl
    exact .text s

theorem equivalent_list_iff {items members : List Value} :
    (list items).Equivalent (list members) ↔ List.Forall₂ Equivalent items members := by
  constructor
  · rintro ⟨⟩
    assumption
  · exact .list

theorem IsText.exact {v : Value} (isText : v.IsText) : v.Exact := by
  obtain ⟨t, rfl⟩ := isText
  exact .text t

end Value

namespace Field

variable {f g : Field}

theorem Writable.kindName_eq_iff (hf : f.Writable) (hg : g.Writable) :
    f.kindName = g.kindName ↔ f.kind = g.kind := by
  constructor
  · intro same
    have kinds := hf.kindOf_kindName
    rw [same, hg.kindOf_kindName] at kinds
    exact (Except.ok.inj kinds).symm
  · intro same
    rw [kindName, kindName, same]

theorem Exact.definition (exact : f.Exact) : f.definition.Exact := by
  have refer : f.refer.Exact := by
    rcases exact.writable.refer with none | ⟨t, -, given⟩
    · exact none ▸ .null
    · exact given ▸ .text t
  refine exact_written f.keys_nodup fun p listed _ => ?_
  simp only [clauses, List.mem_cons, List.not_mem_nil, or_false] at listed
  rcases listed with rfl | rfl | rfl | rfl | rfl | rfl | rfl | rfl | rfl | rfl
  case _ => exact .text _
  case _ => exact .text _
  case _ => exact .bool true
  case _ => exact exact.default
  case _ => exact .list exact.enumValues
  case _ => exact exact.min
  case _ => exact exact.max
  case _ => exact refer
  case _ => exact .bool true
  case _ => exact exact.writable.description.exact

theorem definition_equivalent_iff (hf : f.Writable) (hg : g.Writable) :
    f.definition.Equivalent g.definition ↔ f.Equivalent g := by
  have keys : f.clauses.map Clause.key = g.clauses.map Clause.key := rfl
  rw [Field.definition, Field.definition, written_equivalent_iff keys f.keys_nodup]
  simp only [clauses, List.forall₂_cons, List.forall₂_nil_left_iff, agrees_always, agrees_flag,
    agrees_unlessNull, agrees_unlessEmpty, agrees_ifTrue rfl hf.refer hg.refer,
    agrees_ifTrue rfl hf.description.isTextOr hg.description.isTextOr,
    Value.equivalent_text_iff, hf.kindName_eq_iff hg, and_true]
  constructor
  · rintro ⟨name, kind, required, default, enumValues, min, max, refer, unique, description⟩
    exact ⟨name, kind, required, default, enumValues, min, max, refer, unique, description⟩
  · rintro ⟨name, kind, required, default, enumValues, min, max, refer, unique, description⟩
    exact ⟨name, kind, required, default, enumValues, min, max, refer, unique, description⟩

end Field

namespace Schema

variable {s t : Schema}

theorem Exact.definition (exact : s.Exact) : s.definition.Exact := by
  refine exact_written s.keys_nodup fun p listed _ => ?_
  simp only [clauses, List.mem_cons, List.not_mem_nil, or_false] at listed
  rcases listed with rfl | rfl | rfl
  case _ => exact exact.writable.name.exact
  case _ =>
    exact .list (List.forall_mem_map.mpr fun f listed => (exact.fields f listed).definition)
  case _ => exact exact.writable.description.exact

theorem definition_equivalent_iff (hs : s.Writable) (ht : t.Writable) :
    s.definition.Equivalent t.definition ↔ s.Equivalent t := by
  have fields : List.Forall₂ Value.Equivalent (s.fields.map Field.definition)
      (t.fields.map Field.definition) ↔ List.Forall₂ Field.Equivalent s.fields t.fields := by
    rw [List.forall₂_map_left_iff, List.forall₂_map_right_iff]
    exact forall₂_congr_of_mem fun f hf g hg =>
      Field.definition_equivalent_iff (hs.fields f hf) (ht.fields g hg)
  have name : s.name.Equivalent t.name ↔ s.name = t.name := by
    rw [hs.name_eq, ht.name_eq, Value.equivalent_text_iff, Value.text.injEq]
  have keys : s.clauses.map Clause.key = t.clauses.map Clause.key := rfl
  rw [Schema.definition, Schema.definition, written_equivalent_iff keys s.keys_nodup]
  simp only [clauses, List.forall₂_cons, List.forall₂_nil_left_iff, agrees_always,
    agrees_ifTrue rfl hs.description.isTextOr ht.description.isTextOr, Value.equivalent_list_iff,
    fields, name, and_true]
  constructor
  · rintro ⟨name, fields, description⟩
    exact ⟨name, fields, description⟩
  · rintro ⟨name, fields, description⟩
    exact ⟨name, fields, description⟩

end Schema

namespace Catalog

variable {c d : Catalog}

theorem Exact.writable (exact : c.Exact) : c.Writable :=
  fun key s listed => (exact key s listed).writable

theorem Exact.definition (exact : c.Exact) : c.definition.Exact := by
  refine exact_written c.keys_nodup fun p listed _ => ?_
  rw [List.mem_singleton.mp listed]
  refine .list (List.forall_mem_map.mpr fun entry listed => ?_)
  obtain ⟨⟨key, s⟩, among, rfl⟩ := List.mem_map.mp (Keyed.mem_inOrder.mp listed)
  exact (exact key s among).definition

theorem Registered.get?_eq_none (registered : c.Registered) (writable : c.Writable) {key : Key}
    (other : ∀ name, key ≠ .text name) : c.get? key = none := by
  rw [Option.eq_none_iff_forall_ne_some]
  intro s found
  obtain ⟨own, same, listed⟩ := registered.get?_eq_some_iff.mp found
  rw [registered.key_eq writable listed] at same
  exact other s.title (Key.eq_text same)

section

variable (hc : c.Registered) (hd : d.Registered) (wc : c.Writable) (wd : d.Writable)

include hc hd wc wd

theorem rel_titled_iff {related : Schema → Schema → Prop} :
    (∀ name, Option.Rel related (c.titled.find? name) (d.titled.find? name)) ↔
      ∀ key, Option.Rel related (c.get? key) (d.get? key) := by
  constructor
  · intro each key
    cases key with
    | text name =>
      rw [hc.get?_text wc, hd.get?_text wd]
      exact each name
    | _ =>
      rw [hc.get?_eq_none wc (by simp), hd.get?_eq_none wd (by simp)]
      exact .none
  · intro each name
    rw [← hc.get?_text wc, ← hd.get?_text wd]
    exact each (.text name)

theorem definition_equivalent_iff : c.definition.Equivalent d.definition ↔
    ∀ key, Option.Rel Schema.Equivalent (c.get? key) (d.get? key) := by
  have members : List.Forall₂
      (fun a b => a.2.definition.Equivalent b.2.definition) c.titled.inOrder d.titled.inOrder ↔
      List.Forall₂ (Keyed.Matches Schema.Equivalent) c.titled.inOrder d.titled.inOrder := by
    refine forall₂_congr_of_mem fun a ha b hb => ?_
    have here := Keyed.mem_inOrder.mp ha
    have there := Keyed.mem_inOrder.mp hb
    rw [Schema.definition_equivalent_iff (wc.of_titled here) (wd.of_titled there), Keyed.Matches]
    refine ⟨fun equivalent => ⟨?_, equivalent⟩, And.right⟩
    rw [title_of_titled here, title_of_titled there, Schema.title, equivalent.name, Schema.title]
  have keys : c.clauses.map Clause.key = d.clauses.map Clause.key := rfl
  rw [Catalog.definition, Catalog.definition, written_equivalent_iff keys c.keys_nodup, clauses,
    clauses, List.forall₂_cons, agrees_always, Value.equivalent_list_iff,
    List.forall₂_map_left_iff, List.forall₂_map_right_iff, members,
    Keyed.forall₂_inOrder_iff (hc.titles_nodup wc) (hd.titles_nodup wd),
    rel_titled_iff hc hd wc wd]
  exact and_iff_left .nil

end

/-- The canonical text says which schemas there are, each with its fields in order, and nothing
else: not in which order they were registered. -/
theorem canonicalText_eq_iff (hc : c.Registered) (hd : d.Registered) (ec : c.Exact)
    (ed : d.Exact) :
    ∃ s t, c.canonicalText = .ok s ∧ d.canonicalText = .ok t ∧
      (s = t ↔ ∀ key, Option.Rel Schema.Equivalent (c.get? key) (d.get? key)) ∧
      (c.schemas.Perm d.schemas → s = t) := by
  refine ⟨c.definition.canonical, d.definition.canonical, ?_, ?_, ?_, fun perm => ?_⟩
  · rw [canonicalText, hc.toValue ec.writable]
    rfl
  · rw [canonicalText, hd.toValue ed.writable]
    rfl
  · rw [Value.canonical_eq_iff ec.definition ed.definition]
    exact definition_equivalent_iff hc hd ec.writable ed.writable
  · rw [hc.definition_eq_of_perm ec.writable perm]

end Catalog

def noteSchema (width : Value) : Schema where
  name := .text "Note"
  fields := [{ name := "width", kind := .known .json, default := width }]

def tagSchema : Schema where
  name := .text "Tag"

theorem noteSchema_checked (width : Value) : (noteSchema width).Checked := by
  refine ⟨rfl, fun f listed => ?_⟩
  rw [List.mem_singleton.mp listed]
  simp [Field.check, Field.isOf, GivenKind.isKind, Field.target?, Field.checkBounds,
    Value.isTrue, Value.isNull]

theorem noteSchema_exact {width : Value} (exact : width.Exact) : (noteSchema width).Exact := by
  have field : ∀ f ∈ (noteSchema width).fields, f.Exact := by
    intro f listed
    rw [List.mem_singleton.mp listed]
    exact ⟨⟨⟨_, rfl⟩, .inl rfl, ⟨"", rfl⟩⟩, exact, nofun, .null, .null⟩
  exact ⟨⟨⟨"Note", rfl⟩, fun f listed => (field f listed).writable, ⟨"", rfl⟩⟩, field⟩

theorem tagSchema_checked : tagSchema.Checked := ⟨rfl, nofun⟩

theorem tagSchema_exact : tagSchema.Exact :=
  ⟨⟨⟨"Tag", rfl⟩, nofun, ⟨"", rfl⟩⟩, nofun⟩

namespace Catalog

def pair (s t : Schema) : Catalog := (Step.exec (register t) (Step.exec (register s) {}).2).2

theorem canonicalText_notes : ∃ s t u,
    (pair (noteSchema (.bool true)) tagSchema).canonicalText = .ok s ∧
    (pair tagSchema (noteSchema (.bool true))).canonicalText = .ok t ∧
    (pair (noteSchema (.int 1)) tagSchema).canonicalText = .ok u ∧ s = t ∧ s ≠ u := by
  have registered {s t : Schema} (hs : s.Checked) (ht : t.Checked) : (pair s t).Registered :=
    .register (.register .empty hs) ht
  have exact {width : Value} (whole : width.Exact) : (pair (noteSchema width) tagSchema).Exact ∧
      (pair tagSchema (noteSchema width)).Exact := by
    constructor
    · intro key s listed
      rcases List.mem_pair.mp listed with same | same
      · exact (Prod.mk.inj same).2 ▸ noteSchema_exact whole
      · exact (Prod.mk.inj same).2 ▸ tagSchema_exact
    · intro key s listed
      rcases List.mem_pair.mp listed with same | same
      · exact (Prod.mk.inj same).2 ▸ tagSchema_exact
      · exact (Prod.mk.inj same).2 ▸ noteSchema_exact whole
  have notes_first (width : Value) := registered (noteSchema_checked width) tagSchema_checked
  obtain ⟨s, t, first, second, -, same⟩ := canonicalText_eq_iff (notes_first _)
    (registered tagSchema_checked (noteSchema_checked _)) (exact (.bool true)).1
    (exact (.bool true)).2
  obtain ⟨s', u, first', third, differ, -⟩ := canonicalText_eq_iff (notes_first _) (notes_first _)
    (exact (.bool true)).1 (exact (.int 1)).1
  obtain rfl := Except.ok.inj (first.symm.trans first')
  refine ⟨s, t, u, first, second, third, same (.swap _ _ _), fun equal => ?_⟩
  cases differ.mp equal (.text "Note") with
  | some schemas =>
    cases schemas.fields with
    | cons field _ => cases field.default

end Catalog

end RecordRules
