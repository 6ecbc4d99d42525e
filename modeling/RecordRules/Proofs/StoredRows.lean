import RecordRules.Proofs.CascadeLoop
import RecordRules.Proofs.RowProperties

/-!
Stored rows. Where no reactions are registered, everything that hosts do keeps the rows valid:
every row satisfies the schema that it is stored under, without exemptions, and so do the rows that
an open scope has saved. Main statement: from an empty store on, whatever calls are made, and
whether they fail or not, every stored row satisfies its schema.
-/
namespace RecordRules

open Step

namespace Catalog

def Admits (c : Catalog) (schema : Key) (data : Entries) : Prop :=
  ∃ s, c.get? schema = some s ∧ s.complaints data = .ok []

def Holds (c : Catalog) (tables : Keyed Key Table) : Prop :=
  ∀ schema rows, (schema, rows) ∈ tables → ∀ id data, (id, data) ∈ rows → c.Admits schema data

instance {c : Catalog} : RowProperty c.Admits where
  congr same admits := by
    obtain ⟨s, found, accepted⟩ := admits
    refine ⟨s, ?_, accepted⟩
    rw [get?, Keyed.find?_congr same]
    exact found

end Catalog

namespace Store

abbrev Sound (c : Catalog) (s : Store) : Prop := s.Upholds c.Admits

theorem sound_empty (c : Catalog) : Sound c {} := upholds_empty c.Admits

end Store

namespace Engine

variable {e : Engine}

theorem imparts_admits (registered : e.catalog.Registered)
    (unbounded : ∀ schema s, e.catalog.get? schema = some s → s.RefersUnbounded) :
    e.Imparts e.catalog.Admits where
  created schema p parent built accepted placed found := by
    obtain ⟨checked, -⟩ := registered.of_get? found
    have refers := unbounded schema _ found
    exact ⟨_, found, initialValues_accepted checked refers built accepted placed⟩
  accepted schema s data found accepted := ⟨s, found, accepted⟩

theorem performAll_sound (registered : e.catalog.Registered)
    (unbounded : ∀ schema s, e.catalog.get? schema = some s → s.RefersUnbounded)
    (quiet : e.rules.reactions = []) {calls : List HostCall}
    (proper : ∀ call ∈ calls, call.isProper = true) {s : Store} (sound : s.Sound e.catalog) :
    (e.performAll calls s).Sound e.catalog := by
  have imparts := imparts_admits registered unbounded
  induction calls generalizing s with
  | nil => exact sound
  | cons call rest ih =>
    have first := perform_upholds imparts quiet registered (proper call List.mem_cons_self) s sound
    exact ih (fun other later => proper other (List.mem_cons_of_mem _ later)) first

/-- From an empty store on, every row that is stored satisfies its schema, after whatever calls, as
long as the references have no bounds and there are no reactions. -/
theorem performAll_holds (e : Engine) (registered : e.catalog.Registered)
    (unbounded : ∀ schema s, e.catalog.get? schema = some s → s.RefersUnbounded)
    (quiet : e.rules.reactions = []) (calls : List HostCall)
    (proper : ∀ call ∈ calls, call.isProper = true) :
    e.catalog.Holds (e.performAll calls {}).tables :=
  (performAll_sound registered unbounded quiet proper (Store.sound_empty _)).rows

/-- A folder is created with a file in it: the folder has its default title, and the file, which is
given no data at all, refers to the folder. -/
theorem performAll_nested_create :
    let folder : Schema :=
      { name := .text "Folder"
        fields := [{ name := "title", kind := .known .text, required := true,
                     default := .text "new" }] }
    let file : Schema :=
      { name := .text "File"
        fields := [{ name := "folder", kind := .known .reference, required := true,
                     refer := .text "Folder" }] }
    let e : Engine :=
      { catalog := (exec (Catalog.register file) (exec (Catalog.register folder) {}).2).2
        contracts := { augmentations :=
          [{ schema := .text "Folder", target := .create
             children := [{ schema := .text "File", key := .text "files" }] }] } }
    let payload : Value := .object [("files", .list [.object []])]
    let left := e.performAll [.create (.text "Folder") payload .alone] {}
    e.catalog.Holds left.tables ∧
      left.row? (.text "File") (Store.generatedId "File" 1) =
        some [("folder", (Store.generatedId "Folder" 0).toValue)] := by
  intro folder file e payload left
  have checked : folder.Checked ∧ file.Checked := by
    constructor
    · refine ⟨rfl, fun f listed => ?_⟩
      rw [List.mem_singleton.mp listed]
      simp [Field.check, Field.isOf, GivenKind.isKind, Field.target?, Field.checkBounds,
        Value.isTrue, Value.isNull]
    · refine ⟨rfl, fun f listed => ?_⟩
      rw [List.mem_singleton.mp listed]
      simp [Field.check, Field.isOf, GivenKind.isKind, Field.target?, Field.checkBounds,
        Value.isTrue, Value.isNull]
  have registered : e.catalog.Registered := .register (.register .empty checked.1) checked.2
  have unbounded (schema : Key) (s : Schema) (found : e.catalog.get? schema = some s) :
      s.RefersUnbounded := by
    obtain ⟨key, -, listed⟩ := Keyed.mem_of_find? found
    intro f member target
    rcases List.mem_pair.mp listed with same | same
    · cases same
      rw [List.mem_singleton.mp member]
      exact ⟨rfl, rfl⟩
    · cases same
      rw [List.mem_singleton.mp member]
      exact ⟨rfl, rfl⟩
  have proper (call : HostCall) (listed : call ∈ [.create (.text "Folder") payload .alone]) :
      call.isProper = true := by
    rw [List.mem_singleton.mp listed]
    rfl
  refine ⟨e.performAll_holds registered unbounded rfl _ proper, ?_⟩
  -- What the payload is split into, and the records that this comes to.
  let contract : Contract :=
    { schema := folder, target := .create, placement := .alone, ownFields := ["title"]
      children := [{ schema := .text "File", key := .text "files" }] }
  let nested : Contract :=
    { schema := file, target := .create, placement := .nested, ownFields := ["folder"]
      referBack := some "folder" }
  let tree : Payload := .node contract (.text "Folder") []
    [("files", [.node nested (.text "Folder.files[0]") [] []])]
  let parent : Record := ⟨.text "Folder", Store.generatedId "Folder" 0, [("title", .text "new")]⟩
  let child : Record := ⟨.text "File", Store.generatedId "File" 1, [("folder", parent.id.toValue)]⟩
  let after : Store :=
    { tables :=
        [(parent.schema, [(parent.id, parent.data)]), (child.schema, [(child.id, child.data)])]
      scope := some ⟨0, []⟩
      issued := 2
      trace := [(.insert, parent.schema), (.insert, child.schema)] }
  have composed : e.compose (.text "Folder") .create .alone = .ok contract := rfl
  have valid : e.contracts.validate e.catalog contract payload = .ok tree := by
    with_unfolding_all rfl
  have stored : exec (e.insertTree tree none) ({} : Store).enter = (.ok [parent, child], after) :=
    rfl
  -- The two events are dispatched one after the other, and nothing follows from them.
  let roots := [parent, child].map Event.created
  let first : Course := (exec (e.advance (.created parent) 0)
    { Course.start after roots with queue := [(.created child, 0)] }).2
  let last : Course := (exec (e.advance (.created child) 0) { first with queue := [] }).2
  have reached : e.Reaches after roots last :=
    .head (.dispatch rfl (Prod.ext rfl rfl)) (.single (.dispatch rfl (Prod.ext rfl rfl)))
  have drained : e.drain (.start after roots) = (.ok (), last) :=
    (drain_of_reflTransGen reached).trans (e.drain_nil rfl)
  simp only [left, performAll, List.foldl_cons, List.foldl_nil, perform, create, composed, valid,
    exec_bind, exec_ofExcept, Store.transaction, exec_of, stored, exec_propagate]
  rw [drained]
  rfl

end Engine

end RecordRules
