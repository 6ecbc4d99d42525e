import RecordRules.Proofs.WrittenCatalogs

/-!
Catalogs that are read back from their own definition. The schemas are registered again, in the
order of their names. Main statement: the catalog read back holds the same schemas as before and
answers every question about them alike, up to the order in which children are listed; and it has
the same canonical text.
-/
namespace RecordRules

open Step

namespace Catalog

variable {c d : Catalog} {s : Schema}

def load (definitions : List Value) : Step Catalog Unit :=
  definitions.forM fun v => do register (← Step.ofExcept (Schema.ofValue v))

theorem Registered.exec_load (registered : c.Registered) (unfrozen : c.frozen = false)
    {added : Keyed Key Schema}
    (apart : (c.schemas ++ added).Pairwise fun entry other => (entry.1 == other.1) = false)
    (each : ∀ entry ∈ added, entry.2.Writable ∧ entry.2.Checked ∧
      Key.ofValue entry.2.name = .ok entry.1) :
    ∃ d, exec (load (added.map fun entry => entry.2.definition)) c = (.ok (), d) ∧
      d.Registered ∧ d.schemas = c.schemas ++ added := by
  induction added generalizing c with
  | nil => exact ⟨c, rfl, registered, (List.append_nil _).symm⟩
  | cons entry rest ih =>
    obtain ⟨key, s⟩ := entry
    obtain ⟨⟨writable, checked, named⟩, others⟩ := List.forall_mem_cons.mp each
    have fresh : c.has key = false := by
      rw [← Bool.not_eq_true]
      intro known
      obtain ⟨t, found⟩ := Option.isSome_iff_exists.mp known
      obtain ⟨own, same, listed⟩ := Keyed.mem_of_find? found
      have other := (List.pairwise_append.mp apart).2.2 _ listed _ List.mem_cons_self
      rw [same] at other
      cases other
    have receives : c.Receives s key := ⟨unfrozen, named, fresh⟩
    have next : exec (Catalog.register s) c = _ := receives.exec_register writable.named
    have later := registered.register checked
    rw [next] at later
    obtain ⟨d, loaded, whole, schemas⟩ := ih later unfrozen (by simpa using apart) others
    refine ⟨d, ?_, whole, by simpa using schemas⟩
    change exec (Step.ofExcept (Schema.ofValue s.definition) >>= Catalog.register >>= fun _ =>
      load (rest.map fun entry => entry.2.definition)) c = _
    rw [writable.ofValue checked, exec_bind, exec_bind, exec_ofExcept]
    dsimp only
    rw [next]
    exact loaded

theorem Registered.ofValue_definition (registered : c.Registered) (writable : c.Writable) :
    ∃ d, ofValue c.definition = .ok d ∧ d.Registered ∧ d.schemas.Perm c.schemas := by
  let ordered : Keyed Key Schema := c.titled.inOrder.map fun entry => (.text entry.1, entry.2)
  have perm : ordered.Perm c.schemas := by
    rw [registered.schemas_eq writable]
    exact c.titled.perm_inOrder.map _
  have apart : ordered.Pairwise fun entry other => (entry.1 == other.1) = false :=
    (perm.pairwise_iff fun other => BEq.comm.trans other).mpr registered.apart
  have each : ∀ entry ∈ ordered, entry.2.Writable ∧ entry.2.Checked ∧
      Key.ofValue entry.2.name = .ok entry.1 := by
    intro entry listed
    have among := perm.mem_iff.mp listed
    exact ⟨writable entry.1 entry.2 among, registered.checked entry.1 entry.2 among⟩
  obtain ⟨d, loaded, whole, schemas⟩ := Registered.empty.exec_load rfl apart each
  refine ⟨d, ?_, whole, ?_⟩
  · have definitions : ordered.map (fun entry => entry.2.definition) =
        c.titled.inOrder.map fun entry => entry.2.definition := List.map_map
    rw [definitions, load] at loaded
    rw [ofValue]
    refine bind_eq_ok.mpr ⟨_, rfl, bind_eq_ok.mpr ⟨_, rfl, ?_⟩⟩
    dsimp only
    rw [loaded]
  · rw [schemas]
    exact perm

/-- A catalog has the same schemas as another one and answers alike. Only the order in which
children are listed may differ. -/
structure Restores (c d : Catalog) : Prop where
  schemas : d.schemas.Perm c.schemas
  found : ∀ key, d.get? key = c.get? key
  parents : ∀ key, d.parentsOf key = c.parentsOf key
  reference : ∀ child parent, d.referField? child parent = c.referField? child parent
  children : ∀ key, (d.childrenOf key).Perm (c.childrenOf key)
  text : ∃ s, c.canonicalText = .ok s ∧ d.canonicalText = .ok s

theorem Registered.restores_of_perm (registered : c.Registered) (registered' : d.Registered)
    (writable : c.Writable) (perm : d.schemas.Perm c.schemas) : c.Restores d := by
  have writable' : d.Writable := fun key s listed => writable key s (perm.mem_iff.mp listed)
  have found := registered.get?_eq_of_perm registered' perm
  have required (key : Key) : d.require key = c.require key := by rw [require, require, found]
  constructor
  case schemas => exact perm
  case found => exact found
  case parents =>
    intro key
    rw [parentsOf, parentsOf, required]
  case reference =>
    intro child parent
    rw [referField?, referField?, required]
  case children =>
    intro key
    have edges : d.edges.Perm c.edges := by
      rw [registered.edges_eq fun key s listed => (writable key s listed).named,
        registered'.edges_eq fun key s listed => (writable' key s listed).named]
      exact perm.flatMap_right edgesOf
    exact (edges.filter _).map _
  case text =>
    refine ⟨c.definition.canonical, ?_, ?_⟩
    · rw [canonicalText, registered.toValue writable]
      rfl
    · rw [canonicalText, registered'.toValue writable',
        registered'.definition_eq_of_perm writable' perm]
      rfl

end Catalog

/-- Fields, schemas and catalogs are read back from their own definitions, whichever of their parts
were left out as they were written. -/
theorem definitions_restored :
    (∀ f : Field, f.check = .ok f → f.Writable →
      ∃ v, f.toValue = .ok v ∧ Field.ofValue v = .ok f) ∧
    (∀ s : Schema, s.Checked → s.Writable →
      ∃ v, s.toValue = .ok v ∧ Schema.ofValue v = .ok s) ∧
    ∀ c : Catalog, c.Registered → c.Writable →
      ∃ v d, c.toValue = .ok v ∧ Catalog.ofValue v = .ok d ∧ c.Restores d := by
  refine ⟨fun f checked writable => ?_, fun s checked writable => ?_,
    fun c registered writable => ?_⟩
  · exact ⟨f.definition, writable.toValue, writable.ofValue checked⟩
  · exact ⟨s.definition, writable.toValue, writable.ofValue checked⟩
  · obtain ⟨d, read, whole, perm⟩ := registered.ofValue_definition writable
    exact ⟨c.definition, d, registered.toValue writable, read,
      registered.restores_of_perm whole writable perm⟩

def placeField : Field where
  name := "place"
  kind := .known .int
  default := .int 0
  min := .int 0

def stepSchema : Schema where
  name := .text "Step"
  fields := [placeField, { name := "after", kind := .known .reference, refer := .text "Step" }]

/-- Zero as a value and as a bound is restored, and so is a reference of a schema to itself. -/
theorem definitions_restored_steps :
    (∃ v, placeField.toValue = .ok v ∧ Field.ofValue v = .ok placeField) ∧
    (∃ v, stepSchema.toValue = .ok v ∧ Schema.ofValue v = .ok stepSchema) ∧
    ∃ c v d, exec (Catalog.register stepSchema) {} = (.ok (), c) ∧
      c.childrenOf (.text "Step") ≠ [] ∧ c.toValue = .ok v ∧ Catalog.ofValue v = .ok d ∧
      c.Restores d := by
  have checked : stepSchema.Checked := by
    refine ⟨rfl, fun f listed => ?_⟩
    rcases List.mem_pair.mp listed with rfl | rfl
    all_goals
      simp [Field.check, Field.isOf, GivenKind.isKind, Field.target?, Field.checkBounds, placeField,
        Value.isTrue, Value.isNull]
  have writable : stepSchema.Writable := by
    refine ⟨⟨"Step", rfl⟩, fun f listed => ?_, ⟨"", rfl⟩⟩
    rcases List.mem_pair.mp listed with rfl | rfl
    · exact ⟨⟨_, rfl⟩, .inl rfl, ⟨"", rfl⟩⟩
    · exact ⟨⟨_, rfl⟩, .inr ⟨"Step", by decide, rfl⟩, ⟨"", rfl⟩⟩
  have first : placeField ∈ stepSchema.fields := List.mem_cons_self
  obtain ⟨fields, schemas, catalogs⟩ := definitions_restored
  obtain ⟨v, d, written, read, restores⟩ := catalogs _ (.register .empty checked)
    fun key s listed => (Prod.mk.inj (List.mem_singleton.mp listed)).2 ▸ writable
  exact ⟨fields placeField (checked.fields _ first) (writable.fields _ first),
    schemas stepSchema checked writable, _, v, d, rfl, List.cons_ne_nil _ _, written, read,
    restores⟩

end RecordRules
