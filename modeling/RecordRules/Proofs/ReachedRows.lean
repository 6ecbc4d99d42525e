import RecordRules.Proofs.QuietRuns
import RecordRules.Proofs.StateCheck
import RecordRules.Proofs.TargetSchemas

/-!
Rows of engines in use. What the reference fields of a stored row hold is nothing or a text, so
that the related records of stored records can always be looked up, and their states be computed.
-/
namespace RecordRules

open Step

theorem Field.isNull_or_text_of_complaint? {f : Field} (kind : f.kind = .known .reference)
    {v : Value} (accepted : f.complaint? v = .ok none) : v.isNull = true ∨ ∃ t, v = .text t := by
  by_cases null : v.isNull = true
  · exact .inl null
  · right
    unfold complaint? at accepted
    rw [if_neg null, kind] at accepted
    dsimp only at accepted
    split at accepted
    · rename_i text
      cases v with
      | text t => exact ⟨t, rfl⟩
      | _ => cases text
    · cases accepted

def Entries.Refers (data : Entries) (name : String) : Prop :=
  (data.get name).isNull = true ∨ ∃ t, data.get name = .text t

theorem Entries.refers_of_fieldComplaint? {data : Entries} {f : Field}
    (kind : f.kind = .known .reference)
    (accepted : Schema.fieldComplaint? data false [] f = .ok none) : data.Refers f.name := by
  rw [Schema.fieldComplaint?_whole] at accepted
  unfold Refers get
  cases found : data.find? f.name with
  | none => exact .inl rfl
  | some v =>
    rw [found] at accepted
    exact Field.isNull_or_text_of_complaint? kind accepted

namespace Catalog

/-- The schema is registered, and all its reference fields hold nothing or a text. -/
def Links (c : Catalog) (schema : Key) (data : Entries) : Prop :=
  ∃ s, c.get? schema = some s ∧ ∀ f ∈ s.referFields, data.Refers f.name

instance {c : Catalog} : RowProperty c.Links where
  congr same links := by
    obtain ⟨s, found, refers⟩ := links
    refine ⟨s, ?_, refers⟩
    rw [get?, Keyed.find?_congr same]
    exact found

theorem Links.mono {c next : Catalog} (grows : c.Grows next) {schema : Key} {data : Entries}
    (links : c.Links schema data) : next.Links schema data := by
  obtain ⟨s, found, refers⟩ := links
  exact ⟨s, grows schema s found, refers⟩

end Catalog

theorem Store.Upholds.mono {P Q : Key → Entries → Prop} {s : Store} (upholds : s.Upholds P)
    (weaker : ∀ schema data, P schema data → Q schema data) : s.Upholds Q where
  rows schema rows listed id data member :=
    weaker schema data (upholds.rows schema rows listed id data member)
  saved scope opened schema rows listed id data member :=
    weaker schema data (upholds.saved scope opened schema rows listed id data member)

namespace Traversal

section

variable {view : Record → Except Failure (List Record)} {Q : Record → Prop} {start : Record}
  {limit : Nat}

theorem mem_level_take {records : List Record} {front : Front} {r : Record}
    (member : r ∈ (take start limit records front).level) : r ∈ front.level ∨ r ∈ records := by
  induction records generalizing front with
  | nil => exact .inl member
  | cons first rest ih =>
    have later (more : r ∈ (front.add [first]).level ∨ r ∈ rest) :
        r ∈ front.level ∨ r ∈ first :: rest := by
      rcases more with found | listed
      · rcases List.mem_append.mp found with old | new
        · exact .inl old
        · exact .inr (List.mem_cons.mpr (.inl (List.mem_singleton.mp new)))
      · exact .inr (List.mem_cons_of_mem first listed)
    rw [take_cons] at member
    split at member
    · exact (ih member).imp_right (List.mem_cons_of_mem first)
    · split at member
      · exact later (.inl member)
      · exact later (ih member)

variable (answers : ∀ r, Q r → ∃ found, view r = .ok found ∧ ∀ q ∈ found, Q q)

include answers

theorem expand_succeeds {level : List Record} {front : Front} (each : ∀ r ∈ level, Q r)
    (found : ∀ r ∈ front.level, Q r) :
    ∃ grown, expand view start limit level front = .ok grown ∧ ∀ r ∈ grown.level, Q r := by
  induction level generalizing front with
  | nil => exact ⟨front, rfl, found⟩
  | cons r rest ih =>
    obtain ⟨near, looked, related⟩ := answers r (each r List.mem_cons_self)
    have taken : ∀ q ∈ (take start limit near front).level, Q q := by
      intro q member
      rcases mem_level_take member with old | new
      · exact found q old
      · exact related q new
    by_cases full : limit ≤ (take start limit near front).found.length
    · exact ⟨_, expand_cons_ok.mpr ⟨near, looked, by rw [if_pos full]⟩, taken⟩
    · obtain ⟨grown, went, later⟩ :=
        ih (fun q listed => each q (List.mem_cons_of_mem r listed)) taken
      exact ⟨grown, expand_cons_ok.mpr ⟨near, looked, by rw [if_neg full, went]⟩, later⟩

theorem levels_succeeds {rounds : Nat} {level found : List Record} (each : ∀ r ∈ level, Q r) :
    ∃ all, levels view start limit rounds level found = .ok all := by
  induction rounds generalizing level found with
  | zero => exact ⟨found, rfl⟩
  | succ rounds ih =>
    cases level with
    | nil => exact ⟨found, rfl⟩
    | cons r rest =>
      by_cases full : limit ≤ found.length
      · exact ⟨found, levels_of_full full⟩
      · have expanded : ∃ grown, expand view start limit (r :: rest) ⟨found, []⟩ = .ok grown ∧
            ∀ q ∈ grown.level, Q q :=
          expand_succeeds answers each fun q none => by cases none
        obtain ⟨front, went, next⟩ := expanded
        obtain ⟨all, ended⟩ := @ih front.level front.found next
        exact ⟨all, (levels_succ_cons_ok (Nat.not_le.mp full)).mpr ⟨front, went, ended⟩⟩

theorem reached_succeeds (known : Q start) (extent : Extent) :
    ∃ all, reached view start extent = .ok all := by
  unfold reached
  split
  · exact ⟨[], rfl⟩
  · exact levels_succeeds answers fun r only => List.mem_singleton.mp only ▸ known

end

end Traversal

namespace Store

variable {c : Catalog} {s : Store}

def Has (s : Store) (r : Record) : Prop := s.row? r.schema r.id = some r.data

theorem has_of_peek? {schema id : Key} {r : Record} (found : s.peek? schema id = some r) :
    s.Has r := by
  obtain ⟨data, stored, rfl⟩ := Option.map_eq_some_iff.mp found
  exact stored

theorem parentAlong_succeeds {r : Record} {f : Field}
    (named : ∃ parent, Key.ofValue f.refer = .ok parent) (refers : r.data.Refers f.name) :
    ∃ parent, s.parentAlong r f = .ok parent ∧ ∀ q, parent = some q → s.Has q := by
  obtain ⟨schema, named⟩ := named
  unfold parentAlong
  by_cases given : (r.get f.name).isTrue = true
  · have key : (r.get f.name).isKey = true := by
      by_cases same : f.name = "id"
      · rw [Record.get, if_pos same]
        cases r.id <;> rfl
      · rw [Record.get, if_neg same] at given ⊢
        rcases refers with null | ⟨t, text⟩
        · cases held : r.data.get f.name with
          | null =>
            rw [held] at given
            cases given
          | _ =>
            rw [held] at null
            cases null
        · rw [text]
          rfl
    refine ⟨(r.get f.name).key?.bind fun id => s.peek? schema id, ?_, ?_⟩
    · simp only [given, key, named, bind, Except.bind, Bool.not_true, Bool.false_eq_true,
        ↓reduceIte]
      rfl
    · intro q found
      obtain ⟨id, -, found⟩ := Option.bind_eq_some_iff.mp found
      exact has_of_peek? found
  · refine ⟨none, ?_, fun q found => by cases found⟩
    simp only [given, Bool.not_false, ↓reduceIte]
    rfl

variable (references : ∀ key schema, (key, schema) ∈ c.schemas → ∀ f ∈ schema.referFields,
    ∃ parent, Key.ofValue f.refer = .ok parent)

include references

theorem relatedTo_parent_succeeds {r : Record} (here : c.Links r.schema r.data) :
    ∃ found, s.relatedTo c r .parent .null = .ok found ∧ ∀ q ∈ found, s.Has q := by
  obtain ⟨schema, known, refers⟩ := here
  obtain ⟨key, -, listed⟩ := Keyed.mem_of_find? known
  have along (f : Field) (wanted : f ∈ schema.referFields.filter fun f => countsFor .null f.refer) :
      ∃ parent, s.parentAlong r f = .ok parent ∧ ∀ q, parent = some q → s.Has q := by
    have refer := (List.mem_filter.mp wanted).1
    exact parentAlong_succeeds (references key schema listed f refer) (refers f refer)
  obtain ⟨referred, looked⟩ := exists_mapM_eq_ok fun f wanted => by
    obtain ⟨parent, found, -⟩ := along f wanted
    exact ⟨parent, found⟩
  refine ⟨distinctRecords (referred.filterMap id), ?_, fun q member => ?_⟩
  · have required : c.require r.schema = .ok schema := by
      rw [Catalog.require, known]
    unfold relatedTo parents
    simp only [required, looked, bind, Except.bind]
    rfl
  · obtain ⟨parent, inside, present⟩ := List.mem_filterMap.mp (mem_of_mem_distinctRecords member)
    obtain ⟨f, wanted, answered⟩ := exists_of_mem_mapM looked inside
    obtain ⟨other, found, has⟩ := along f wanted
    obtain rfl := Except.ok.inj (found.symm.trans answered)
    exact has q present

/-- All related records of a record can be loaded, in both directions, whether it is stored or is
yet to be. -/
theorem collect_succeeds (links : s.Upholds c.Links) {r : Record}
    (here : c.Links r.schema r.data) (direction : Direction) (extent : Extent) :
    ∃ all, (exec (Traversal.collect c direction r extent) s).1 = .ok all := by
  have reads := Traversal.reached_yields
    (fun r => related_yields s c r direction.scope .null) r extent s rfl
  unfold Traversal.collect
  rw [reads.1]
  cases direction with
  | up =>
    have answers (q : Record) (refers : c.Links q.schema q.data) :
        ∃ found, s.relatedTo c q .parent .null = .ok found ∧
          ∀ p ∈ found, c.Links p.schema p.data := by
      obtain ⟨found, looked, has⟩ := relatedTo_parent_succeeds references refers
      exact ⟨found, looked, fun p member => links.row? (has p member)⟩
    exact Traversal.reached_succeeds answers here extent
  | down =>
    have answers (q : Record) (_ : True) :
        ∃ found, s.relatedTo c q .child .null = .ok found ∧ ∀ p ∈ found, True :=
      ⟨_, rfl, fun _ _ => trivial⟩
    exact Traversal.reached_succeeds answers trivial extent

end Store

namespace Engine

variable {e : Engine} {s : Store}

theorem imparts_links (registered : e.catalog.Registered) : e.Imparts e.catalog.Links where
  created schema p parent built accepted placed found := by
    obtain ⟨checked, -⟩ := registered.of_get? found
    refine ⟨_, found, fun f refer => ?_⟩
    obtain ⟨listed, target⟩ := List.mem_filter.mp refer
    by_cases back : p.contract.referBack = some f.name
    · obtain ⟨t, -, held⟩ := find?_initialValues_back placed back
      exact .inr ⟨t, by rw [Entries.get, held]; rfl⟩
    · exact Entries.refers_of_fieldComplaint? (Field.kind_of_check (checked.fields f listed) target)
        (fieldComplaint?_initialValues parent checked built accepted listed back)
  accepted schema s data found accepted := by
    obtain ⟨checked, -⟩ := registered.of_get? found
    obtain ⟨-, fields⟩ := Schema.complaints_eq_nil_iff.mp accepted
    refine ⟨s, found, fun f refer => ?_⟩
    obtain ⟨listed, target⟩ := List.mem_filter.mp refer
    have kind := Field.kind_of_check (checked.fields f listed) target
    exact Entries.refers_of_fieldComplaint? kind (fields f listed)

theorem Runs.fits (runs : e.Runs s) : e.Built ∧ s.Upholds e.catalog.Links := by
  induction runs with
  | start settings => exact ⟨.start settings, Store.upholds_empty _⟩
  | schema before ran ih =>
    obtain ⟨built, grows⟩ := ih.1.addSchema ran
    exact ⟨built, ih.2.mono fun _ _ => Catalog.Links.mono grows⟩
  | stateRule before ran ih =>
    obtain ⟨built, same⟩ := ih.1.addStateRule ran
    rw [same]
    exact ⟨built, ih.2⟩
  | augmentation before ran ih =>
    obtain ⟨built, same⟩ := ih.1.addAugmentation ran
    rw [same]
    exact ⟨built, ih.2⟩
  | action before ran ih =>
    obtain ⟨actions, rfl⟩ := addAction_ok ran
    obtain ⟨⟨quiet, rules, catalog, references, aliases⟩, links⟩ := ih
    exact ⟨⟨quiet, rules, catalog, references, aliases⟩, links⟩
  | freeze before ran ih =>
    obtain ⟨built, same⟩ := ih.1.freeze ran
    have grows := Catalog.grows_of_append (same.trans (List.append_nil _).symm)
    exact ⟨built, ih.2.mono fun _ _ => Catalog.Links.mono grows⟩
  | call before proper ih =>
    obtain ⟨built, links⟩ := ih
    exact ⟨built, perform_upholds (imparts_links built.catalog) built.quiet built.catalog proper _
      links⟩

theorem Runs.create_of_inserted (before : e.Runs s) {schema : Key} {payload : Value}
    (proper : payload.isProper = true) {placement : Placement} {contract : Contract}
    {tree : Payload} {records : List Record} {start : Store}
    (composed : e.compose schema .create placement = .ok contract)
    (valid : e.contracts.validate e.catalog contract payload = .ok tree)
    (inserted : exec (e.insertTree tree none) s.enter = (.ok records, start)) :
    e.Runs (start.leave false) := by
  obtain ⟨cascade, ended⟩ :=
    propagate_quiet before.fits.1.quiet (records.map Event.created) start
  have created : (exec (e.perform (.create schema payload placement)) s).2 =
      start.leave false := by
    simp only [perform, create, composed, valid, exec_bind, exec_ofExcept, Store.transaction,
      exec_of, inserted, ended]
    rfl
  rw [← created]
  exact .call before proper

/-- The state that a record has, by all its related records. -/
def HasState (e : Engine) (s : Store) (r : Record) (state : RecordState) : Prop :=
  ∃ up down, (exec (Traversal.collect e.catalog .up r .all) s).1 = .ok up ∧
    (exec (Traversal.collect e.catalog .down r .all) s).1 = .ok down ∧
      RecordState.compute e.catalog e.rules r up down = .ok state

theorem exists_hasState (built : e.Built) (links : s.Upholds e.catalog.Links) {r : Record}
    (here : e.catalog.Links r.schema r.data) :
    ∃ state, e.HasState s r state ∧ (exec (e.stateOf r) s).1 = .ok state := by
  obtain ⟨up, above⟩ := Store.collect_succeeds built.references links here .up .all
  obtain ⟨down, below⟩ := Store.collect_succeeds built.references links here .down .all
  obtain ⟨schema, known, -⟩ := here
  have has : e.catalog.has r.schema = true := Option.isSome_iff_exists.mpr ⟨schema, known⟩
  obtain ⟨state, computed, loaded⟩ :=
    e.stateOf_eq_compute built.rules r has s up down above below
  exact ⟨state, ⟨up, down, above, below, computed⟩, loaded⟩

theorem HasState.unique {r : Record} {state other : RecordState} (has : e.HasState s r state)
    (also : e.HasState s r other) : state = other := by
  obtain ⟨up, down, above, below, computed⟩ := has
  obtain ⟨others, more, higher, under, same⟩ := also
  obtain rfl := Except.ok.inj (above.symm.trans higher)
  obtain rfl := Except.ok.inj (below.symm.trans under)
  exact Except.ok.inj (computed.symm.trans same)

theorem Runs.hasState_iff (runs : e.Runs s) {r : Record} (stored : s.Has r) (state : RecordState) :
    e.HasState s r state ↔ (exec (e.stateOf r) s).1 = .ok state := by
  obtain ⟨built, links⟩ := runs.fits
  obtain ⟨given, has, loaded⟩ := exists_hasState built links (links.row? stored)
  constructor
  · intro also
    rw [loaded, has.unique also]
  · intro answered
    obtain rfl := Except.ok.inj (loaded.symm.trans answered)
    exact has

end Engine

end RecordRules
