import RecordRules.Proofs.EndlessViews
import RecordRules.Proofs.GeneratedIds
import RecordRules.Proofs.RelatedRecords

/-!
Looking up and looking down. Upwards the fields of a record say where to look; downwards the tables
are searched along the edges that were recorded with the schemas. Main statement: a record is found
upwards from another one exactly if that one is found downwards from it, also where each look-up is
restricted to the schema of the other record.
-/
namespace RecordRules

open Step

namespace Store

/-- Rows can refer to one another: each table has an id once, ids are texts that are not empty, and
what a reference field holds is nothing or a text. -/
structure Referential (c : Catalog) (s : Store) : Prop where
  tidy : s.Tidy
  ids : ∀ r, s.Has r → r.Referable
  fields : ∀ r, s.Has r → ∀ f ∈ c.referFieldsOf r, r.data.Refers f.name

def Reveals (c : Catalog) (s : Store) (r : Record) (scope : Scope) (only : Value) (q : Record) :
    Prop :=
  ∃ found, (exec (related c r scope only) s).1 = .ok found ∧
    ∃ p ∈ found, (p.key == q.key) = true ∧ p.data = q.data

variable {c : Catalog} {s : Store} {child parent q r : Record} {only : Value}

theorem Has.exists_row (stored : s.Has r) :
    ∃ row ∈ s.rows, ((row.1, row.2.1) == r.key) = true ∧ row.2.2 = r.data := by
  unfold Has row? table at stored
  cases found : s.tables.find? r.schema with
  | none =>
    rw [found] at stored
    cases stored
  | some rows =>
    rw [found] at stored
    obtain ⟨schema, schemas, table⟩ := Keyed.mem_of_find? found
    obtain ⟨id, ids, row⟩ := Keyed.mem_of_find? stored
    refine ⟨(schema, id, r.data), ?_, Bool.and_eq_true_iff.mpr ⟨schemas, ids⟩, rfl⟩
    exact List.mem_flatMap.mpr ⟨_, table, List.mem_map.mpr ⟨_, row, rfl⟩⟩

theorem exists_iff_timesIn {found : List Record} (each : ∀ p ∈ found, s.Has p)
    (stored : s.Has q) :
    (∃ p ∈ found, (p.key == q.key) = true ∧ p.data = q.data) ↔ 0 < timesIn found q := by
  rw [timesIn, List.countP_pos_iff]
  constructor
  · rintro ⟨p, listed, same, -⟩
    exact ⟨p, listed, same⟩
  · rintro ⟨p, listed, same⟩
    exact ⟨p, listed, same, (each p listed).data_eq stored same⟩

theorem pos_ite_iff {counts : Bool} {times : Nat} :
    (0 < if counts then times else 0) ↔ counts = true ∧ 0 < times := by
  cases counts with
  | false => simp
  | true => simp

theorem countsFor_self (schema : Key) : countsFor schema.toValue schema.toValue = true := by
  rw [countsFor, Value.same_toValue, BEq.rfl, Bool.or_true]

namespace Referential

variable (referential : s.Referential c)

include referential

theorem reveals_child_iff (registered : c.Registered)
    (linked : ∀ f ∈ c.referFieldsOf child, ∃ key, Key.ofValue f.refer = .ok key)
    (stored : s.Has child) :
    Reveals c s parent .child only child ↔ countsFor only child.schema.toValue = true ∧
      0 < c.mentions child child.data.get parent := by
  have answered : Reveals c s parent .child only child ↔
      ∃ p ∈ s.children c parent only, (p.key == child.key) = true ∧ p.data = child.data := by
    constructor
    · rintro ⟨found, looked, inside⟩
      obtain rfl : s.children c parent only = found := Except.ok.inj looked
      exact inside
    · exact fun inside => ⟨_, rfl, inside⟩
  rw [answered, exists_iff_timesIn (fun _ listed => has_of_child referential.tidy listed) stored,
    timesIn_child registered referential.tidy stored linked, pos_ite_iff]

variable (linked : ∀ f ∈ c.referFieldsOf child, ∃ key, Key.ofValue f.refer = .ok key)
  (unnamed : ∀ r, ∀ f ∈ c.referFieldsOf r, f.name ≠ "id") (stored : s.Has child)

include linked unnamed stored

theorem parent_succeeds (known : c.has child.schema = true) (only : Value) :
    ∃ found, s.relatedTo c child .parent only = .ok found := by
  refine relatedTo_parent_isOk_iff.mpr ⟨known, fun f listed _ whole => ⟨linked f listed, ?_⟩⟩
  rw [Record.get, if_neg (unnamed child f listed)] at whole ⊢
  rcases referential.fields child stored f listed with null | ⟨t, text⟩
  · cases held : child.data.get f.name with
    | null =>
      rw [held] at whole
      cases whole
    | _ =>
      rw [held] at null
      cases null
  · rw [text]
    rfl

theorem reveals_parent_iff (also : s.Has parent) :
    Reveals c s child .parent only parent ↔ countsFor only parent.schema.toValue = true ∧
      0 < c.mentions child child.data.get parent := by
  have held : c.mentions child child.get parent = c.mentions child child.data.get parent := by
    apply List.countP_congr
    intro f listed
    rw [Record.get, if_neg (unnamed child f listed)]
  have whole : parent.id.toValue.isTrue = true := by
    obtain ⟨t, given, some⟩ := referential.ids parent also
    rw [given]
    simpa [Key.toValue, Value.isTrue] using some
  have listed {found : List Record} (looked : s.relatedTo c child .parent only = .ok found) :
      (∃ p ∈ found, (p.key == parent.key) = true ∧ p.data = parent.data) ↔
        countsFor only parent.schema.toValue = true ∧
          0 < c.mentions child child.data.get parent := by
    rw [exists_iff_timesIn (fun _ listed => has_of_parent looked listed) also,
      timesIn_parent looked also, whole, Bool.and_true, held, pos_ite_iff, Nat.lt_min,
      and_iff_right Nat.one_pos]
  constructor
  · rintro ⟨found, looked, inside⟩
    exact (listed looked).mp inside
  · rintro ⟨counts, positive⟩
    obtain ⟨f, declared, -⟩ := List.countP_pos_iff.mp positive
    obtain ⟨schema, known, -⟩ := Catalog.mem_referFieldsOf.mp declared
    have has : c.has child.schema = true := Option.isSome_iff_exists.mpr ⟨schema, known⟩
    obtain ⟨found, looked⟩ := referential.parent_succeeds linked unnamed stored has only
    exact ⟨found, looked, (listed looked).mpr ⟨counts, positive⟩⟩

end Referential

end Store

theorem Engine.Runs.referential {e : Engine} {s : Store} (runs : e.Runs s) :
    s.Referential e.catalog where
  tidy := by
    induction runs with
    | start => exact Store.tidy_empty
    | schema _ _ ih => exact ih
    | stateRule _ _ ih => exact ih
    | augmentation _ _ ih => exact ih
    | action _ _ ih => exact ih
    | freeze _ _ ih => exact ih
    | @call e s call _ _ ih => exact e.perform_moves (R := Stays Store.Tidy) call s ih
  ids r stored := by
    obtain ⟨schema, number, -, -, generated⟩ := runs.numbered.issued stored
    exact ⟨_, generated, Store.generatedId_ne_empty schema number⟩
  fields r stored f listed := by
    obtain ⟨schema, known, refers⟩ := runs.fits.2.row? stored
    obtain ⟨other, also, declared⟩ := Catalog.mem_referFieldsOf.mp listed
    obtain rfl := Option.some.inj (known.symm.trans also)
    exact refers f declared

namespace Store

variable {c : Catalog} {s : Store} {child parent : Record}

theorem loans_referential : loans.Referential .loans where
  tidy := loans_tidy
  ids r stored := by
    obtain ⟨row, listed, same, -⟩ := stored.exists_row
    have texts : ∀ row ∈ loans.rows, ∃ t, row.2.1 = .text t ∧ t ≠ "" := by
      simp [loans, rows]
    obtain ⟨t, text, some⟩ := texts row listed
    obtain ⟨-, ids⟩ := Bool.and_eq_true_iff.mp same
    rw [text] at ids
    exact ⟨t, Key.eq_text ids, some⟩
  fields r stored f declared := by
    obtain ⟨row, listed, same, held⟩ := stored.exists_row
    have links : ∀ row ∈ loans.rows, ∃ t, row.1 = .text t ∧
        ∀ f ∈ Catalog.loans.referFieldsOf ⟨.text t, row.2.1, row.2.2⟩,
          row.2.2.Refers f.name := by
      have loan (id : Key) (data : Entries) :
          Catalog.loans.referFieldsOf ⟨.text "Loan", id, data⟩ = loanSchema.fields := rfl
      simp [loans, rows, loan, loanSchema, Entries.Refers, Entries.get, Keyed.find?,
        Value.isNull]
    obtain ⟨t, text, refers⟩ := links row listed
    obtain ⟨schemas, -⟩ := Bool.and_eq_true_iff.mp same
    rw [text] at schemas
    rw [← held]
    rw [Catalog.referFieldsOf, Key.eq_text schemas] at declared
    exact refers f declared

/-- Whatever schemas were registered, and whatever is stored: of two stored records, one is found
upwards from the other exactly if the other is found downwards from it. This takes that all the
references of the lower one's schema name keys, as texts do: otherwise its registration fails and
is given up halfway. Nothing is lost where each look-up is restricted to the schema of the record
that it is to find. Downwards a look-up always answers, and upwards it does if the schema is
known. -/
theorem related_dual (registered : c.Registered)
    (linked : ∀ f ∈ c.referFieldsOf child, ∃ key, Key.ofValue f.refer = .ok key)
    (unnamed : ∀ r, ∀ f ∈ c.referFieldsOf r, f.name ≠ "id") (referential : s.Referential c)
    (stored : s.Has child) (also : s.Has parent) :
    (Reveals c s child .parent .null parent ↔ Reveals c s parent .child .null child) ∧
    (Reveals c s child .parent parent.schema.toValue parent ↔
      Reveals c s parent .child child.schema.toValue child) ∧
    (Reveals c s child .parent .null parent ↔
      Reveals c s child .parent parent.schema.toValue parent) ∧
    ∀ only, (∃ found, (exec (related c parent .child only) s).1 = .ok found) ∧
      (c.has child.schema = true →
        ∃ found, (exec (related c child .parent only) s).1 = .ok found) := by
  have up (only : Value) (counts : countsFor only parent.schema.toValue = true) :
      Reveals c s child .parent only parent ↔ 0 < c.mentions child child.data.get parent := by
    rw [referential.reveals_parent_iff linked unnamed stored also, and_iff_right counts]
  have down (only : Value) (counts : countsFor only child.schema.toValue = true) :
      Reveals c s parent .child only child ↔ 0 < c.mentions child child.data.get parent := by
    rw [referential.reveals_child_iff registered linked stored, and_iff_right counts]
  refine ⟨?_, ?_, ?_, fun only => ⟨⟨_, rfl⟩, fun known => ?_⟩⟩
  · rw [up .null rfl, down .null rfl]
  · rw [up _ (countsFor_self _), down _ (countsFor_self _)]
  · rw [up .null rfl, up _ (countsFor_self _)]
  · exact referential.parent_succeeds linked unnamed stored known only

theorem related_dual_loans :
    let ann : Record := ⟨.text "Person", .text "ann", []⟩
    let second : Record := ⟨.text "Loan", .text "second",
      [("lender", .text "ann"), ("borrower", .text "ann"), ("renews", .text "first")]⟩
    Reveals .loans loans ann .child .null second ∧
      Reveals .loans loans second .parent (.text "Person") ann := by
  intro ann second
  have unnamed (r : Record) (f : Field) (declared : f ∈ Catalog.loans.referFieldsOf r) :
      f.name ≠ "id" := by
    obtain ⟨schema, known, listed⟩ := Catalog.mem_referFieldsOf.mp declared
    obtain ⟨key, -, among⟩ := Keyed.mem_of_find? known
    have each : ∀ entry ∈ Catalog.loans.schemas, ∀ f ∈ entry.2.referFields, f.name ≠ "id" := by
      decide
    exact each _ among f listed
  have up : Reveals .loans loans second .parent .null ann :=
    ⟨[ann, _], rfl, ann, List.mem_cons_self, rfl, rfl⟩
  have linked (f : Field) (listed : f ∈ Catalog.loans.referFieldsOf second) :
      ∃ key, Key.ofValue f.refer = .ok key := Catalog.loans_linkable.named listed
  have stored : loans.Has second ∧ loans.Has ann := ⟨rfl, rfl⟩
  have dual := related_dual Catalog.loans_registered linked unnamed loans_referential stored.1
    stored.2
  exact ⟨dual.1.mp up, dual.2.2.1.mp up⟩

end Store

end RecordRules
