import Mathlib.Logic.Relation
import RecordRules.Proofs.CreatedTrees
import RecordRules.Proofs.ReachedRows
import RecordRules.Proofs.Rendering

/-!
Views that end and views that do not. A view follows the references of stored rows, and nothing
keeps these from leading in a circle. Main statement: a view ends, within one level for each stored
row and one more, unless a record that is nested in it is shown within itself; then no number of
levels is enough for it.
-/
namespace RecordRules

open Relation Step

def Store.rows (s : Store) : List (Key × Key × Entries) :=
  s.tables.flatMap fun (schema, rows) => rows.map fun (id, data) => (schema, id, data)

theorem Store.length_rows (s : Store) : s.rows.length = s.size := by
  rw [rows, size, List.length_flatMap, List.length_flatMap]
  congr 2
  funext ⟨_, rows⟩
  exact List.length_map _

def Record.Occupies (r : Record) (row : Key × Key × Entries) : Prop :=
  (row.1 == r.schema) = true ∧ row.2 = (r.id, r.data)

namespace Engine

variable {e : Engine} {s : Store} {placement : Placement} {r q : Record}

/-- Below a record, another one is shown that is nested in itself. -/
def Endless (e : Engine) (s : Store) (placement : Placement) (r : Record) : Prop :=
  ∃ first q, e.Nests s placement r first ∧ ReflTransGen (e.Nests s .nested) first q ∧
    TransGen (e.Nests s .nested) q q

theorem Ends.acyclic {levels : Nat} (ends : e.Ends s levels .nested r)
    (below : ReflTransGen (e.Nests s .nested) r q) : ¬ TransGen (e.Nests s .nested) q q := by
  induction levels generalizing r q with
  | zero => exact ends.elim
  | succ levels ih =>
    intro circle
    rcases ReflTransGen.cases_head below with rfl | ⟨next, nests, rest⟩
    · obtain ⟨next, nests, back⟩ := TransGen.head'_iff.mp circle
      exact ih (ends next nests) .refl (TransGen.tail' back nests)
    · exact ih (ends next nests) rest circle

theorem Ends.not_endless {levels : Nat} (ends : e.Ends s levels placement r) :
    ¬ e.Endless s placement r := by
  rintro ⟨first, q, nests, below, circle⟩
  cases levels with
  | zero => exact ends.elim
  | succ levels => exact (ends first nests).acyclic below circle

def IsShown (e : Engine) (s : Store) (q : Record) : Prop := ∃ placement r, e.Nests s placement r q

theorem IsShown.stored (fits : e.Fits) (shown : e.IsShown s q) :
    (∃ t, (q.schema, t) ∈ e.catalog.schemas) ∧ ∃ row ∈ s.rows, q.Occupies row := by
  obtain ⟨placement, r, k, -, child, -, inside⟩ := shown
  obtain ⟨edge, listed, -, -, among⟩ := Store.mem_children.mp inside
  obtain ⟨⟨id, data, present, rfl⟩, -⟩ := Store.mem_referring.mp among
  obtain ⟨-, t, known, -⟩ := fits.catalog.linked.edges edge listed
  refine ⟨⟨t, known⟩, ?_⟩
  unfold Store.table at present
  cases found : s.tables.find? edge.child with
  | none =>
    rw [found] at present
    cases present
  | some rows =>
    rw [found] at present
    obtain ⟨name, same, table⟩ := Keyed.mem_of_find? found
    refine ⟨(name, id, data), ?_, same, rfl⟩
    exact List.mem_flatMap.mpr ⟨_, table, List.mem_map.mpr ⟨_, present, rfl⟩⟩

theorem length_le_size (fits : e.Fits) {path : List Record} (distinct : path.Nodup)
    (shown : ∀ q ∈ path, e.IsShown s q) : path.length ≤ s.size := by
  have apart : path.Pairwise fun q p => ∀ row ∈ s.rows, q.Occupies row → ¬ p.Occupies row := by
    refine distinct.imp_of_mem fun {q p} hq hp apart row _ here there => apart ?_
    obtain ⟨⟨t, known⟩, -⟩ := (shown q hq).stored fits
    obtain ⟨⟨u, also⟩, -⟩ := (shown p hp).stored fits
    obtain ⟨schemas, -⟩ := fits.catalog.eq_of_same known also
      (PartialEquivBEq.trans (BEq.symm here.1) there.1)
    obtain ⟨ids, data⟩ := Prod.mk.inj (here.2.symm.trans there.2)
    cases q
    cases p
    simp_all only
  rw [← s.length_rows]
  exact length_le_of_related apart fun q listed => ((shown q listed).stored fits).2

/-- Below a path of different records, as many levels are enough as there are other rows. -/
theorem ends_below (fits : e.Fits) {path : List Record} (distinct : path.Nodup)
    (shown : ∀ p ∈ path, e.IsShown s p) (here : e.IsShown s q)
    (above : ∀ p ∈ path, TransGen (e.Nests s .nested) p q)
    (acyclic : ∀ p, ReflTransGen (e.Nests s .nested) q p → ¬ TransGen (e.Nests s .nested) p p) :
    e.Ends s (s.size - path.length) .nested q := by
  -- The path grows by one record on each level, and it cannot be longer than there are rows.
  induction left : s.size - path.length generalizing path q with
  | zero =>
    have longer := length_le_size fits
      (List.nodup_cons.mpr ⟨fun again => acyclic q .refl (above q again), distinct⟩)
      (List.forall_mem_cons.mpr ⟨here, shown⟩)
    rw [List.length_cons] at longer
    omega
  | succ levels ih =>
    intro next nests
    have longer : s.size - (q :: path).length = levels := by
      rw [List.length_cons]
      omega
    refine ih
      (List.nodup_cons.mpr ⟨fun again => acyclic q .refl (above q again), distinct⟩)
      (List.forall_mem_cons.mpr ⟨here, shown⟩) ⟨_, q, nests⟩ ?_ ?_ longer
    · exact List.forall_mem_cons.mpr ⟨.single nests, fun p listed => (above p listed).tail nests⟩
    · exact fun p below => acyclic p (.head nests below)

theorem ends_of_not_endless (fits : e.Fits) (ending : ¬ e.Endless s placement r) :
    e.Ends s (s.size + 1) placement r := by
  intro first nests
  refine ends_below fits .nil (fun p none => absurd none List.not_mem_nil) ⟨placement, r, nests⟩
    (fun p none => absurd none List.not_mem_nil) fun p below circle => ?_
  exact ending ⟨first, p, nests, below, circle⟩

theorem exec_view_of_compose {schema id : Key} {data : Entries} {k : Contract}
    (stored : s.row? schema id = some data) (composed : e.compose schema .view placement = .ok k) :
    exec (e.view schema id placement) s =
      exec (e.viewWithin (s.size + 1) k ⟨schema, id, data⟩)
        { s with trace := s.trace ++ [(.get, schema)] } := by
  unfold view viewRecord
  rw [exec_bind, Store.exec_require, stored]
  simp only [composed, exec_bind, exec_ofExcept, exec_get]
  rfl

theorem views_of_compose {schema : Key} {k : Contract}
    (composed : e.compose schema .view placement = .ok k) (id : Key) (data : Entries) :
    e.Views k ⟨schema, id, data⟩ ∧ k.placement = placement := by
  obtain ⟨t, found, rfl⟩ := compose_eq_ok.mp composed
  refine ⟨⟨composes_contractOf found _ _ _, ContractBook.contractOf_target _ _ _ _ _, ?_⟩,
    ContractBook.contractOf_placement _ _ _ _ _⟩
  rw [ContractBook.contractOf_schema, found]

section

variable {schema id : Key} {data : Entries} {k : Contract}
  (fits : e.Fits) (stored : s.row? schema id = some data)
  (composed : e.compose schema .view placement = .ok k)

include fits stored composed

theorem exec_view_of_ends {levels : Nat} (ends : e.Ends s levels placement ⟨schema, id, data⟩)
    (enough : levels ≤ s.size + 1) {below : Contract → Record → Step Store Value} {more : Nat}
    (beyond : levels ≤ more) :
    exec (e.view schema id placement) s =
      exec (Store.require schema id >>= e.rendered^[more] below k) s := by
  obtain ⟨views, placed⟩ := views_of_compose composed id data
  have same : Store.SameRows s { s with trace := s.trace ++ [(.get, schema)] } := rfl
  rw [← placed] at ends
  rw [exec_view_of_compose stored composed, exec_bind, Store.exec_require, stored,
    viewWithin_eq_iterate]
  exact (agrees_of_ends fits views ends enough beyond _ same).1

theorem ends_of_answer {levels : Nat} {v : Value} {t : Store}
    (ran : exec (Store.require schema id >>= e.viewWithin levels k) s = (.ok v, t)) :
    e.Ends s levels placement ⟨schema, id, data⟩ := by
  obtain ⟨views, placed⟩ := views_of_compose composed id data
  have same : Store.SameRows s { s with trace := s.trace ++ [(.get, schema)] } := rfl
  rw [exec_bind, Store.exec_require, stored] at ran
  have ends := ends_of_viewWithin fits views same ran
  rwa [placed] at ends

theorem exec_view_of_answer {levels : Nat} (enough : s.size < levels) {v : Value} {t : Store}
    (ran : exec (Store.require schema id >>= e.viewWithin levels k) s = (.ok v, t)) :
    exec (e.view schema id placement) s = (.ok v, t) := by
  have ends := ends_of_answer fits stored composed ran
  rw [exec_view_of_ends fits stored composed (ends_of_not_endless fits ends.not_endless) le_rfl
    enough, ← viewWithin_eq_iterate]
  exact ran

end

theorem update_of_quiet (quiet : e.rules.reactions = []) {schema id : Key} {updates : Value}
    {definition : Schema} {data : Entries} {current written : Record} {before after : Store}
    (known : e.catalog.require schema = .ok definition)
    (read : e.readUpdates schema updates = .ok data)
    (found : exec (Store.require schema id) s.enter = (.ok current, before))
    (differs : ¬(current.changes data).isEmpty = true)
    (overwritten : exec (e.overwrite definition current (current.changes data)) before =
      (.ok written, after)) :
    ∃ cascade, exec (e.update schema id updates) s =
      (.ok ⟨written, some cascade⟩, after.leave false) := by
  obtain ⟨cascade, propagated⟩ := propagate_quiet quiet
    [.modifiedOf written (current.changes data).names] after
  refine ⟨cascade, ?_⟩
  rw [update_eq]
  refine exec_ofExcept_bind_eq_ok.mpr ⟨definition, known, ?_⟩
  refine exec_ofExcept_bind_eq_ok.mpr ⟨data, read, ?_⟩
  refine Store.exec_transaction_eq_ok.mpr ⟨after, ?_, rfl⟩
  refine exec_bind_eq_ok.mpr ⟨current, before, found, ?_⟩
  rw [revise_of_not_isEmpty differs]
  refine exec_bind_eq_ok.mpr ⟨written, after, overwritten, ?_⟩
  exact exec_bind_eq_ok.mpr ⟨cascade, after, propagated, rfl⟩

/-- The view of a stored record is what rendering it comes to with any greater number of levels than
there are rows, whatever would be rendered below them, if nothing that is shown is nested in itself.
If something is, then rendering answers nothing, however many levels there are. -/
theorem view_ends (e : Engine) (registered : e.Registered) (s : Store) (schema id : Key)
    (data : Entries) (stored : s.row? schema id = some data) (placement : Placement) (k : Contract)
    (composed : e.compose schema .view placement = .ok k) :
    (¬ e.Endless s placement ⟨schema, id, data⟩ → ∀ below levels, s.size < levels →
      exec (e.view schema id placement) s =
        exec (Store.require schema id >>= e.rendered^[levels] below k) s) ∧
    (e.Endless s placement ⟨schema, id, data⟩ → ∀ levels v t,
      exec (Store.require schema id >>= e.viewWithin levels k) s ≠ (.ok v, t)) := by
  have fits := registered.fits
  refine ⟨fun ending below levels enough => ?_, fun endless levels v t ran => ?_⟩
  · exact exec_view_of_ends fits stored composed (ends_of_not_endless fits ending) le_rfl enough
  · exact (ends_of_answer fits stored composed ran).not_endless endless

theorem folders_nests_iff {id : Key} {data : Entries} :
    folders.Nests s placement ⟨.text "Folder", id, data⟩ q ↔
      q ∈ s.children folders.catalog ⟨.text "Folder", id, data⟩ (.text "Folder") := by
  constructor
  · rintro ⟨k, composed, child, listed, inside⟩
    cases placement <;>
    · obtain rfl := Except.ok.inj composed
      obtain rfl := List.mem_singleton.mp listed
      exact inside
  · intro inside
    cases placement <;> exact ⟨_, rfl, _, List.mem_singleton_self _, inside⟩

def inItself : Entries := [("title", .text "new"), ("within", .text "folder_000000000001")]

def circle (trace : List (Access × Key)) : Store :=
  { tables := [(.text "Folder", [(.text "folder_000000000001", inItself)])], issued := 1, trace }

theorem circle_endless (trace : List (Access × Key)) :
    folders.Endless (circle trace) .alone
      ⟨.text "Folder", .text "folder_000000000001", inItself⟩ := by
  let folder : Record := ⟨.text "Folder", .text "folder_000000000001", inItself⟩
  have itself (placement : Placement) : folders.Nests (circle trace) placement folder folder :=
    folders_nests_iff.mpr (List.mem_singleton_self folder)
  exact ⟨folder, folder, itself .alone, .refl, .single (itself .nested)⟩

theorem view_ends_folders :
    let plain : Store := { tables := [(.text "Folder",
      [(.text "a", []), (.text "b", [("within", .text "a")])])] }
    ∃ k, folders.compose (.text "Folder") .view .alone = .ok k ∧
      (∀ below levels, 2 < levels → exec (folders.view (.text "Folder") (.text "a")) plain =
        exec (Store.require (.text "Folder") (.text "a") >>= folders.rendered^[levels] below k)
          plain) ∧
      ∀ levels v t, exec (Store.require (.text "Folder") (.text "folder_000000000001") >>=
        folders.viewWithin levels k) (circle []) ≠ (.ok v, t) := by
  intro plain
  refine ⟨_, rfl, ?_, ?_⟩
  · refine (view_ends folders folders_registered plain _ _ [] rfl .alone _ rfl).1 ?_
    have ends : folders.Ends plain 2 .alone ⟨.text "Folder", .text "a", []⟩ := by
      intro q nests
      obtain rfl := List.mem_singleton.mp (folders_nests_iff.mp nests)
      intro p nests
      exact absurd (folders_nests_iff.mp nests) List.not_mem_nil
    exact ends.not_endless
  · exact (view_ends folders folders_registered (circle []) _ _ inItself rfl .alone _ rfl).2
      (circle_endless [])

theorem runs_circle : ∃ trace, folders.Runs (circle trace) := by
  let title : Field := { name := "title", kind := .known .text, default := .text "new" }
  let refers : Field := { name := "within", kind := .known .reference, refer := .text "Folder" }
  let folder : Schema := { name := .text "Folder", fields := [title, refers] }
  let contract : Contract :=
    { schema := folder, target := .create, placement := .alone, ownFields := ["title", "within"]
      children := [{ schema := .text "Folder", key := .text "folders" }] }
  let id : Key := .text "folder_000000000001"
  let plain : Record := ⟨.text "Folder", id, [("title", .text "new")]⟩
  let changes : Entries := [("within", .text "folder_000000000001")]
  let once : Store :=
    { tables := [(.text "Folder", [(id, plain.data)])]
      issued := 1
      trace := [(.insert, .text "Folder")] }
  have valid : folders.contracts.validate folders.catalog contract (.object []) =
      .ok (.node contract (.text "Folder") [] []) := by
    with_unfolding_all rfl
  have inserted : exec (folders.insertTree (.node contract (.text "Folder") [] []) none)
      ({} : Store).enter = (.ok [plain], { once with scope := some ⟨0, []⟩ }) := by
    with_unfolding_all rfl
  have runs : folders.Runs once :=
    folders_runs.create_of_inserted rfl
      (show folders.compose (.text "Folder") .create .alone = .ok contract from rfl) valid inserted
  let twice := circle [(.insert, .text "Folder"), (.get, .text "Folder"), (.write, .text "Folder")]
  have read : folders.readUpdates (.text "Folder") (.object changes) = .ok changes := by
    with_unfolding_all rfl
  have overwritten : exec (folders.overwrite folder plain changes)
      (exec (Store.require (.text "Folder") id) once.enter).2 =
        (.ok (plain.withUpdates changes), { twice with scope := some ⟨0, once.tables⟩ }) := by
    with_unfolding_all rfl
  obtain ⟨_, updated⟩ := update_of_quiet (show folders.rules.reactions = [] from rfl)
    (show folders.catalog.require (.text "Folder") = .ok folder from rfl) read
    (Prod.ext rfl rfl) (by decide) overwritten
  have ran : (exec (folders.perform (.update (.text "Folder") id (.object changes))) once).2 =
      twice := by
    rw [perform, exec_bind, updated]
    rfl
  refine ⟨twice.trace, ?_⟩
  rw [show circle twice.trace = twice from rfl, ← ran]
  exact .call runs rfl

/-- So hosts can bring a store about in which no number of levels is enough for the view of a stored
record. -/
theorem circle_never_ends : ∃ s schema id k, folders.Runs s ∧ (s.row? schema id).isSome = true ∧
    folders.compose schema .view .alone = .ok k ∧ ∀ levels v t,
      exec (Store.require schema id >>= folders.viewWithin levels k) s ≠ (.ok v, t) := by
  obtain ⟨trace, runs⟩ := runs_circle
  refine ⟨circle trace, .text "Folder", .text "folder_000000000001", _, runs, rfl, rfl,
    fun levels v t ran => ?_⟩
  have ends := ends_of_answer folders_registered.fits (show _ = some inItself from rfl) rfl ran
  exact ends.not_endless (circle_endless trace)

end Engine

end RecordRules
