import RecordRules.Proofs.CreatedRows

/-!
Creating a payload. Where no reaction matches, nothing happens in the cascade but that the created
records are announced. Main statement: a payload that is created has added one row for every object
in it behind the rows that were there, and one created event for each of them was dispatched, in the
order of the rows.
-/
namespace RecordRules

open Step

namespace Store.Adds

variable {s t : Store} {records : List Record}

theorem row?_of_mem (adds : s.Adds t records) {r : Record} (listed : r ∈ records) :
    t.row? r.schema r.id = some r.data := by
  have among : ∀ {others : List Record},
      others.Pairwise (fun q p => (q.key == p.key) = false) → r ∈ others →
        Keyed.find? ((others.filter fun q => q.schema == r.schema).map fun q => (q.id, q.data))
          r.id = some r.data := by
    intro others apart listed
    induction others with
    | nil => cases listed
    | cons q rest ih =>
      obtain ⟨here, apart⟩ := List.pairwise_cons.mp apart
      rw [List.filter_cons]
      rcases List.mem_cons.mp listed with rfl | later
      · simp [Keyed.find?_cons]
      · split
        · rename_i schemas
          have other : (q.id == r.id) = false := by
            rw [← Bool.not_eq_true]
            intro ids
            have same : (q.key == r.key) = true := Bool.and_eq_true_iff.mpr ⟨schemas, ids⟩
            rw [here r later] at same
            cases same
          rw [List.map_cons, Keyed.find?_cons, other]
          exact ih apart later
        · exact ih apart later
  have absent := adds.fresh r listed
  rw [row?] at absent ⊢
  rw [adds.tables, Keyed.find?_append, absent, among adds.apart listed]
  rfl

end Store.Adds

namespace Engine

variable {e : Engine} {s t : Store}

theorem dispatchLoaded_unmatched {event : Event} {turn after : Turn} {d : Dispatched}
    (ran : exec (e.dispatchLoaded event) turn = (.ok d, after)) (unmatched : d.matched = []) :
    d.followUps = [] ∧ Store.SameRows turn.store after.store := by
  obtain ⟨hydrated, looked, loaded, ran⟩ := exec_bind_eq_ok.mp ran
  have still : Store.SameRows turn.store looked.store := by
    have moved := Turn.onStore_moves (e.hydrate_moves (R := Store.SameRows) event) turn
    rwa [loaded] at moved
  obtain ⟨_, cleared, noted, ran⟩ := exec_bind_eq_ok.mp ran
  obtain ⟨-, rfl⟩ := Prod.mk.inj noted
  obtain ⟨_, reacted, reactions, ran⟩ := exec_bind_eq_ok.mp ran
  obtain ⟨answered, rfl⟩ := Prod.mk.inj ran
  obtain rfl := Except.ok.inj answered
  rw [List.map_eq_nil_iff.mp unmatched] at reactions
  obtain ⟨-, rfl⟩ := Prod.mk.inj reactions
  exact ⟨rfl, still⟩

theorem unmatched_of_reaches {roots : List Event} {course : Course}
    (reached : e.Reaches s roots course)
    (unmatched : course.dispatched.flatMap Dispatched.matched = []) :
    course.dispatched.flatMap Dispatched.followUps = [] ∧
      Store.SameRows s course.turn.store := by
  induction reached with
  | refl => exact ⟨rfl, rfl⟩
  | tail _ goes ih =>
    obtain ⟨waiting, went⟩ := goes
    obtain ⟨d, turn, ran, -, rfl⟩ := advance_ok went
    simp only [List.flatMap_append, List.append_eq_nil_iff, List.flatMap_cons, List.flatMap_nil,
      List.append_nil] at unmatched ⊢
    obtain ⟨before, here⟩ := unmatched
    obtain ⟨silent, still⟩ := ih before
    obtain ⟨nothing, same⟩ := dispatchLoaded_unmatched ran here
    exact ⟨⟨silent, nothing⟩, IsTrans.trans (r := Store.SameRows) _ _ _ still same⟩

theorem propagate_unmatched {roots : List Event} {c : Cascade}
    (ended : exec (e.propagate roots) s = (.ok c, t)) (unmatched : c.matched = []) :
    (c.dispatched.map Dispatched.event).map Event.bare = roots.map Event.bare ∧
      Store.SameRows s t := by
  obtain ⟨last, reached, empty, rfl⟩ := exists_last_of_propagate_ok ended
  have left : t = last.turn.store := by
    rw [(eq_of_propagate_ok ended).2, drain_of_reflTransGen reached, e.drain_nil empty]
  rw [Course.cascade_matched] at unmatched
  obtain ⟨silent, still⟩ := unmatched_of_reaches reached unmatched
  obtain ⟨levels, inv⟩ := Course.BreadthFirst.reaches reached
  have order := (inv.cascade empty).order
  rw [Course.cascade_followUps, silent, List.append_nil] at order
  exact ⟨order, left ▸ still⟩

theorem unmatched_of_quiet (quiet : e.rules.reactions = []) {roots : List Event} {c : Cascade}
    (ended : exec (e.propagate roots) s = (.ok c, t)) : c.matched = [] := by
  obtain ⟨last, reached, -, rfl⟩ := exists_last_of_propagate_ok ended
  rw [Course.cascade_matched]
  clear ended
  induction reached with
  | refl => rfl
  | tail _ goes ih =>
    obtain ⟨waiting, went⟩ := goes
    obtain ⟨d, turn, ran, -, rfl⟩ := advance_ok went
    rw [exec_dispatchLoaded_quiet quiet] at ran
    obtain rfl := Except.ok.inj (Prod.mk.inj ran).1
    rw [List.flatMap_append, ih]
    rfl

theorem unmatched_of_create (quiet : e.rules.reactions = []) {schema : Key} {payload : Value}
    {placement : Placement} {m : Mutation}
    (ran : exec (e.create schema payload placement) s = (.ok m, t)) (cascade : Cascade)
    (given : m.cascade = some cascade) : cascade.matched = [] := by
  obtain ⟨_, _, _, _, dispatched, _, -, -, -, propagated, rfl, -⟩ := create_eq_ok.mp ran
  obtain rfl := Option.some.inj given
  exact unmatched_of_quiet quiet propagated

theorem creates_of_create (fits : e.Fits) {schema : Key} {payload : Value}
    (proper : payload.isProper = true) {placement : Placement} {m : Mutation}
    (ran : exec (e.create schema payload placement) s = (.ok m, t))
    (unmatched : ∀ cascade, m.cascade = some cascade → cascade.matched = []) :
    ∃ contract cascade records, e.compose schema .create placement = .ok contract ∧
      e.Composes contract ∧ contract.Under none ∧ m.cascade = some cascade ∧
      records.head? = some m.record ∧ e.Creates contract none payload records ∧
      s.Adds t records ∧
      (cascade.dispatched.map Dispatched.event).map Event.bare =
        (records.map Event.created).map Event.bare := by
  obtain ⟨contract, tree, records, start, cascade, ended, composed, valid, inserted, propagated,
    rfl, rfl⟩ := create_eq_ok.mp ran
  obtain ⟨definition, found, same⟩ := compose_eq_ok.mp composed
  have composes : e.Composes contract := by
    rw [same]
    exact composes_contractOf found _ _ _
  have alone : contract.Under none := by
    rw [same]
    exact ContractBook.contractOf_alone e.contracts definition .create placement
  obtain ⟨creates, adds⟩ := creates_of_insertTree fits (ContractBook.splits_of_validate valid)
    composes alone proper inserted
  obtain ⟨order, still⟩ := propagate_unmatched propagated (unmatched cascade rfl)
  have added : s.Adds (ended.leave false) records :=
    ((adds.of_sameRows still).of_sameRows (Store.sameRows_leave_false ended)).after_sameRows
      (Store.sameRows_enter s)
  refine ⟨contract, cascade, records, composed, composes, alone, rfl, ?_, creates, added, order⟩
  cases creates with
  | object => rfl

theorem create_of_quiet (quiet : e.rules.reactions = []) {schema : Key} {payload : Value}
    {placement : Placement} {contract : Contract} {tree : Payload} {records : List Record}
    {start : Store} (composed : e.compose schema .create placement = .ok contract)
    (valid : e.contracts.validate e.catalog contract payload = .ok tree)
    (inserted : exec (e.insertTree tree none) s.enter = (.ok records, start)) :
    ∃ cascade, cascade.matched = [] ∧ exec (e.create schema payload placement) s =
      (.ok ⟨records.headD ⟨schema, .text "", []⟩, some cascade⟩, start.leave false) := by
  obtain ⟨cascade, propagated⟩ := propagate_quiet quiet (records.map Event.created) start
  refine ⟨cascade, unmatched_of_quiet quiet propagated, create_eq_ok.mpr ?_⟩
  exact ⟨contract, tree, records, start, cascade, start, composed, valid, inserted, propagated, rfl,
    rfl⟩

def twoFolders : Value :=
  .object [("folders", .list [.object [("title", .text "a")], .object []])]

theorem folders_create : ∃ cascade stored rows, cascade.matched = [] ∧
    stored.tables = [(.text "Folder", rows)] ∧
    rows.names = [.text "folder_000000000001", .text "folder_000000000002",
      .text "folder_000000000003"] ∧
    exec (folders.create (.text "Folder") twoFolders .alone) {} =
      (.ok ⟨⟨.text "Folder", .text "folder_000000000001", [("title", .text "new")]⟩,
        some cascade⟩, stored) := by
  let title : Field := { name := "title", kind := .known .text, default := .text "new" }
  let within : Field := { name := "within", kind := .known .reference, refer := .text "Folder" }
  let folder : Schema := { name := .text "Folder", fields := [title, within] }
  let contract : Contract :=
    { schema := folder, target := .create, placement := .alone, ownFields := ["title", "within"]
      children := [{ schema := .text "Folder", key := .text "folders" }] }
  let nested : Contract := { contract with placement := .nested, referBack := some "within" }
  let tree : Payload := .node contract (.text "Folder") []
    [("folders", [.node nested (.text "Folder.folders[0]") [("title", .text "a")] [],
      .node nested (.text "Folder.folders[1]") [] []])]
  let outer : Record := ⟨.text "Folder", Store.generatedId "Folder" 0, [("title", .text "new")]⟩
  let first : Record := ⟨.text "Folder", Store.generatedId "Folder" 1,
    [("title", .text "a"), ("within", outer.id.toValue)]⟩
  let second : Record := ⟨.text "Folder", Store.generatedId "Folder" 2,
    [("title", .text "new"), ("within", outer.id.toValue)]⟩
  let records := [outer, first, second]
  let start : Store :=
    { tables := [(.text "Folder", records.map fun r => (r.id, r.data))]
      scope := some ⟨0, []⟩
      issued := 3
      trace := records.map fun r => (.insert, r.schema) }
  have valid : folders.contracts.validate folders.catalog contract twoFolders = .ok tree := by
    with_unfolding_all rfl
  have inserted : exec (folders.insertTree tree none) ({} : Store).enter =
      (.ok records, start) := by
    simp only [tree, nested, contract, start, records, outer, first, second, folder, title, within]
    with_unfolding_all rfl
  obtain ⟨cascade, unmatched, created⟩ := create_of_quiet
    (show folders.rules.reactions = [] from rfl)
    (show folders.compose (.text "Folder") .create .alone = .ok contract from rfl) valid inserted
  exact ⟨cascade, start.leave false, _, unmatched, rfl, rfl, created⟩

/-- A payload that is created, where no reaction matches, adds the records of its objects behind the
rows that were there, and nothing else happens to the rows; what is dispatched are the events that
announce these records as they are stored, in their order. -/
theorem create_persists (e : Engine) (registered : e.Registered) (schema : Key) (payload : Value)
    (proper : payload.isProper = true) (placement : Placement) (s t : Store) (m : Mutation)
    (ran : exec (e.create schema payload placement) s = (.ok m, t))
    (unmatched : ∀ cascade, m.cascade = some cascade → cascade.matched = []) :
    ∃ contract cascade records, e.compose schema .create placement = .ok contract ∧
      m.cascade = some cascade ∧ records.head? = some m.record ∧
      e.Creates contract none payload records ∧ s.Adds t records ∧
      (∀ r ∈ records, t.row? r.schema r.id = some r.data) ∧
      cascade.dispatched.map (fun d => d.event.bare) = records.map Event.created := by
  obtain ⟨contract, cascade, records, composed, -, -, cascaded, head, creates, adds, order⟩ :=
    creates_of_create registered.fits proper ran unmatched
  refine ⟨contract, cascade, records, composed, cascaded, head, creates, adds,
    fun r listed => adds.row?_of_mem listed, ?_⟩
  rw [List.map_map, List.map_map] at order
  exact order

theorem create_persists_folders : ∃ m t contract cascade records,
    exec (folders.create (.text "Folder") twoFolders .alone) {} = (.ok m, t) ∧
      (∀ other, m.cascade = some other → other.matched = []) ∧
      folders.Registered ∧ twoFolders.isProper = true ∧
      folders.Creates contract none twoFolders records ∧ ({} : Store).Adds t records ∧
      m.cascade = some cascade ∧
      cascade.dispatched.map (fun d => d.event.bare) = records.map Event.created := by
  obtain ⟨cascade, t, -, unmatched, -, -, ran⟩ := folders_create
  have quiet : ∀ other, some cascade = some other → other.matched = [] := by
    rintro other ⟨⟩
    exact unmatched
  obtain ⟨contract, dispatched, records, -, same, -, creates, adds, -, order⟩ :=
    create_persists folders folders_registered (.text "Folder") twoFolders rfl .alone {} t _ ran
      quiet
  exact ⟨_, t, contract, dispatched, records, ran, quiet, folders_registered, rfl, creates, adds,
    same, order⟩

end Engine

end RecordRules
