import Mathlib.Data.List.Nodup
import RecordRules.Proofs.InitialRows
import RecordRules.Record

/-!
Rows that updates are merged into. Updates are checked on their own: fields that they do not mention
are left out of the check. Main statement: for a row that satisfies its schema this gives the same
complaints as the check of the merged row as a whole. So a row satisfies its schema for good, as
long as each update is accepted on its own.
-/
namespace RecordRules

theorem mapM_congr {α β : Type} {f g : α → Except Failure β} {xs : List α}
    (each : ∀ x ∈ xs, f x = g x) : xs.mapM f = xs.mapM g := by
  induction xs with
  | nil => rfl
  | cons x rest ih =>
    obtain ⟨here, later⟩ := List.forall_mem_cons.mp each
    rw [List.mapM_cons, List.mapM_cons, here, ih later]

namespace Keyed

variable {κ α : Type} [BEq κ] [LawfulBEq κ] {members updates : Keyed κ α} {kept : κ → Bool}

theorem filter_names_put {name : κ} (fresh : kept name = true → name ∉ members.names)
    (member : α) :
    (members.put name member).names.filter kept =
      members.names.filter kept ++ [name].filter kept := by
  induction members with
  | nil => rfl
  | cons head rest ih =>
    obtain ⟨key, old⟩ := head
    rw [put]
    by_cases same : (key == name) = true
    · obtain rfl := eq_of_beq same
      have left : kept key = false := by
        rw [← Bool.not_eq_true]
        exact fun stays => fresh stays List.mem_cons_self
      simp [names, left]
    · rw [if_neg same]
      have later := ih fun stays inside => fresh stays (List.mem_cons_of_mem key inside)
      simp only [names, List.map_cons, List.filter_cons] at later ⊢
      rw [later]
      split <;> rfl

theorem filter_names_merge (distinct : updates.names.Nodup)
    (fresh : ∀ name ∈ updates.names, kept name = true → name ∉ members.names) :
    (members.merge updates).names.filter kept =
      members.names.filter kept ++ updates.names.filter kept := by
  induction updates generalizing members with
  | nil => exact (List.append_nil _).symm
  | cons update rest ih =>
    obtain ⟨name, member⟩ := update
    obtain ⟨first, distinct⟩ := List.nodup_cons.mp distinct
    have later : ∀ other ∈ names rest, kept other = true →
        other ∉ (members.put name member).names := by
      intro other listed stays inside
      rcases mem_names_put inside with old | rfl
      · exact fresh other (List.mem_cons_of_mem name listed) stays old
      · exact first listed
    have put := filter_names_put (fresh name List.mem_cons_self) member
    calc (members.merge ((name, member) :: rest)).names.filter kept
        = (members.put name member).names.filter kept ++ (names rest).filter kept :=
          ih distinct later
      _ = members.names.filter kept ++ ([name].filter kept ++ (names rest).filter kept) := by
          rw [put, List.append_assoc]
      _ = members.names.filter kept ++ (names ((name, member) :: rest)).filter kept := by
          rw [← List.filter_append]
          rfl

end Keyed

namespace Schema

variable {s : Schema} {row updates : Entries} {exempt : List String}

theorem unknownNames_merge (known : ∀ name ∈ row.names, s.declares name = true)
    (distinct : updates.names.Nodup) :
    s.unknownNames (row.merge updates) = s.unknownNames updates := by
  have none : row.names.filter (fun name => !s.declares name) = [] := by
    rw [List.filter_eq_nil_iff]
    intro name inside
    simp [known name inside]
  have fresh : ∀ name ∈ updates.names, (!s.declares name) = true → name ∉ row.names := by
    intro name _ unknown inside
    rw [known name inside] at unknown
    cases unknown
  rw [unknownNames, unknownNames, Keyed.filter_names_merge distinct fresh, none, List.nil_append]

/-- A field of a merged row is judged by its update; where there is none, the row is as good as it
was. -/
theorem fieldComplaint?_merge {f : Field}
    (accepted : fieldComplaint? row false exempt f = .ok none) (distinct : updates.names.Nodup) :
    fieldComplaint? (row.merge updates) false exempt f = fieldComplaint? updates true exempt f := by
  cases given : Keyed.find? updates f.name with
  | some v =>
    unfold fieldComplaint?
    rw [Keyed.find?_merge_of_nodup row distinct, given]
    rfl
  | none =>
    have left : fieldComplaint? updates true exempt f = .ok none := by
      unfold fieldComplaint?
      rw [given]
      rfl
    rw [left, ← accepted]
    unfold fieldComplaint?
    rw [Keyed.find?_merge_of_nodup row distinct, given]
    rfl

theorem complaints_merge (satisfied : s.complaints row false exempt = .ok [])
    (distinct : updates.names.Nodup) :
    s.complaints (row.merge updates) false exempt = s.complaints updates true exempt := by
  obtain ⟨known, accepted⟩ := complaints_eq_nil_iff.mp satisfied
  have fields : s.fields.mapM (fieldComplaint? (row.merge updates) false exempt) =
      s.fields.mapM (fieldComplaint? updates true exempt) :=
    mapM_congr fun f listed => fieldComplaint?_merge (accepted f listed) distinct
  rw [complaints, complaints, unknownNames_merge known distinct, fields]

theorem complaints_foldl_withUpdates {r : Record} {all : List Entries}
    (satisfied : s.complaints r.data false exempt = .ok [])
    (distinct : ∀ updates ∈ all, updates.names.Nodup)
    (accepted : ∀ updates ∈ all, s.complaints updates true exempt = .ok []) :
    s.complaints (all.foldl Record.withUpdates r).data false exempt = .ok [] := by
  induction all generalizing r with
  | nil => exact satisfied
  | cons updates rest ih =>
    rw [List.forall_mem_cons] at distinct accepted
    refine ih ?_ distinct.2 accepted.2
    exact (complaints_merge satisfied distinct.1).trans accepted.1

/-- Whether updates to a row that satisfies its schema are checked on their own or as the row that
they lead to makes no difference: the complaints are the same, of which there may be none, and so is
the failure that refuses them. -/
theorem updates_judged_as_merged (s : Schema) (r : Record) (updates : Entries)
    (exempt : List String) (distinct : updates.names.Nodup)
    (satisfied : s.complaints r.data false exempt = .ok []) :
    s.complaints updates true exempt =
      s.complaints (r.withUpdates updates).data false exempt ∧
    s.validate updates true exempt = s.validate (r.withUpdates updates).data false exempt := by
  have known := (complaints_eq_nil_iff.mp satisfied).1
  have same : s.complaints (r.withUpdates updates).data false exempt =
      s.complaints updates true exempt := complaints_merge satisfied distinct
  have unknown : s.unknownNames (r.withUpdates updates).data = s.unknownNames updates :=
    unknownNames_merge known distinct
  refine ⟨same.symm, ?_⟩
  rw [validate, validate, unknown, same]

/-- A title is taken away, an effort that was left to its default is set out of bounds, and there is
no owner: three complaints, with or without the row. -/
theorem updates_judged_as_merged_task :
    let s : Schema :=
      { name := .text "Task"
        fields := [{ name := "title", kind := .known .text, required := true },
          { name := "effort", kind := .known .int, default := .int 1, min := .int 0 },
          { name := "note", kind := .known .text, required := true, default := .text "none" }] }
    let r : Record := ⟨.text "Task", .int 1, [("title", .text "Paint")]⟩
    let updates : Entries :=
      [("owner", .text "ann"), ("effort", .int (-1)), ("title", .null)]
    (∃ complaints, s.complaints updates true = .ok complaints ∧ complaints.length = 3) ∧
      s.complaints updates true = s.complaints (r.withUpdates updates).data := by
  intro s r updates
  have satisfied : s.complaints r.data = .ok [] := rfl
  have counted : ((s.complaints updates true).map List.length).toOption = some 3 := by
    decide +kernel
  refine ⟨?_, (updates_judged_as_merged s r updates [] (by decide) satisfied).1⟩
  cases judged : s.complaints updates true with
  | error failure => simp [judged, Except.map, Except.toOption] at counted
  | ok complaints =>
    exact ⟨complaints, rfl, by simpa [judged, Except.map, Except.toOption] using counted⟩

end Schema

end RecordRules
