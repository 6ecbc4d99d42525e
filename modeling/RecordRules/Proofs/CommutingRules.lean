import RecordRules.Proofs.IndependentRules

/-!
The order of registration. Where rules keep out of each other's way and writes are not checked, the
order in which they were registered does not matter. Main statement: a dispatch that succeeds in one
order succeeds in any other, with the same values in all stored rows and the same changes.
-/
namespace RecordRules

open Step

namespace Engine

/-- Independent rules commute: if they are registered in another order, their dispatch succeeds as
well, the same rules match, all stored rows have the same fields as after the first one, and the
same changes of fields of records are made. -/
theorem dispatch_reordered (e : Engine) (registered : e.catalog.Registered)
    (unguarded : e.settings.enforceStateOnReactions = false) (event : Event) (s : Store)
    (independent : Independent e.catalog (e.matching event).2) (b : RuleBook)
    (reordered : b.reactions.Perm e.rules.reactions) {d : Dispatched} {after : Turn}
    (ran : exec (e.dispatch event) { store := s } = (.ok d, after)) :
    ∃ d' after', exec ({ e with rules := b }.dispatch event) { store := s } = (.ok d', after') ∧
      d'.matched.Perm d.matched ∧
      (∀ schema id, (after'.store.row? schema id).isSome = (after.store.row? schema id).isSome) ∧
      (∀ key field, after'.store.field? key field = after.store.field? key field) ∧
      ∀ key field v, after'.Changed key field v ↔ after.Changed key field v := by
  let other : Engine := { e with rules := b }
  have matched : (other.matching event).2.Perm (e.matching event).2 :=
    (reordered.filter _).filter _
  have also : Independent other.catalog (other.matching event).2 := independent.perm matched
  obtain ⟨answers, met⟩ := met_dispatch registered independent ran
  obtain ⟨d', after', again⟩ := exists_dispatch (e := other) registered also unguarded
    fun r listed => answers r (matched.mem_iff.mp listed)
  obtain ⟨-, met'⟩ := met_dispatch (e := other) registered also again
  refine ⟨d', after', again, ?_, met.eq_of_asked_iff met' fun key field v => ?_⟩
  · rw [(exec_dispatch_eq_ok.mp ran).2, (exec_dispatch_eq_ok.mp again).2]
    exact matched.map _
  · refine exists_congr fun demand => and_congr_left fun _ => ?_
    exact (matched.flatMap_right _).mem_iff

/-- Two rules of a task that is done set the same field, of the task and of its project. -/
theorem dispatch_reordered_project :
    let state : Field := { name := "state", kind := .known .text }
    let within : Field := { name := "within", kind := .known .reference, refer := .text "Project" }
    let project : Schema := { name := .text "Project", fields := [state] }
    let task : Schema := { name := .text "Task", fields := [state, within] }
    let first := (exec (Catalog.register project) {}).2
    let c : Catalog := (exec (Catalog.register task) first).2
    let closes : Reaction :=
      { schema := .text "Task", event := .modified
        action := .set [("state", .value (.text "closed"))] }
    let reports : Reaction :=
      { schema := .text "Task", event := .modified, scope := .parent
        action := .set [("state", .path { origin := .object, tail := ["state"], source := "" })] }
    let e : Engine := { catalog := c, rules := { reactions := [closes, reports] } }
    let written : Record :=
      ⟨.text "Task", .text "first", [("state", .text "done"), ("within", .text "house")]⟩
    let s : Store :=
      { tables := [(.text "Project", [(.text "house", [("state", .text "open")])]),
          (.text "Task", [(.text "first", written.data)])] }
    let event : Event := .modifiedOf written ["state"]
    ∃ d after, exec ({ e with rules := { reactions := [reports, closes] } }.dispatch event)
        { store := s } = (.ok d, after) ∧
      after.store.field? (.text "Task", .text "first") "state" = some (.text "closed") ∧
      after.store.field? (.text "Project", .text "house") "state" = some (.text "done") := by
  intro state within project task first c closes reports e written s event
  have registered : e.catalog.Registered := by
    refine .register (.register .empty ⟨rfl, ?_⟩) ⟨rfl, ?_⟩ <;>
      simp [project, task, state, within, Field.check, Field.isOf, GivenKind.isKind, Field.target?,
        Field.checkBounds, Value.isTrue, Value.isNull]
  have named {r : Reaction} {field : String} (listed : r ∈ [closes, reports])
      (names : r.Names field) : field = "state" := by
    rcases List.mem_pair.mp listed with rfl | rfl <;> exact names.eq_of_set rfl
  have independent : Independent e.catalog (e.matching event).2 := by
    change Independent c [closes, reports]
    constructor
    case sets =>
      intro r listed
      rcases List.mem_pair.mp listed with rfl | rfl <;> exact ⟨_, rfl⟩
    case apart =>
      refine List.pairwise_pair.mpr fun field schema _ _ may => ?_
      obtain ⟨_, own, here⟩ := may.1 [.text "Task"] rfl
      obtain ⟨_, above, there⟩ := may.2 [.text "Project"] rfl
      obtain rfl := List.mem_singleton.mp own
      obtain rfl := List.mem_singleton.mp above
      have task : (Key.text "Task" == schema) = true :=
        (Value.same_toValue (.text "Task") schema).symm.trans here
      have project : (Key.text "Project" == schema) = true :=
        (Value.same_toValue (.text "Project") schema).symm.trans there
      exact absurd (BEq.trans task (BEq.symm project)) (by decide)
    case proper =>
      exact fun r listed names => absurd (named listed names) (by decide)
    case spares =>
      intro r listed key schema _ known f declared names
      obtain ⟨_, _, among⟩ := Keyed.mem_of_find? known
      have refers : f.name = "within" := by
        rcases List.mem_pair.mp among with same | same <;> cases same
        · cases declared
        · rw [List.mem_singleton.mp declared]
      rw [refers] at names
      exact absurd (named listed names) (by decide)
  have succeeds : (exec (e.dispatch event) { store := s }).1.isOk = true := by decide +kernel
  obtain ⟨d, after, ran⟩ := exists_exec_of_isOk succeeds
  obtain ⟨d', after', again, -, -, fields, -⟩ := e.dispatch_reordered registered rfl event s
    independent { reactions := [reports, closes] } (.swap closes reports []) ran
  refine ⟨d', after', again, ?_⟩
  rw [fields, fields, show after = (exec (e.dispatch event) { store := s }).2 from
    (congrArg Prod.snd ran).symm]
  constructor <;> rfl

end Engine

end RecordRules
