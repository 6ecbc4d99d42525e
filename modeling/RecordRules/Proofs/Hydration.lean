import Mathlib.Data.List.Basic
import RecordRules.Reaction.Cascade
import RecordRules.Proofs.Reading
import RecordRules.Proofs.Registration

/-!
Hydration: loading only the related records that the reactions to an event look at changes neither
which of them match nor what they set. Reactions whose conditions on the event itself fail may look
at more, but they match with no related records whatever.
-/
namespace RecordRules

open Step

namespace Event

theorem ofEvent_withRelated_part (event : Event) (reach : Reach) (up down : List Record) :
    Scene.ofEvent (event.withRelated (reach.ancestors.part up) (reach.descendants.part down)) =
      (Scene.ofEvent (event.withRelated up down)).within reach := rfl

theorem ofEvent_of_bare {event : Event} (noAncestry : event.ancestry = [])
    (noDescendants : event.descendants = []) (up down : List Record) :
    Scene.ofEvent event = (Scene.ofEvent (event.withRelated up down)).within {} := by
  rw [Scene.ofEvent, noAncestry, noDescendants]
  rfl

end Event

namespace Engine

theorem updatesFor_within {reach : Reach} (s : Schema) {assignments : List (String × Operand)}
    (scene : Scene) (covered : ∀ p ∈ (Action.set assignments).paths, Reach.ofPath p ≤ reach) :
    updatesFor s assignments (scene.within reach) = updatesFor s assignments scene := by
  refine congrArg (Keyed.merge []) (List.filterMap_congr fun assignment member => ?_)
  obtain ⟨field, operand⟩ := assignment
  cases operand with
  | value v => rfl
  | path p =>
    have read : p ∈ (Action.set assignments).paths :=
      List.mem_filterMap.mpr ⟨(field, .path p), member, rfl⟩
    simp only [Path.resolve_within scene (covered p read)]

section

variable {e : Engine} {event : Event}

theorem ofPath_le_localReach {r : Reaction} (possible : r ∈ e.possible event) {p : Path}
    (read : p ∈ r.paths) : Reach.ofPath p ≤ e.localReach event :=
  Reach.ofPaths_le_iff.mp le_rfl p (List.mem_flatMap_of_mem possible read)

theorem localReach_le_reactionReach (registered : e.rules.Registered) (event : Event) :
    e.localReach event ≤ e.rules.reactionReach event.schema event.kind := by
  rw [registered.summarized.reactions, localReach, Reach.ofPaths_le_iff]
  intro p read
  obtain ⟨r, possible, read⟩ := List.mem_flatMap.mp read
  refine Reach.ofPaths_le_iff.mp le_rfl p (List.mem_flatMap_of_mem ?_ read)
  exact List.mem_of_mem_filter possible

variable (noAncestry : event.ancestry = []) (noDescendants : event.descendants = [])

include noAncestry noDescendants

theorem possible_of_allHold {r : Reaction} {up down : List Record} {reach : Reach}
    (candidate : r ∈ e.rules.reactionsFor event.schema event.kind)
    (holds : Condition.allHold r.conditions
      ((Scene.ofEvent (event.withRelated up down)).within reach) = true) :
    r ∈ e.possible event := by
  refine List.mem_filter.mpr ⟨candidate, ?_⟩
  rw [Event.ofEvent_of_bare noAncestry noDescendants up down]
  rw [Condition.allHold, List.all_eq_true] at holds ⊢
  intro c member
  obtain ⟨member, own⟩ := List.mem_filter.mp member
  have own : c.isRelational = false := by simpa using own
  rw [Condition.holds_within_of_isRelational _ own]
  rw [← Condition.holds_within_of_isRelational _ own]
  exact holds c member

theorem matching_withRelated_part (up down : List Record) :
    e.matching (event.withRelated ((e.localReach event).ancestors.part up)
        ((e.localReach event).descendants.part down)) =
      e.matching (event.withRelated up down) := by
  refine Prod.ext rfl (List.filter_congr fun r candidate => ?_)
  have unmatched {reach : Reach} (impossible : r ∉ e.possible event) :
      Condition.allHold r.conditions
        ((Scene.ofEvent (event.withRelated up down)).within reach) = false :=
    Bool.eq_false_iff.mpr fun holds =>
      impossible (possible_of_allHold noAncestry noDescendants candidate holds)
  by_cases possible : r ∈ e.possible event
  · rw [Event.ofEvent_withRelated_part]
    exact Condition.allHold_within _ fun p read =>
      ofPath_le_localReach possible (List.mem_append_left _ read)
  · exact (unmatched possible).trans
      (@unmatched ⟨.all, .all⟩ possible).symm

theorem updatesFor_withRelated_part {up down : List Record} {r : Reaction}
    (matched : r ∈ (e.matching (event.withRelated up down)).2)
    {assignments : List (String × Operand)} (sets : r.action = .set assignments) (s : Schema) :
    updatesFor s assignments
        (Scene.ofEvent (event.withRelated ((e.localReach event).ancestors.part up)
          ((e.localReach event).descendants.part down))) =
      updatesFor s assignments (Scene.ofEvent (event.withRelated up down)) := by
  obtain ⟨candidate, holds⟩ := List.mem_filter.mp matched
  have possible : r ∈ e.possible event :=
    @possible_of_allHold e event noAncestry noDescendants r up down ⟨.all, .all⟩ candidate holds
  rw [Event.ofEvent_withRelated_part]
  refine updatesFor_within s _ fun p read => ofPath_le_localReach possible ?_
  exact List.mem_append_right _ (sets ▸ read)

end

variable {e : Engine} {s : Store}

theorem relatedFor_yields {direction : Direction} {object : Record} {xs : List Record}
    (complete : (exec (Traversal.collect e.catalog direction object .all) s).1 = .ok xs)
    (extent : Extent) :
    Yields (Store.SameRows s) (e.relatedFor direction object extent []) (.ok (extent.part xs)) := by
  rw [relatedFor]
  split
  · rename_i enough
    cases extent with
    | all => simp [Extent.isNone, Extent.coveredBy] at enough
    | upTo n =>
      obtain rfl : n = 0 := by simpa [Extent.isNone, Extent.coveredBy] using enough
      exact yields_pure _
  · exact Traversal.collect_yields complete extent

theorem hydrate_yields (registered : e.rules.Registered) {event : Event}
    (noAncestry : event.ancestry = []) (noDescendants : event.descendants = [])
    {up down : List Record}
    (above : (exec (Traversal.collect e.catalog .up event.object .all) s).1 = .ok up)
    (below : (exec (Traversal.collect e.catalog .down event.object .all) s).1 = .ok down) :
    Yields (Store.SameRows s) (e.hydrate event)
      (.ok (event.withRelated ((e.localReach event).ancestors.part up)
        ((e.localReach event).descendants.part down))) := by
  have untouched (none : e.localReach event = {}) : event =
      event.withRelated ((e.localReach event).ancestors.part up)
        ((e.localReach event).descendants.part down) := by
    rw [none, Event.withRelated]
    obtain ⟨kind, object, modified, ancestry, descendants, sequence⟩ := event
    obtain rfl : ancestry = [] := noAncestry
    obtain rfl : descendants = [] := noDescendants
    rfl
  rw [hydrate]
  split
  · rename_i none
    rw [Reach.isNone_iff] at none
    have below := localReach_le_reactionReach registered event
    rw [none] at below
    rw [← untouched (le_bot_iff.mp below)]
    exact yields_pure event
  · simp only
    split
    · rename_i none
      rw [← untouched ((Reach.isNone_iff _).mp none)]
      exact yields_pure event
    · rw [noAncestry, noDescendants]
      refine yields_ok_bind (relatedFor_yields above _) ?_
      refine yields_ok_bind (relatedFor_yields below _) ?_
      exact yields_pure _

/-- Loading what is looked at is as good as loading everything: an event without related records
comes out of it with those that make the same reactions match and the same values be set as all
of its related records would. -/
theorem hydrate_matches_complete (e : Engine) (registered : e.rules.Registered) (event : Event)
    (noAncestry : event.ancestry = []) (noDescendants : event.descendants = []) (s : Store)
    (up down : List Record)
    (above : (exec (Traversal.collect e.catalog .up event.object .all) s).1 = .ok up)
    (below : (exec (Traversal.collect e.catalog .down event.object .all) s).1 = .ok down) :
    ∃ hydrated, (exec (e.hydrate event) s).1 = .ok hydrated ∧
      e.matching hydrated = e.matching (event.withRelated up down) ∧
      ∀ r ∈ (e.matching (event.withRelated up down)).2, ∀ assignments,
        r.action = .set assignments → ∀ target : Schema,
          updatesFor target assignments (Scene.ofEvent hydrated) =
            updatesFor target assignments (Scene.ofEvent (event.withRelated up down)) := by
  refine ⟨_, (hydrate_yields registered noAncestry noDescendants above below s rfl).1, ?_, ?_⟩
  · exact matching_withRelated_part noAncestry noDescendants up down
  · intro r matched assignments sets target
    exact updatesFor_withRelated_part noAncestry noDescendants matched sets target

theorem hydrate_nested_folder :
    let within : Field := { name := "within", kind := .known .reference, refer := .text "Folder" }
    let title : Field := { name := "title", kind := .known .text }
    let folder : Schema := { name := .text "Folder", fields := [title, within] }
    let c : Catalog :=
      { schemas := [(.text "Folder", folder)]
        edges := [⟨.text "Folder", .text "Folder", within⟩] }
    let above (index : Nat) : Path := { origin := .parent, index, tail := ["title"], source := "" }
    let assignments := [("title", Operand.path (above 1))]
    let copies : Reaction :=
      { schema := .text "Folder", event := .created, action := .set assignments
        conditions := [⟨above 1, .neq, .value .null⟩] }
    let rests : Reaction :=
      { copies with
        conditions := [⟨{ origin := .object, tail := ["title"], source := "" }, .neq, .value .null⟩,
          ⟨above 3, .neq, .value .null⟩] }
    let b : RuleBook :=
      { reactions := [copies, rests]
        reactionReaches := [((.text "Folder", .created), { ancestors := .upTo 3 })] }
    let inner : Record := ⟨.text "Folder", .text "inner", [("within", .text "middle")]⟩
    let middle : Record :=
      ⟨.text "Folder", .text "middle", [("within", .text "outer"), ("title", .text "Plans")]⟩
    let outer : Record := ⟨.text "Folder", .text "outer", [("within", .text "top")]⟩
    let top : Record := ⟨.text "Folder", .text "top", []⟩
    let rows := [inner, middle, outer, top].map fun r => (r.id, r.data)
    let s : Store := { tables := [(.text "Folder", rows)] }
    let e : Engine := { catalog := c, rules := b }
    let event := (Event.created inner).withRelated [middle] []
    let complete := (Event.created inner).withRelated [middle, outer, top] []
    (exec (e.hydrate (.created inner)) s).1 = .ok event ∧
      e.matching event = e.matching complete ∧ (e.matching complete).2 = [copies] ∧
      updatesFor folder assignments (Scene.ofEvent event) =
        updatesFor folder assignments (Scene.ofEvent complete) := by
  intro within title folder c above assignments copies rests b inner middle outer top rows s e
    event complete
  have first : ({} : RuleBook).addReaction c copies =
      .ok { reactions := [copies]
            reactionReaches := [((.text "Folder", .created), { ancestors := .upTo 1 })] } := rfl
  have second : RuleBook.addReaction
      { reactions := [copies]
        reactionReaches := [((.text "Folder", .created), { ancestors := .upTo 1 })] }
      c rests = .ok b := rfl
  have registered : b.Registered := .reaction (.reaction .empty first) second
  obtain ⟨hydrated, loaded, alike, updates⟩ := e.hydrate_matches_complete registered
    (.created inner) rfl rfl s [middle, outer, top] [] rfl rfl
  have ran : (exec (e.hydrate (.created inner)) s).1 = .ok event := rfl
  obtain rfl : event = hydrated := Except.ok.inj (ran.symm.trans loaded)
  have matched : (e.matching complete).2 = [copies] := rfl
  refine ⟨ran, alike, matched, ?_⟩
  exact updates copies (matched ▸ List.mem_singleton.mpr rfl) assignments rfl folder

end Engine

end RecordRules
