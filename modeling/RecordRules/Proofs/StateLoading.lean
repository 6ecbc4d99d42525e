import RecordRules.Proofs.Reading
import RecordRules.Proofs.Registration

/-!
Loading states: a state does not depend on how much is loaded for it. The related records that are
left out are looked at by no state rule of the schema.
-/
namespace RecordRules

open Step

namespace RecordState

/-- The state is the same without the related records that no state rule of the schema looks at. -/
theorem compute_part {b : RuleBook} (registered : b.Registered) (c : Catalog) (r : Record)
    (up down : List Record) :
    compute c b r ((b.stateReach r.schema).ancestors.part up)
      ((b.stateReach r.schema).descendants.part down) = compute c b r up down := by
  have bounded : ∀ p ∈ (b.stateRulesFor r.schema).flatMap StateRule.paths,
      Reach.ofPath p ≤ b.stateReach r.schema := by
    rw [← Reach.ofPaths_le_iff, registered.summarized.stateRules]
  have same : ∀ rule ∈ b.stateRulesFor r.schema,
      Condition.allHold rule.conditions
          ((Scene.ofRecord r up down).within (b.stateReach r.schema)) =
        Condition.allHold rule.conditions (Scene.ofRecord r up down) := by
    intro rule member
    refine Condition.allHold_within _ fun p read => bounded p ?_
    exact List.mem_flatMap_of_mem member read
  rw [compute, compute]
  refine congrArg _ (funext fun s => ?_)
  exact congrArg (fun rules => pure (ofRules r.schema s rules)) (List.filter_congr same)

theorem loadRelated_yields {c : Catalog} {b : RuleBook} {r : Record} {s : Store}
    {up down : List Record} (above : (exec (Traversal.collect c .up r .all) s).1 = .ok up)
    (below : (exec (Traversal.collect c .down r .all) s).1 = .ok down) :
    Yields (Store.SameRows s) (loadRelated c b r)
      (.ok ((b.stateReach r.schema).ancestors.part up,
        (b.stateReach r.schema).descendants.part down)) := by
  rw [loadRelated]
  split
  · rename_i none
    rw [(Reach.isNone_iff _).mp none]
    exact yields_pure _
  · refine yields_ok_bind (Traversal.collect_yields above _) ?_
    refine yields_ok_bind (Traversal.collect_yields below _) ?_
    exact yields_pure _

end RecordState

/-- The state of a record is what all its related records, as far as a traversal goes, make it. -/
theorem Engine.stateOf_eq_compute (e : Engine) (registered : e.rules.Registered) (r : Record)
    (known : e.catalog.has r.schema = true) (s : Store) (up down : List Record)
    (above : (exec (Traversal.collect e.catalog .up r .all) s).1 = .ok up)
    (below : (exec (Traversal.collect e.catalog .down r .all) s).1 = .ok down) :
    ∃ state, RecordState.compute e.catalog e.rules r up down = .ok state ∧
      (exec (e.stateOf r) s).1 = .ok state := by
  have loaded : Yields (Store.SameRows s) (e.stateOf r)
      (RecordState.compute e.catalog e.rules r up down) := by
    rw [← RecordState.compute_part registered]
    exact yields_ok_bind (RecordState.loadRelated_yields above below) (yields_ofExcept _)
  obtain ⟨schema, found⟩ := Option.isSome_iff_exists.mp known
  have computed : ∃ state, RecordState.compute e.catalog e.rules r up down = .ok state := by
    rw [RecordState.compute, Catalog.require, found]
    exact ⟨_, rfl⟩
  obtain ⟨state, computed⟩ := computed
  exact ⟨state, computed, (loaded s rfl).1.trans computed⟩

theorem Engine.stateOf_nested_folder :
    let within : Field := { name := "within", kind := .known .reference, refer := .text "Folder" }
    let title : Field := { name := "title", kind := .known .text }
    let c : Catalog :=
      { schemas := [(.text "Folder", { name := .text "Folder", fields := [title, within] })]
        edges := [⟨.text "Folder", .text "Folder", within⟩] }
    let rule : StateRule :=
      { schema := .text "Folder"
        effect := { onFields := [.text "title"], immutable := true }
        conditions := [⟨{ origin := .parent, index := 2, tail := ["locked"], source := "" }, .eq,
          .value (.bool true)⟩] }
    let b : RuleBook :=
      { stateRules := [rule], stateReaches := [(.text "Folder", { ancestors := .upTo 2 })] }
    let inner : Record := ⟨.text "Folder", .text "inner", [("within", .text "middle")]⟩
    let middle : Record := ⟨.text "Folder", .text "middle", [("within", .text "outer")]⟩
    let outer : Record :=
      ⟨.text "Folder", .text "outer", [("within", .text "top"), ("locked", .bool true)]⟩
    let top : Record := ⟨.text "Folder", .text "top", []⟩
    let rows := [inner, middle, outer, top].map fun r => (r.id, r.data)
    let s : Store := { tables := [(.text "Folder", rows)] }
    let e : Engine := { catalog := c, rules := b }
    (exec (Traversal.collect c .up inner .all) s).1 = .ok [middle, outer, top] ∧
      (exec (e.stateOf inner) s).1 =
        .ok ⟨.text "Folder", [("title", { immutable := true })]⟩ := by
  intro within title c rule b inner middle outer top rows s e
  have registered : b.Registered :=
    .stateRule .empty (show ({} : RuleBook).addStateRule c rule = .ok b from rfl)
  have above : (exec (Traversal.collect c .up inner .all) s).1 = .ok [middle, outer, top] := rfl
  obtain ⟨state, computed, loaded⟩ :=
    e.stateOf_eq_compute registered inner rfl s [middle, outer, top] [] above rfl
  exact ⟨above, loaded.trans (computed.symm.trans rfl)⟩

end RecordRules
