import RecordRules.Path.Basic

/-!
Reach: how many related records a set of paths looks at.
-/
namespace RecordRules

structure Reach where
  ancestors : Extent := .none
  descendants : Extent := .none
deriving DecidableEq, Repr

namespace Reach

def isNone (r : Reach) : Bool := r.ancestors.isNone && r.descendants.isNone

def join (r s : Reach) : Reach := ⟨r.ancestors.join s.ancestors, r.descendants.join s.descendants⟩

def ofPath (p : Path) : Reach :=
  match p.origin with
  | .parent => { ancestors := p.extent }
  | .child => { descendants := p.extent }
  | _ => {}

def ofPaths (paths : List Path) : Reach := paths.foldl (fun r p => r.join (ofPath p)) {}

end Reach

/-- What the rules under each key look at, kept up to date while rules are added. -/
abbrev ReachTable (κ : Type) := Keyed κ Reach

namespace ReachTable

variable {κ : Type} [BEq κ]

def reachOf (table : ReachTable κ) (key : κ) : Reach := (table.find? key).getD {}

def widen (table : ReachTable κ) (key : κ) (paths : List Path) : ReachTable κ :=
  table.put key ((table.reachOf key).join (Reach.ofPaths paths))

theorem reachOf_widen [EquivBEq κ] (table : ReachTable κ) (key other : κ) (paths : List Path) :
    (table.widen key paths).reachOf other =
      if key == other then (table.reachOf other).join (Reach.ofPaths paths)
      else table.reachOf other := by
  unfold widen reachOf
  rw [Keyed.find?_put]
  split
  · rename_i same
    rw [Keyed.find?_congr same]
    rfl
  · rfl

end ReachTable

end RecordRules
