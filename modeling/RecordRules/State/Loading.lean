import RecordRules.State.Compiled
import RecordRules.Store.Traversal

/-!
The state of a stored record. Only as many related records are loaded as the state rules of the
schema look at.
-/
namespace RecordRules.RecordState

def loadRelated (c : Catalog) (b : RuleBook) (r : Record) :
    Step Store (List Record × List Record) := do
  let reach := b.stateReach r.schema
  if reach.isNone then return ([], [])
  let ancestors ← Traversal.collect c .up r reach.ancestors
  let descendants ← Traversal.collect c .down r reach.descendants
  return (ancestors, descendants)

def load (c : Catalog) (b : RuleBook) (r : Record) : Step Store RecordState := do
  let (ancestors, descendants) ← loadRelated c b r
  Step.ofExcept (compute c b r ancestors descendants)

end RecordRules.RecordState
