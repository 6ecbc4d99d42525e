import RecordRules.Store.Basic

/-!
Traversal: related records upwards or downwards, breadth first, each once, at most a given number
of them.
-/
namespace RecordRules

inductive Direction where
  | up
  | down
deriving DecidableEq, Repr

def Direction.scope : Direction → Scope
  | up => .parent
  | down => .child

namespace Traversal

def maxFound : Nat := 256

def limitOf : Extent → Nat
  | .upTo n => min n maxFound
  | .all => maxFound

theorem limitOf_upTo (n : Nat) : limitOf (.upTo n) = min n 256 := rfl

theorem limitOf_all : limitOf .all = 256 := rfl

/-- Records found so far, in order, and those among them found from the level before. -/
structure Front where
  found : List Record := []
  level : List Record := []
deriving Repr

def Front.knows (front : Front) (start : Record) (r : Record) : Bool :=
  r.key == start.key || front.found.any fun q => q.key == r.key

def take (start : Record) (limit : Nat) : List Record → Front → Front
  | [], front => front
  | r :: rest, front =>
    if front.knows start r then take start limit rest front
    else
      let grown : Front := ⟨front.found ++ [r], front.level ++ [r]⟩
      if limit ≤ grown.found.length then grown else take start limit rest grown

section

variable {m : Type → Type} [Monad m] (look : Record → m (List Record)) (start : Record)
  (limit : Nat)

def expand : List Record → Front → m Front
  | [], front => return front
  | r :: rest, front => do
    let grown := take start limit (← look r) front
    if limit ≤ grown.found.length then return grown
    else expand rest grown

/-- Go on level by level. Every level but the last finds something, so a bound of `limit` on the
number of levels is never felt. -/
def levels : Nat → List Record → List Record → m (List Record)
  | 0, _, found => return found
  | _ + 1, [], found => return found
  | rounds + 1, r :: rest, found => do
    if limit ≤ found.length then return found
    let front ← expand look start limit (r :: rest) ⟨found, []⟩
    levels rounds front.level front.found

def reached (extent : Extent) : m (List Record) :=
  if extent.isNone then return []
  else
    let limit := limitOf extent
    levels look start limit (limit + 1) [start] []

end

def collect (c : Catalog) (direction : Direction) (start : Record) (extent : Extent) :
    Step Store (List Record) :=
  reached (fun r => Store.related c r direction.scope) start extent

end Traversal

end RecordRules
