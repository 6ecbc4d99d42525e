import RecordRules.Value.Order

/-!
Runtime flags of a field. Flags from several rules are merged: a flag is set when one of them
sets it, and the allowed values are those that all of them allow.
-/
namespace RecordRules

structure Flags where
  immutable : Bool := false
  required : Bool := false
  hidden : Bool := false
  /-- The values that are still allowed, if they are restricted. -/
  subset : Option (List Value) := none
deriving Repr

namespace Flags

def meet : Option (List Value) → Option (List Value) → Option (List Value)
  | none, t => t
  | s, none => s
  | some s, some t => some (Value.meet s t)

theorem meet_none (s : Option (List Value)) : meet s none = s := by
  cases s <;> rfl

def merge (a b : Flags) : Flags where
  immutable := a.immutable || b.immutable
  required := a.required || b.required
  hidden := a.hidden || b.hidden
  subset := meet a.subset b.subset

def isDefault (f : Flags) : Bool :=
  !(f.immutable || f.required || f.hidden) && f.subset.isNone

end Flags

def Flags.toValue (f : Flags) : Except Failure Value := do
  let flags : Entries := [("immutable", .bool f.immutable), ("required", .bool f.required),
    ("hidden", .bool f.hidden)]
  match f.subset with
  | none => return .object flags
  | some values => return .object (flags ++ [("enumSubset", .list (← Value.sorted? values))])

end RecordRules
