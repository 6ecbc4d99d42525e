import RecordRules.Engine.Change

/-!
The calls by which a host changes stored records, as data.
-/
namespace RecordRules

inductive HostCall where
  | create (schema : Key) (payload : Value) (placement : Placement)
  | update (schema id : Key) (updates : Value)
  | delete (schema id : Key)
  /-- Report events that happened elsewhere. -/
  | report (events : List Event)
deriving Repr

inductive HostAnswer where
  | mutation (m : Mutation)
  | cascade (c : Cascade)
deriving Repr

def Engine.perform (e : Engine) : HostCall → Step Store HostAnswer
  | .create schema payload placement => return .mutation (← e.create schema payload placement)
  | .update schema id updates => return .mutation (← e.update schema id updates)
  | .delete schema id => return .mutation (← e.delete schema id)
  | .report events => return .cascade (← e.run events)

end RecordRules
