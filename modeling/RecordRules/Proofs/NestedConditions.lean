import RecordRules.Condition.Reader
import RecordRules.Step

/-!
Nested lists of conditions. A group of conditions and a single one may both be given as a list, and
only the shape of its members tells them apart. Main statement: however conditions are grouped, what
is read is the list of the conditions in the groups, from left to right; and if a path or an
operator in one of them cannot be read, nothing is.
-/
namespace RecordRules.Condition

variable {v spec : Value} {specs others : List Value} {c : Condition} {cs : List Condition}

/-- Definitions in groups, none of which is empty. -/
inductive Nest where
  | leaf (definition : Value)
  | group (first : Nest) (others : List Nest)

namespace Nest

mutual

def toValue : Nest → Value
  | leaf definition => definition
  | group first others => .list (toValue first :: toValues others)

def toValues : List Nest → List Value
  | [] => []
  | t :: rest => toValue t :: toValues rest

end

mutual

def leaves : Nest → List Value
  | leaf definition => [definition]
  | group first others => leaves first ++ leavesOfAll others

def leavesOfAll : List Nest → List Value
  | [] => []
  | t :: rest => leaves t ++ leavesOfAll rest

end

end Nest

def isCompound : Value → Bool
  | .list _ | .object _ => true
  | _ => false

/-- What can only be meant as one condition: an object, or three parts of which the first two do not
both stand for conditions. Three objects in a list, say, are a group. -/
inductive IsDefinition : Value → Prop where
  | object (entries : Entries) : IsDefinition (.object entries)
  | triple {path operator operand : Value}
      (apart : isCompound path = false ∨ isCompound operator = false) :
      IsDefinition (.list [path, operator, operand])

/-- The operator that a definition gives is none, or one of its paths cannot be read: the one that
leads to the value, or the operand if it is written as a path. -/
def Misnames (spec : Value) : Prop :=
  ∃ path operator operand, parts? spec = some (path, operator, operand) ∧
    ((∀ o : Operator, operator ≠ .text o.name) ∨
      (∀ source p, path = .text source → Path.read source ≠ .ok p) ∨
      ∃ source, operand = .text source ∧ Path.isPathText source = true ∧
        ∀ p, Path.read source ≠ .ok p)

theorem eq_text_of_readOperator {o : Operator} (read : readOperator v = .ok o) :
    v = .text o.name := by
  unfold readOperator at read
  split at read
  · rename_i found
    obtain rfl := Except.ok.inj read
    have same := List.find?_some found
    cases v with
    | text given => exact congrArg _ (eq_of_beq same)
    | _ => cases same
  · cases read

theorem readPath_eq_ok_iff {source : String} {p : Path} :
    readPath source = .ok p ↔ Path.read source = .ok p := by
  unfold readPath
  cases Path.read source with
  | error problem => exact iff_of_false (fun same => by cases same) (fun same => by cases same)
  | ok q =>
    constructor
    all_goals
      intro same
      cases same
      rfl

theorem operand_of_path {o : Operator} {source : String} {operand : Operand}
    (written : Path.isPathText source = true)
    (read : readOperand o (.text source) = .ok operand) : ∃ p, Path.read source = .ok p := by
  simp only [readOperand, written, ↓reduceIte] at read
  cases found : readPath source with
  | error failure =>
    rw [found] at read
    cases read
  | ok p => exact ⟨p, readPath_eq_ok_iff.mp found⟩

theorem parts_of_ofValue (read : ofValue spec = .ok c) :
    ∃ source operand, parts? spec = some (.text source, .text c.operator.name, operand) ∧
      Path.read source = .ok c.path ∧ readOperand c.operator operand = .ok c.operand := by
  unfold ofValue at read
  split at read
  · rename_i path operator operand taken
    split at read
    · rename_i source
      obtain ⟨o, named, read⟩ := bind_eq_ok.mp read
      split at read
      · cases read
      · obtain ⟨_, given, read⟩ := bind_eq_ok.mp read
        obtain ⟨p, found, read⟩ := bind_eq_ok.mp read
        obtain rfl := Except.ok.inj read
        rw [eq_text_of_readOperator named] at taken
        exact ⟨source, operand, taken, readPath_eq_ok_iff.mp found, given⟩
    · cases read
  · cases read

theorem Misnames.unread (misnames : Misnames spec) : ofValue spec ≠ .ok c := by
  obtain ⟨path, operator, operand, taken, wrong⟩ := misnames
  intro read
  obtain ⟨source, _, given, found, compared⟩ := parts_of_ofValue read
  rw [taken, Option.some.injEq, Prod.mk.injEq, Prod.mk.injEq] at given
  obtain ⟨rfl, rfl, rfl⟩ := given
  rcases wrong with unnamed | unread | ⟨other, rfl, written, unread⟩
  · exact unnamed c.operator rfl
  · exact unread source c.path rfl found
  · obtain ⟨p, found⟩ := operand_of_path written compared
    exact unread p found

theorem cases_of_ofValue (read : ofValue spec = .ok c) :
    (∃ entries, spec = .object entries) ∨
      ∃ source operand, spec = .list [.text source, .text c.operator.name, operand] := by
  obtain ⟨source, operand, taken, -⟩ := parts_of_ofValue read
  unfold parts? at taken
  split at taken
  · exact .inl ⟨_, rfl⟩
  · simp only [Option.some.injEq, Prod.mk.injEq] at taken
    obtain ⟨rfl, rfl, rfl⟩ := taken
    exact .inr ⟨source, _, rfl⟩
  · cases taken

theorem isDefinition_of_ofValue (read : ofValue spec = .ok c) : IsDefinition spec := by
  rcases cases_of_ofValue read with ⟨entries, rfl⟩ | ⟨source, operand, rfl⟩
  · exact .object entries
  · exact .triple (.inl rfl)

theorem map_singleton_eq_ok {outcome : Except Failure Condition} :
    outcome.map ([·]) = .ok cs ↔ ∃ c, outcome = .ok c ∧ cs = [c] := by
  cases outcome with
  | error failure => simp [Except.map]
  | ok c => simp [Except.map, eq_comm]

theorem readNested_ne_ok (plain : isCompound v = false) : readNested v ≠ .ok cs := by
  intro read
  cases v with
  | list _ | object _ => cases plain
  | _ => cases read

theorem readNested_list (group : isTriple (v :: others) = false) :
    readNested (.list (v :: others)) = readEach (v :: others) := by
  rw [readNested, group]
  rfl

theorem readNested_eq_ok_iff (shaped : IsDefinition spec) :
    readNested spec = .ok cs ↔ ∃ c, ofValue spec = .ok c ∧ cs = [c] := by
  cases shaped with
  | object entries => exact map_singleton_eq_ok
  | @triple path operator operand apart =>
    by_cases triple : isTriple [path, operator, operand] = true
    · rw [readNested, triple, Bool.or_true, if_pos rfl]
      exact map_singleton_eq_ok
    · rw [Bool.not_eq_true] at triple
      rw [readNested_list triple]
      constructor
      · intro read
        obtain ⟨_, first, read⟩ := bind_eq_ok.mp read
        obtain ⟨_, read, -⟩ := bind_eq_ok.mp read
        obtain ⟨_, second, -⟩ := bind_eq_ok.mp read
        rcases apart with plain | plain
        · exact absurd first (readNested_ne_ok plain)
        · exact absurd second (readNested_ne_ok plain)
      · rintro ⟨c, read, -⟩
        rcases cases_of_ofValue read with ⟨_, ⟨⟩⟩ | ⟨source, _, same⟩
        obtain ⟨rfl, rfl, -⟩ : path = .text source ∧ operator = .text c.operator.name ∧ _ := by
          simpa using same
        cases triple

theorem readEach_append (specs others : List Value) :
    readEach (specs ++ others) = do return (← readEach specs) ++ (← readEach others) := by
  induction specs with
  | nil => exact (bind_pure (readEach others)).symm
  | cons spec rest ih =>
    rw [List.cons_append, readEach, readEach, ih]
    simp only [bind_assoc, pure_bind, List.append_assoc]

theorem readEach_singleton (spec : Value) : readEach [spec] = readNested spec := by
  rw [readEach, readEach]
  cases readNested spec with
  | error failure => rfl
  | ok cs => exact congrArg Except.ok (List.append_nil cs)

theorem readEach_eq_ok_iff (shaped : ∀ v ∈ specs, IsDefinition v) :
    readEach specs = .ok cs ↔ specs.mapM ofValue = .ok cs := by
  induction specs generalizing cs with
  | nil => exact Iff.rfl
  | cons spec rest ih =>
    obtain ⟨here, later⟩ := List.forall_mem_cons.mp shaped
    rw [readEach, List.mapM_cons, bind_eq_ok, bind_eq_ok]
    constructor
    · rintro ⟨first, read, remaining⟩
      obtain ⟨others, readOthers, given⟩ := bind_eq_ok.mp remaining
      obtain ⟨c, made, rfl⟩ := (readNested_eq_ok_iff here).mp read
      exact ⟨c, made, bind_eq_ok.mpr ⟨others, (ih later).mp readOthers, given⟩⟩
    · rintro ⟨c, made, remaining⟩
      obtain ⟨others, readOthers, given⟩ := bind_eq_ok.mp remaining
      refine ⟨[c], (readNested_eq_ok_iff here).mpr ⟨c, made, rfl⟩, ?_⟩
      exact bind_eq_ok.mpr ⟨others, (ih later).mpr readOthers, given⟩

namespace Nest

theorem isTriple_toValue (t : Nest) (shaped : ∀ v ∈ t.leaves, IsDefinition v)
    (others : List Value) : isTriple (t.toValue :: others) = false := by
  cases t with
  | leaf definition =>
    cases shaped definition (List.mem_singleton.mpr rfl) with
    | object _ | triple _ => rfl
  | group first rest => rfl

mutual

theorem readNested_toValue : (t : Nest) → (∀ v ∈ t.leaves, IsDefinition v) →
    readNested t.toValue = readEach t.leaves
  | leaf definition => fun _ => by
    rw [leaves, toValue, readEach_singleton]
  | group first others => fun shaped => by
    rw [leaves] at shaped
    obtain ⟨here, later⟩ := List.forall_mem_append.mp shaped
    rw [toValue, readNested_list (isTriple_toValue first here _), leaves, readEach_append, readEach,
      readNested_toValue first here, readEach_toValues others later]

theorem readEach_toValues : (nests : List Nest) → (∀ v ∈ leavesOfAll nests, IsDefinition v) →
    readEach (toValues nests) = readEach (leavesOfAll nests)
  | [] => fun _ => rfl
  | t :: rest => fun shaped => by
    rw [leavesOfAll] at shaped
    obtain ⟨here, later⟩ := List.forall_mem_append.mp shaped
    rw [toValues, leavesOfAll, readEach_append, readEach, readNested_toValue t here,
      readEach_toValues rest later]

end

end Nest

theorem readAll_group_eq_ok_iff {first : Nest} {others : List Nest}
    (shaped : ∀ v ∈ (Nest.group first others).leaves, IsDefinition v) :
    readAll (Nest.group first others).toValue = .ok cs ↔
      (Nest.group first others).leaves.mapM ofValue = .ok cs := by
  have flat : readAll (Nest.group first others).toValue =
      readEach (Nest.group first others).leaves :=
    Nest.readEach_toValues (first :: others) shaped
  rw [flat, readEach_eq_ok_iff shaped]

/-- However definitions of conditions are grouped into a list, what is read is the list of the
conditions in it, from left to right, and it holds where each of them does; and the list is refused
if a path or an operator in one of the definitions cannot be read. -/
theorem readAll_nested (first : Nest) (others : List Nest) :
    let nest := Nest.group first others
    ((∀ v ∈ nest.leaves, ∃ c, ofValue v = .ok c) →
      ∃ cs, readAll nest.toValue = .ok cs ∧ nest.leaves.mapM ofValue = .ok cs ∧
        ∀ scene, allHold cs scene = true ↔
          ∀ v ∈ nest.leaves, ∃ c, ofValue v = .ok c ∧ c.holds scene = true) ∧
    ((∀ v ∈ nest.leaves, IsDefinition v) → (∃ v ∈ nest.leaves, Misnames v) →
      ∃ failure, readAll nest.toValue = .error failure) := by
  intro nest
  constructor
  · intro valid
    have shaped (v : Value) (listed : v ∈ nest.leaves) : IsDefinition v := by
      obtain ⟨c, read⟩ := valid v listed
      exact isDefinition_of_ofValue read
    obtain ⟨cs, made⟩ := exists_mapM_eq_ok valid
    refine ⟨cs, (readAll_group_eq_ok_iff shaped).mpr made, made, fun scene => ?_⟩
    rw [allHold, List.all_eq_true]
    constructor
    · intro all v listed
      obtain ⟨c, among, read⟩ := exists_mem_of_mapM made listed
      exact ⟨c, read, all c among⟩
    · intro each c among
      obtain ⟨v, listed, read⟩ := exists_of_mem_mapM made among
      obtain ⟨d, again, holds⟩ := each v listed
      rw [read, Except.ok.injEq] at again
      rwa [again]
  · rintro shaped ⟨v, listed, misnames⟩
    cases read : readAll nest.toValue with
    | error failure => exact ⟨failure, rfl⟩
    | ok cs =>
      have made := (readAll_group_eq_ok_iff shaped).mp read
      obtain ⟨c, -, made⟩ := exists_mem_of_mapM made listed
      exact absurd made misnames.unread

theorem readAll_nested_tasks :
    let status : Value := .list [.text "status", .text "eq", .text "open"]
    let effort : Value := .object [("field", .text "effort"), ("op", .text "gt"), ("value", .int 3)]
    let tags : Value := .list [.text "tags", .text "in", .list [.text "urgent", .text "late"]]
    let owner : Value := .list [.text "owner", .text "eq", .text "$parent.owner"]
    let brokenOff : Value := .list [.text "$parent.", .text "eq", .text "open"]
    let three : Nest := .group (.leaf status) [.leaf effort, .leaf tags]
    let nest : Nest := .group three [.group (.group (.leaf owner) []) []]
    let broken : Nest := .group (.leaf effort) [.group (.leaf status) [.leaf brokenOff, .leaf tags]]
    nest.leaves = [status, effort, tags, owner] ∧
    (∃ cs, readAll nest.toValue = .ok cs ∧ nest.leaves.mapM ofValue = .ok cs) ∧
    ∃ failure, readAll broken.toValue = .error failure := by
  intro status effort tags owner brokenOff three nest broken
  refine ⟨rfl, ?_, ?_⟩
  · have valid : ∀ v ∈ nest.leaves, (ofValue v).isOk = true := by decide +kernel +zetaReduce
    obtain ⟨cs, read, made, -⟩ := (readAll_nested _ _).1 fun v listed =>
      exists_of_isOk (valid v listed)
    exact ⟨cs, read, made⟩
  · have unread : (Path.read "$parent.").isOk = false := by decide +kernel
    have leaves : broken.leaves = [effort, status, brokenOff, tags] := rfl
    have shaped : ∀ v ∈ broken.leaves, IsDefinition v := by
      rw [leaves]
      simp only [List.forall_mem_cons]
      exact ⟨.object _, .triple (.inl rfl), .triple (.inl rfl), .triple (.inl rfl), by simp⟩
    have listed : brokenOff ∈ broken.leaves := by
      rw [leaves]
      simp
    refine (readAll_nested _ _).2 shaped ⟨brokenOff, listed, _, _, _, rfl, .inr (.inl ?_)⟩
    rintro source p ⟨⟩ read
    rw [read] at unread
    cases unread

end RecordRules.Condition
