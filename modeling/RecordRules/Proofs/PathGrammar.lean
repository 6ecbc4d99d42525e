import RecordRules.Condition.Reader
import RecordRules.Proofs.Numerals
import RecordRules.Proofs.SplitTexts
import RecordRules.Step

/-!
The grammar of paths: names with points between them, arguments in parentheses, and the four
origins. It says which texts are paths, and what each of them means, without saying how they are
read. Main statement: for a text on one line, the grammar decides whether it is read, and as what.
-/
namespace RecordRules.Path

open Text (Strips Numeral stripChars isBlank)

inductive Name : List Char → Prop where
  | mk {c : Char} {rest : List Char} (first : c.isAlpha = true ∨ c = '_')
      (later : ∀ d ∈ rest, d.isAlphanum = true ∨ d = '_') : Name (c :: rest)

/-- Names with a point between each two of them. -/
inductive Tail : List Char → List String → Prop where
  | last {cs : List Char} (name : Name cs) : Tail cs [String.ofList cs]
  | more {cs rest : List Char} {tail : List String} (name : Name cs) (later : Tail rest tail) :
      Tail (cs ++ '.' :: rest) (String.ofList cs :: tail)

inductive Quoted : List Char → List Char → Prop where
  | mk {mark : Char} {name : List Char} (marks : mark = '"' ∨ mark = '\x27') (given : name ≠ [])
      (plain : '"' ∉ name ∧ '\x27' ∉ name) : Quoted (mark :: (name ++ [mark])) name

/-- A place is the numeral of a number from one on. Blanks may stand around it. -/
inductive Place : List Char → Nat → Prop where
  | mk {cs core : List Char} {index : Nat} (strips : Strips cs core) (numeral : Numeral core index)
      (positive : 1 ≤ index) : Place cs index

inductive Selected : List Char → String → Prop where
  | mk {cs core name : List Char} (strips : Strips cs core) (quoted : Quoted core name)
      (joined : ',' ∉ name) : Selected cs (String.ofList name)

/-- What may stand between the parentheses: nothing, a place, a schema, or a schema and a place. -/
inductive Arguments : List Char → Nat → Option String → Prop where
  | blank {cs : List Char} (blank : ∀ c ∈ cs, isBlank c = true) : Arguments cs 1 none
  | place {cs : List Char} {index : Nat} (place : Place cs index) : Arguments cs index none
  | schema {cs : List Char} {name : String} (schema : Selected cs name) : Arguments cs 1 (some name)
  | both {first second : List Char} {name : String} {index : Nat} (schema : Selected first name)
      (place : Place second index) : Arguments (first ++ ',' :: second) index (some name)

inductive OptionalArguments : List Char → Nat → Option String → Prop where
  | none : OptionalArguments [] 1 none
  | given {cs : List Char} {index : Nat} {schema : Option String} (closed : ')' ∉ cs)
      (arguments : Arguments cs index schema) :
      OptionalArguments ('(' :: (cs ++ [')'])) index schema

inductive OptionalTail : List Char → List String → Prop where
  | none : OptionalTail [] []
  | given {cs : List Char} {tail : List String} (later : Tail cs tail) :
      OptionalTail ('.' :: cs) tail

/-- The texts of a path, by its origin, the place and the schema of a related record, and the names
that are followed from there. -/
inductive Spells : List Char → Origin → Nat → Option String → List String → Prop where
  | bare {cs : List Char} {tail : List String} (names : Tail cs tail) :
      Spells cs .object 1 none tail
  | object {cs : List Char} {tail : List String} (names : OptionalTail cs tail) :
      Spells ("$eventObject".toList ++ cs) .object 1 none tail
  | modified : Spells "$modifiedFields".toList .modified 1 none []
  | parent {as cs : List Char} {index : Nat} {schema : Option String} {tail : List String}
      (arguments : OptionalArguments as index schema) (names : OptionalTail cs tail) :
      Spells ("$parent".toList ++ (as ++ cs)) .parent index schema tail
  | child {as cs : List Char} {index : Nat} {schema : Option String} {tail : List String}
      (arguments : OptionalArguments as index schema) (names : OptionalTail cs tail) :
      Spells ("$child".toList ++ (as ++ cs)) .child index schema tail

theorem throw_ne_ok {ε α : Type} {problem : ε} {x : α} :
    (throw problem : Except ε α) ≠ .ok x := nofun

theorem pure_eq_ok {ε α : Type} {x y : α} : (pure x : Except ε α) = .ok y ↔ x = y := by
  simp [pure, Except.pure]

section Names

variable {source : String} {cs : List Char} {tail : List String}

theorem isFieldName_iff (oneLine : '\n' ∉ cs) : isFieldName cs = true ↔ Name cs := by
  cases cs with
  | nil =>
    simp only [isFieldName, Bool.false_eq_true, false_iff]
    rintro ⟨⟩
  | cons c rest =>
    have noEnd : rest.getLast? ≠ some '\n' := by
      intro last
      exact oneLine (List.mem_cons_of_mem c (List.mem_of_getLast? last))
    simp only [isFieldName, noEnd, if_false, isNameStart, isNameChar, Bool.and_eq_true,
      Bool.or_eq_true, decide_eq_true_eq, List.all_eq_true]
    constructor
    · rintro ⟨first, later⟩
      exact .mk first later
    · rintro ⟨first, later⟩
      exact ⟨first, later⟩

theorem Name.joined (name : Name cs) : '.' ∉ cs := by
  rintro member
  cases name with
  | mk first later =>
    rcases List.mem_cons.mp member with rfl | member
    · exact absurd first (by decide)
    · exact absurd (later _ member) (by decide)

theorem readTail_append_cons {first rest : List Char} (absent : '.' ∉ first) :
    readTail source (first ++ '.' :: rest) = .ok tail ↔
      ∃ more, isFieldName first = true ∧ readTail source rest = .ok more ∧
        tail = String.ofList first :: more := by
  rw [readTail, pieces_append_cons absent, List.mapM_cons, bind_eq_ok]
  constructor
  · rintro ⟨part, read, others⟩
    obtain ⟨more, later, done⟩ := bind_eq_ok.mp others
    split at read
    · rename_i name
      obtain rfl := Except.ok.inj read
      exact ⟨more, name, later, (Except.ok.inj done).symm⟩
    · cases read
  · rintro ⟨more, name, later, rfl⟩
    exact ⟨_, if_pos name, bind_eq_ok.mpr ⟨more, later, rfl⟩⟩

theorem Tail.ne_nil (names : Tail cs tail) : cs ≠ [] ∧ tail ≠ [] := by
  cases names with
  | last name => cases name; simp
  | more name later => simp

theorem tail_of_joined (joined : '.' ∉ cs) :
    Tail cs tail ↔ Name cs ∧ tail = [String.ofList cs] := by
  constructor
  · intro names
    cases names with
    | last name => exact ⟨name, rfl⟩
    | more name later => simp at joined
  · rintro ⟨name, rfl⟩
    exact .last name

theorem tail_append_cons {first rest : List Char} (absent : '.' ∉ first) :
    Tail (first ++ '.' :: rest) tail ↔
      ∃ more, Name first ∧ Tail rest more ∧ tail = String.ofList first :: more := by
  constructor
  · intro names
    generalize whole : first ++ '.' :: rest = text at names
    cases names with
    | last name => exact absurd (by simp [← whole]) name.joined
    | more name later =>
      obtain ⟨rfl, rfl⟩ := first_unique absent name.joined whole
      exact ⟨_, name, later, rfl⟩
  · rintro ⟨more, name, later, rfl⟩
    exact .more name later

theorem readTail_eq_ok_iff (oneLine : '\n' ∉ cs) :
    readTail source cs = .ok tail ↔ Tail cs tail := by
  -- What stands behind the first point of a text is shorter than the text.
  induction size : cs.length using Nat.strong_induction_on generalizing cs tail with
  | h n ih =>
    subst size
    rcases pieces_cases '.' cs with ⟨joined, whole⟩ | ⟨first, rest, rfl, absent, -⟩
    · rw [tail_of_joined joined, ← isFieldName_iff oneLine, readTail, whole]
      by_cases name : isFieldName cs = true
      · simp [name, bind, Except.bind, pure, Except.pure, @eq_comm _ tail]
      · simp [name, bind, Except.bind]
    · simp only [List.mem_append, List.mem_cons, not_or] at oneLine
      rw [readTail_append_cons absent, tail_append_cons absent, isFieldName_iff oneLine.1]
      have later (more : List String) : readTail source rest = .ok more ↔ Tail rest more :=
        ih rest.length (by simp; omega) oneLine.2.2 rfl
      simp only [later]

end Names

section Arguments

variable {source : String} {cs core name : List Char} {index : Nat} {schema : Option String}

theorem quoted?_eq_some_iff : quoted? cs = some name ↔ Quoted cs name := by
  constructor
  · intro read
    cases cs with
    | nil => cases read
    | cons mark rest =>
      simp only [quoted?, Option.ite_none_right_eq_some, Bool.or_eq_true, Bool.and_eq_true,
        decide_eq_true_eq, Bool.not_eq_true', List.isEmpty_eq_false_iff, List.all_eq_true] at read
      obtain ⟨marks, ⟨⟨last, given⟩, plain⟩, same⟩ := read
      obtain ⟨inner, rfl⟩ := List.getLast?_eq_some_iff.mp last
      rw [List.dropLast_concat] at given plain same
      obtain rfl := Option.some.inj same
      refine .mk marks given ⟨?_, ?_⟩
      · intro member
        exact (plain _ member).1 rfl
      · intro member
        exact (plain _ member).2 rfl
  · rintro ⟨marks, given, noDouble, noSingle⟩
    simp only [quoted?, Option.ite_none_right_eq_some, Bool.or_eq_true, Bool.and_eq_true,
      decide_eq_true_eq, Bool.not_eq_true', List.isEmpty_eq_false_iff, List.all_eq_true,
      List.getLast?_concat, List.dropLast_concat]
    refine ⟨marks, ⟨⟨trivial, given⟩, ?_⟩, trivial⟩
    intro c member
    constructor
    · rintro rfl
      exact noDouble member
    · rintro rfl
      exact noSingle member

theorem place_iff :
    Place cs index ↔ ∃ n, Text.readInteger? (stripChars cs) = some n ∧ 1 ≤ n ∧ index = n.toNat := by
  constructor
  · rintro ⟨strips, numeral, positive⟩
    rw [Text.stripChars_eq_iff.mpr strips]
    exact ⟨index, Text.readInteger?_eq_some_iff.mpr numeral, by omega, rfl⟩
  · rintro ⟨n, read, positive, rfl⟩
    refine .mk (Text.stripChars_eq_iff.mp rfl) ?_ (by omega)
    rw [Int.toNat_of_nonneg (by omega)]
    exact Text.readInteger?_eq_some_iff.mp read

theorem not_numeral_cons {c : Char} {n : Int} (other : Text.digit? c = none)
    (unsigned : c ≠ '+' ∧ c ≠ '-') :
    ¬Numeral (c :: cs) n := by
  intro numeral
  cases numeral with
  | plain digits few => exact digits.not_cons other
  | plus digits few => exact unsigned.1 rfl
  | minus digits few => exact unsigned.2 rfl

theorem Quoted.mem (quoted : Quoted cs name) {c : Char} (member : c ∈ name) : c ∈ cs := by
  rcases quoted with ⟨marks, given, plain⟩
  simp [member]

theorem Quoted.not_numeral (quoted : Quoted cs name) {n : Int} : ¬Numeral cs n := by
  rcases quoted with ⟨rfl | rfl, given, plain⟩
  · exact not_numeral_cons (by decide) (by decide)
  · exact not_numeral_cons (by decide) (by decide)

theorem comma_of_strips (strips : Strips cs core) : ',' ∈ cs ↔ ',' ∈ core := by
  refine ⟨?_, strips.mem⟩
  obtain ⟨before, after, rfl, blank, blank'⟩ := strips.around
  intro member
  have written : Text.isBlank ',' = false := by decide
  simp only [List.mem_append] at member
  rcases member with (member | member) | member
  · simp [blank _ member] at written
  · exact member
  · simp [blank' _ member] at written

theorem Place.joined (place : Place cs index) : ',' ∉ cs := by
  rcases place with ⟨strips, numeral, -⟩
  rw [comma_of_strips strips]
  intro member
  exact absurd (numeral.mem _ member) (by decide)

theorem Selected.joined {name : String} (schema : Selected cs name) : ',' ∉ cs := by
  rcases schema with ⟨strips, ⟨rfl | rfl, given, plain⟩, joined⟩
  · simp [comma_of_strips strips, joined]
  · simp [comma_of_strips strips, joined]

theorem selected_iff (joined : ',' ∉ cs) {name : String} :
    Selected cs name ↔
      ∃ inner, quoted? (stripChars cs) = some inner ∧ name = String.ofList inner := by
  simp only [quoted?_eq_some_iff]
  constructor
  · rintro ⟨strips, quoted, -⟩
    rw [Text.stripChars_eq_iff.mpr strips]
    exact ⟨_, quoted, rfl⟩
  · rintro ⟨inner, quoted, rfl⟩
    have strips : Strips cs (stripChars cs) := Text.stripChars_eq_iff.mp rfl
    exact .mk strips quoted fun member => joined (strips.mem (quoted.mem member))

theorem read_place_iff {chosen : Option String} {problem problem' : RuleProblem} :
    (match Text.readInteger? (stripChars cs) with
      | none => (throw problem : Except RuleProblem (Nat × Option String))
      | some n => if n < 1 then throw problem' else pure (n.toNat, chosen)) =
        .ok (index, schema) ↔ Place cs index ∧ schema = chosen := by
  rw [place_iff]
  cases Text.readInteger? (stripChars cs) with
  | none => simp
  | some n =>
    by_cases low : n < 1
    · simp only [low, if_true, throw_ne_ok, Option.some.injEq, false_iff]
      rintro ⟨⟨m, rfl, positive, -⟩, -⟩
      omega
    · simp only [low, if_false, pure_eq_ok, Option.some.injEq, Prod.mk.injEq]
      constructor
      · rintro ⟨rfl, rfl⟩
        exact ⟨⟨n, rfl, by omega, rfl⟩, rfl⟩
      · rintro ⟨⟨m, rfl, -, rfl⟩, rfl⟩
        exact ⟨rfl, rfl⟩

theorem readArguments_joined (joined : ',' ∉ cs) :
    readArguments source cs = .ok (index, schema) ↔
      (∃ name, Selected cs name ∧ index = 1 ∧ schema = some name) ∨
        (Place cs index ∧ schema = none) := by
  simp only [readArguments, pieces_of_not_mem joined, List.map_cons, List.map_nil,
    selected_iff joined]
  cases quoted : quoted? (stripChars cs) with
  | none =>
    simp only [reduceCtorEq, false_and, exists_false, false_or]
    exact read_place_iff
  | some name =>
    have noPlace : ¬Place cs index := by
      rintro ⟨strips, numeral, -⟩
      rw [Text.stripChars_eq_iff.mpr strips] at quoted
      exact (quoted?_eq_some_iff.mp quoted).not_numeral numeral
    simp only [Option.some.injEq, pure_eq_ok, Prod.mk.injEq, noPlace, false_and, or_false]
    grind

theorem readArguments_append_cons {first rest : List Char} (absent : ',' ∉ first) :
    readArguments source (first ++ ',' :: rest) = .ok (index, schema) ↔
      ∃ name, Selected first name ∧ Place rest index ∧ schema = some name := by
  simp only [readArguments, pieces_append_cons absent, List.map_cons, selected_iff absent]
  rcases pieces_cases ',' rest with ⟨joined, whole⟩ | ⟨other, more, rfl, -, parted⟩
  · rw [whole]
    cases quoted? (stripChars first) with
    | none => simp
    | some name =>
      simp only [Option.some.injEq, List.map_cons, List.map_nil, exists_eq_left', exists_eq_left]
      exact read_place_iff
  · have noPlace : ¬Place (other ++ ',' :: more) index := by
      intro place
      exact place.joined (by simp)
    obtain ⟨piece, pieces', cut⟩ := List.exists_cons_of_ne_nil (pieces_ne_nil ',' more)
    simp only [noPlace, false_and, and_false, exists_false, iff_false, parted, cut, List.map_cons]
    cases quoted? (stripChars first) with
    | none => simp
    | some name => simp

theorem arguments_blank (empty : Strips cs []) :
    Arguments cs index schema ↔ index = 1 ∧ schema = none := by
  have blank := Text.Strips.nil_iff.mp empty
  constructor
  · intro arguments
    cases arguments with
    | blank blank => exact ⟨rfl, rfl⟩
    | place place =>
      obtain ⟨strips, numeral, -⟩ := place
      obtain rfl := strips.unique empty
      cases numeral with
      | plain digits few => cases digits
    | schema schema =>
      obtain ⟨strips, quoted, -⟩ := schema
      obtain rfl := strips.unique empty
      cases quoted
    | both schema place => exact absurd (blank ',' (by simp)) (by decide)
  · rintro ⟨rfl, rfl⟩
    exact .blank blank

theorem arguments_joined (joined : ',' ∉ cs) (given : stripChars cs ≠ []) :
    Arguments cs index schema ↔
      (∃ name, Selected cs name ∧ index = 1 ∧ schema = some name) ∨
        (Place cs index ∧ schema = none) := by
  constructor
  · intro arguments
    cases arguments with
    | blank blank => exact absurd (Text.stripChars_eq_iff.mpr (Text.strips_of_blank blank)) given
    | place place => exact .inr ⟨place, rfl⟩
    | schema schema => exact .inl ⟨_, schema, rfl, rfl⟩
    | both schema place => simp at joined
  · rintro (⟨name, schema, rfl, rfl⟩ | ⟨place, rfl⟩)
    · exact .schema schema
    · exact .place place

theorem arguments_append_cons {first rest : List Char} (absent : ',' ∉ first) :
    Arguments (first ++ ',' :: rest) index schema ↔
      ∃ name, Selected first name ∧ Place rest index ∧ schema = some name := by
  constructor
  · intro arguments
    generalize whole : first ++ ',' :: rest = text at arguments
    have comma : ',' ∈ text := by simp [← whole]
    cases arguments with
    | blank blank => exact absurd (blank _ comma) (by decide)
    | place place => exact absurd comma place.joined
    | schema schema => exact absurd comma schema.joined
    | both schema place =>
      obtain ⟨rfl, rfl⟩ := first_unique absent schema.joined whole
      exact ⟨_, schema, place, rfl⟩
  · rintro ⟨name, schema, place, rfl⟩
    exact .both schema place

theorem readArguments_iff :
    (if (stripChars cs).isEmpty then pure (1, none) else readArguments source cs) =
        .ok (index, schema) ↔
      Arguments cs index schema := by
  by_cases blank : stripChars cs = []
  · rw [if_pos (by simp [blank]), pure_eq_ok, arguments_blank (Text.stripChars_eq_iff.mp blank)]
    simp [eq_comm]
  · rw [if_neg (by simpa using blank)]
    rcases pieces_cases ',' cs with ⟨joined, -⟩ | ⟨first, rest, rfl, absent, -⟩
    · rw [readArguments_joined joined, arguments_joined joined blank]
    · rw [readArguments_append_cons absent, arguments_append_cons absent]

end Arguments

section Parts

variable {source : String} {cs : List Char} {origin : Origin} {p : Path}

theorem behind?_eq_some_iff {as rest : List Char} :
    behind? as cs = some rest ↔ cs = as ++ rest := by
  induction as generalizing cs with
  | nil => simp [behind?]
  | cons a more ih =>
    cases cs with
    | nil => simp [behind?]
    | cons c others =>
      by_cases same : a = c
      · simp [behind?, same, ih]
      · simp [behind?, same, Ne.symm same]

theorem splitArguments?_bare {rest : List Char} (bare : rest.head? ≠ some '(') :
    splitArguments? origin rest = (splitTail? rest).map fun tail => ⟨origin, none, tail⟩ := by
  rw [splitArguments?]
  rintro more rfl
  exact bare rfl

theorem splitArguments?_given {as rest : List Char} (closed : ')' ∉ as) :
    splitArguments? origin ('(' :: (as ++ ')' :: rest)) =
      (splitTail? rest).map fun tail => ⟨origin, some as, tail⟩ := by
  have inside : ∀ c ∈ as, decide (c ≠ ')') = true := by
    intro c member
    rw [decide_eq_true_eq]
    rintro rfl
    exact closed member
  simp only [splitArguments?, List.dropWhile_append_of_pos inside,
    List.takeWhile_append_of_pos inside]
  simp

theorem splitArguments?_open (unclosed : ')' ∉ cs) : splitArguments? origin ('(' :: cs) = none := by
  have all : cs.dropWhile (· ≠ ')') = [] := by
    rw [List.dropWhile_eq_nil_iff]
    intro c member
    rw [decide_eq_true_eq]
    rintro rfl
    exact unclosed member
  simp only [splitArguments?, all]

theorem splitArguments?_eq_some {rest : List Char} {parts : Parts}
    (split : splitArguments? origin rest = some parts) : parts.origin = origin ∧
      ((parts.arguments = none ∧ splitTail? rest = some parts.tail) ∨
        ∃ as behind, parts.arguments = some as ∧ ')' ∉ as ∧ rest = '(' :: (as ++ ')' :: behind) ∧
          splitTail? behind = some parts.tail) := by
  by_cases opened : rest.head? = some '('
  · obtain ⟨inside, rfl⟩ := List.head?_eq_some_iff.mp opened
    by_cases closed : ')' ∈ inside
    · obtain ⟨as, behind, rfl, absent⟩ := List.eq_append_cons_of_mem closed
      rw [splitArguments?_given absent] at split
      obtain ⟨found, read, rfl⟩ := Option.map_eq_some_iff.mp split
      exact ⟨rfl, .inr ⟨as, behind, rfl, absent, rfl, read⟩⟩
    · rw [splitArguments?_open closed] at split
      cases split
  · rw [splitArguments?_bare opened] at split
    obtain ⟨found, read, rfl⟩ := Option.map_eq_some_iff.mp split
    exact ⟨rfl, .inl ⟨rfl, read⟩⟩

theorem split?_append (origin : Origin) (rest : List Char) :
    split? (origin.name.toList ++ rest) = splitArguments? origin rest := by
  have own : behind? origin.name.toList (origin.name.toList ++ rest) = some rest :=
    behind?_eq_some_iff.mpr rfl
  have others : ∀ other ≠ origin,
      behind? other.name.toList (origin.name.toList ++ rest) = none := by
    intro other different
    cases origin <;> cases other <;> first | rfl | exact absurd rfl different
  cases read : splitArguments? origin rest <;> cases origin <;>
    simp [split?, Origin.all, own, others, read]

theorem split?_eq_some {parts : Parts} (split : split? cs = some parts) :
    ∃ origin rest, cs = origin.name.toList ++ rest ∧ splitArguments? origin rest = some parts := by
  obtain ⟨origin, -, found⟩ := List.exists_of_findSome?_eq_some split
  obtain ⟨rest, behind, read⟩ := Option.bind_eq_some_iff.mp found
  exact ⟨origin, rest, behind?_eq_some_iff.mp behind, read⟩

def tailOf (source : String) : Option (List Char) → Except RuleProblem (List String)
  | some names => readTail source names
  | none => pure []

def argumentsOf (source : String) : Option (List Char) → Except RuleProblem (Nat × Option String)
  | some as => if (stripChars as).isEmpty then pure (1, none) else readArguments source as
  | none => pure (1, none)

theorem splitTail?_iff (oneLine : '\n' ∉ cs) {tail : List String} :
    (∃ found, splitTail? cs = some found ∧ tailOf source found = .ok tail) ↔
      OptionalTail cs tail := by
  constructor
  · rintro ⟨found, split, read⟩
    unfold splitTail? at split
    split at split
    · obtain rfl := Option.some.inj split
      obtain rfl := pure_eq_ok.mp read
      exact .none
    · rename_i names
      split at split
      · cases split
      · obtain rfl := Option.some.inj split
        have noEnd : '\n' ∉ names := fun member => oneLine (List.mem_cons_of_mem _ member)
        exact .given ((readTail_eq_ok_iff noEnd).mp read)
    · cases split
  · intro optional
    cases optional with
    | none => exact ⟨none, rfl, rfl⟩
    | given names =>
      simp only [List.mem_cons, not_or] at oneLine
      refine ⟨some _, ?_, (readTail_eq_ok_iff oneLine.2).mpr names⟩
      simp [splitTail?, names.ne_nil.1, oneLine.2]

/-- The reader in the order of its steps: the tail, the two checks and the arguments. -/
theorem readFromOrigin_of_split {parts : Parts} (split : split? cs = some parts) :
    readFromOrigin source cs = (do
      let tail ← tailOf source parts.tail
      if parts.arguments ≠ none ∧ parts.origin.isRelational = false then
        throw (.takesNoArguments parts.origin.name source)
      if parts.origin = .modified ∧ tail ≠ [] then throw (.fieldOfModifiedFields source)
      let (index, schema) ← argumentsOf source parts.arguments
      return ⟨parts.origin, index, schema, tail, source⟩) := by
  obtain ⟨origin, arguments, found⟩ := parts
  simp only [readFromOrigin, split]
  cases found <;> refine bind_congr fun tail => ?_
  all_goals cases origin <;> cases arguments <;> simp [Origin.isRelational, argumentsOf]
  all_goals first | rfl | (split <;> rfl)

theorem readFromOrigin_eq_ok_iff :
    readFromOrigin source cs = .ok p ↔ ∃ parts, split? cs = some parts ∧
      parts.origin = p.origin ∧ tailOf source parts.tail = .ok p.tail ∧
      argumentsOf source parts.arguments = .ok (p.index, p.schema) ∧
      (parts.arguments ≠ none → p.origin.isRelational = true) ∧
      (p.origin = .modified → p.tail = []) ∧ p.source = source := by
  cases split : split? cs with
  | none => simp [readFromOrigin, split]
  | some parts =>
    rw [readFromOrigin_of_split split, bind_eq_ok]
    simp only [Option.some.injEq, exists_eq_left']
    constructor
    · rintro ⟨tail, names, later⟩
      split at later
      · obtain ⟨_, refused, -⟩ := bind_eq_ok.mp later
        cases refused
      · rename_i takes
        split at later
        · obtain ⟨_, refused, -⟩ := bind_eq_ok.mp later
          cases refused
        · rename_i bare
          obtain ⟨⟨index, schema⟩, arguments, done⟩ := bind_eq_ok.mp later
          obtain rfl := pure_eq_ok.mp done
          exact ⟨rfl, names, arguments, by simpa using takes, by simpa using bare, rfl⟩
    · obtain ⟨origin, index, schema, tail, source'⟩ := p
      rintro ⟨rfl, names, arguments, relational, bare, rfl⟩
      refine ⟨tail, names, ?_⟩
      rw [if_neg (by simpa using relational), if_neg (by simpa using bare), bind_eq_ok]
      exact ⟨_, arguments, rfl⟩

theorem readFromOrigin_iff (oneLine : '\n' ∉ cs) :
    readFromOrigin source cs = .ok p ↔ p.source = source ∧ ∃ given behind,
      cs = p.origin.name.toList ++ (given ++ behind) ∧ OptionalArguments given p.index p.schema ∧
      OptionalTail behind p.tail ∧ (given ≠ [] → p.origin.isRelational = true) ∧
      (p.origin = .modified → p.tail = []) := by
  rw [readFromOrigin_eq_ok_iff]
  obtain ⟨origin, index, schema, tail, source'⟩ := p
  constructor
  · rintro ⟨parts, split, rfl, names, arguments, relational, bare, rfl⟩
    refine ⟨rfl, ?_⟩
    obtain ⟨origin, rest, rfl, read⟩ := split?_eq_some split
    simp only [List.mem_append, not_or] at oneLine
    obtain ⟨rfl, ⟨absent, found⟩ | ⟨as, behind, given, closed, rfl, found⟩⟩ :=
      splitArguments?_eq_some read
    · rw [absent] at arguments
      obtain ⟨rfl, rfl⟩ := Prod.mk.inj (pure_eq_ok.mp arguments)
      exact ⟨[], rest, rfl, .none, (splitTail?_iff oneLine.2).mp ⟨_, found, names⟩, by simp, bare⟩
    · rw [given] at arguments
      have optional := OptionalArguments.given closed (readArguments_iff.mp arguments)
      refine ⟨'(' :: (as ++ [')']), behind, by simp, optional, ?_, ?_, bare⟩
      · simp only [List.mem_cons, List.mem_append, not_or] at oneLine
        exact (splitTail?_iff oneLine.2.2.2.2).mp ⟨_, found, names⟩
      · exact fun _ => relational (by simp [given])
  · rintro ⟨same, given, behind, rfl, arguments, names, relational, bare⟩
    simp only [List.mem_append, not_or] at oneLine
    obtain ⟨found, split, read⟩ := (splitTail?_iff oneLine.2.2).mpr names
    rw [split?_append]
    dsimp only at arguments
    cases arguments with
    | none =>
      have head : behind.head? ≠ some '(' := by cases names <;> simp
      rw [List.nil_append, splitArguments?_bare head, split]
      exact ⟨_, rfl, rfl, read, rfl, by simp, bare, same⟩
    | given closed arguments =>
      rw [List.cons_append, List.append_assoc, List.singleton_append,
        splitArguments?_given closed, split]
      refine ⟨_, rfl, rfl, read, readArguments_iff.mpr arguments, ?_, bare, same⟩
      exact fun _ => relational (by simp)

end Parts

section Texts

variable {cs : List Char} {origin : Origin} {index : Nat} {schema : Option String}
  {tail : List String}

theorem not_tail_of_origin : ¬Tail ('$' :: cs) tail := by
  intro names
  generalize whole : '$' :: cs = text at names
  cases names with
  | last name =>
    cases name with
    | mk first later =>
      obtain ⟨rfl, -⟩ := List.cons.inj whole
      exact absurd first (by decide)
  | more name later =>
    cases name with
    | mk first later =>
      obtain ⟨rfl, -⟩ := List.cons.inj whole
      exact absurd first (by decide)

theorem spells_origin_iff :
    Spells ('$' :: cs) origin index schema tail ↔ ∃ given behind,
      cs = origin.name.toList ++ (given ++ behind) ∧ OptionalArguments given index schema ∧
      OptionalTail behind tail ∧ (given ≠ [] → origin.isRelational = true) ∧
      (origin = .modified → tail = []) := by
  constructor
  · intro spells
    generalize whole : '$' :: cs = text at spells
    cases spells with
    | bare names =>
      subst whole
      exact absurd names not_tail_of_origin
    | object names => exact ⟨[], _, (List.cons.inj whole).2, .none, names, by simp, by simp⟩
    | modified => exact ⟨[], [], (List.cons.inj whole).2, .none, .none, by simp, by simp⟩
    | parent arguments names | child arguments names =>
      exact ⟨_, _, (List.cons.inj whole).2, arguments, names, fun _ => rfl, by simp⟩
  · rintro ⟨given, behind, rfl, arguments, names, relational, bare⟩
    cases origin with
    | object =>
      cases arguments with
      | none => exact .object names
      | given closed inside => simp [Origin.isRelational] at relational
    | modified =>
      obtain rfl := bare rfl
      cases arguments with
      | none =>
        cases names with
        | none => exact .modified
        | given later => exact absurd rfl later.ne_nil.2
      | given closed inside => simp [Origin.isRelational] at relational
    | parent => exact .parent arguments names
    | child => exact .child arguments names

theorem spells_bare_iff (bare : cs.head? ≠ some '$') :
    Spells cs origin index schema tail ↔
      Tail cs tail ∧ origin = .object ∧ index = 1 ∧ schema = none := by
  constructor
  · intro spells
    cases spells with
    | bare names => exact ⟨names, rfl, rfl, rfl⟩
    | object | modified | parent | child => exact absurd rfl bare
  · rintro ⟨names, rfl, rfl, rfl⟩
    exact .bare names

theorem read_eq_ok_iff {source : String} (oneLine : '\n' ∉ source.toList) {p : Path} :
    read source = .ok p ↔ p.source = source ∧
      ∃ text, Strips source.toList text ∧ Spells text p.origin p.index p.schema p.tail := by
  obtain ⟨text, strips⟩ : ∃ text, Strips source.toList text := ⟨_, Text.stripChars_eq_iff.mp rfl⟩
  have own : (∃ other, Strips source.toList other ∧ Spells other p.origin p.index p.schema p.tail) ↔
      Spells text p.origin p.index p.schema p.tail := by
    constructor
    · rintro ⟨other, also, spells⟩
      rwa [strips.unique also]
    · exact fun spells => ⟨text, strips, spells⟩
  have oneLine' : '\n' ∉ text := fun member => oneLine (strips.mem member)
  rw [own, read, Text.stripChars_eq_iff.mpr strips]
  split
  · simp only [reduceCtorEq, false_iff, not_and]
    rintro - spells
    exact ((spells_bare_iff (by simp)).mp spells).1.ne_nil.1 rfl
  · simp only [List.mem_cons, not_or] at oneLine'
    rw [readFromOrigin_iff oneLine'.2, spells_origin_iff]
  · rename_i bare
    have noOrigin : text.head? ≠ some '$' := by
      intro first
      obtain ⟨rest, rfl⟩ := List.head?_eq_some_iff.mp first
      exact bare rest rfl
    rw [bind_eq_ok, spells_bare_iff noOrigin]
    simp only [readTail_eq_ok_iff oneLine', pure_eq_ok]
    obtain ⟨origin, index, schema, tail, source'⟩ := p
    constructor
    · rintro ⟨names, spelled, same⟩
      cases same
      exact ⟨rfl, spelled, rfl, rfl, rfl⟩
    · rintro ⟨rfl, names, rfl, rfl, rfl⟩
      exact ⟨tail, names, rfl⟩

/-- A text on one line is read as a path exactly if it spells the path, and it is refused if it
spells none: blanks around it do not count, and nothing but the text decides. -/
theorem readPath_follows_grammar (source : String) (oneLine : '\n' ∉ source.toList) :
    (∀ p, Condition.readPath source = .ok p ↔ p.source = source ∧
      ∃ text, Strips source.toList text ∧ Spells text p.origin p.index p.schema p.tail) ∧
    ((∀ text origin index schema tail, Strips source.toList text →
        ¬Spells text origin index schema tail) →
      ∃ problem, Condition.readPath source = .error (.rule problem)) := by
  constructor
  · intro p
    rw [← read_eq_ok_iff oneLine, Condition.readPath]
    cases read source <;> simp [Except.mapError]
  · intro none
    cases given : read source with
    | error problem => exact ⟨problem, by rw [Condition.readPath, given]; rfl⟩
    | ok p =>
      obtain ⟨-, text, strips, spells⟩ := (read_eq_ok_iff oneLine).mp given
      exact absurd spells (none text _ _ _ _ strips)

/-- Arguments with blanks, a schema with a blank in its name, a signed place and two names. -/
theorem readPath_tenth_line :
    let source := " $child( \"Order Line\" ,+1_0 ).lines.total "
    Condition.readPath source =
      .ok ⟨.child, 10, some "Order Line", ["lines", "total"], source⟩ := by
  intro source
  have strips : Strips source.toList "$child( \"Order Line\" ,+1_0 ).lines.total".toList :=
    Text.stripChars_eq_iff.mp (by decide +kernel)
  refine ((readPath_follows_grammar source (by decide)).1 _).mpr ⟨rfl, _, strips, ?_⟩
  have schema : Selected " \"Order Line\" ".toList "Order Line" :=
    .mk (Text.stripChars_eq_iff.mp (by decide +kernel)) (.mk (.inl rfl) (by decide) (by decide))
      (by decide)
  have digits : Text.Digits "1_0".toList [1, 0] := .apart rfl (.last rfl)
  have place : Place "+1_0 ".toList 10 :=
    .mk (Text.stripChars_eq_iff.mp (by decide +kernel)) (.plus digits (by decide)) (by decide)
  have lines : Name "lines".toList := (isFieldName_iff (by decide)).mp (by decide)
  have total : Name "total".toList := (isFieldName_iff (by decide)).mp (by decide)
  have names : Tail "lines.total".toList ["lines", "total"] := .more lines (.last total)
  exact .child (.given (by decide) (.both schema place)) (.given names)

end Texts

end RecordRules.Path
