import RecordRules.Text.Digit

/-!
Numerals: the texts of whole numbers. A numeral is made of digits of any script, at most one
underscore between two of them, and maybe a sign before them. Main statement: a text is read as a
whole number exactly if it is a numeral of this number.
-/
namespace RecordRules.Text

/-- Digits, most significant first; an underscore may stand between two of them. -/
inductive Digits : List Char → List Nat → Prop where
  | last {c : Char} {d : Nat} (digit : digit? c = some d) : Digits [c] [d]
  | next {c : Char} {d : Nat} {cs : List Char} {ds : List Nat} (digit : digit? c = some d)
      (later : Digits cs ds) : Digits (c :: cs) (d :: ds)
  | apart {c : Char} {d : Nat} {cs : List Char} {ds : List Nat} (digit : digit? c = some d)
      (later : Digits cs ds) : Digits (c :: '_' :: cs) (d :: ds)

/-- The numerals of a whole number. There is a limit to how many digits are read. -/
inductive Numeral : List Char → Int → Prop where
  | plain {cs : List Char} {ds : List Nat} (digits : Digits cs ds) (few : ds.length ≤ maxDigits) :
      Numeral cs (ofDigits ds)
  | plus {cs : List Char} {ds : List Nat} (digits : Digits cs ds) (few : ds.length ≤ maxDigits) :
      Numeral ('+' :: cs) (ofDigits ds)
  | minus {cs : List Char} {ds : List Nat} (digits : Digits cs ds) (few : ds.length ≤ maxDigits) :
      Numeral ('-' :: cs) (-ofDigits ds)

namespace Digits

variable {cs : List Char} {ds : List Nat}

theorem isSome_head (digits : Digits cs ds) :
    ∃ c rest, cs = c :: rest ∧ (digit? c).isSome = true := by
  cases digits with
  | last digit => exact ⟨_, _, rfl, by simp [digit]⟩
  | next digit later => exact ⟨_, _, rfl, by simp [digit]⟩
  | apart digit later => exact ⟨_, _, rfl, by simp [digit]⟩

theorem not_cons {c : Char} (other : digit? c = none) : ¬Digits (c :: cs) ds := by
  intro digits
  obtain ⟨first, rest, same, digit⟩ := digits.isSome_head
  obtain ⟨rfl, rfl⟩ := List.cons.inj same
  simp [other] at digit

theorem mem (digits : Digits cs ds) : ∀ c ∈ cs, c = '_' ∨ (digit? c).isSome = true := by
  induction digits with
  | last digit => simp [digit]
  | next digit later ih =>
    intro c member
    rcases List.mem_cons.mp member with rfl | member
    · simp [digit]
    · exact ih c member
  | apart digit later ih =>
    intro c member
    simp only [List.mem_cons] at member
    rcases member with rfl | rfl | member
    · simp [digit]
    · exact .inl rfl
    · exact ih c member

end Digits

theorem digit?_underscore : digit? '_' = none := by decide

theorem digit?_plus : digit? '+' = none := by decide

theorem digit?_minus : digit? '-' = none := by decide

def Behind (cs : List Char) (ds : List Nat) : Prop :=
  (cs = [] ∧ ds = []) ∨ Digits cs ds ∨ ∃ rest, cs = '_' :: rest ∧ Digits rest ds

theorem digits_cons_iff {c : Char} {cs : List Char} {ds : List Nat} :
    Digits (c :: cs) ds ↔ ∃ d more, digit? c = some d ∧ ds = d :: more ∧ Behind cs more := by
  constructor
  · intro digits
    cases digits with
    | last digit => exact ⟨_, _, digit, rfl, .inl ⟨rfl, rfl⟩⟩
    | next digit later => exact ⟨_, _, digit, rfl, .inr (.inl later)⟩
    | apart digit later => exact ⟨_, _, digit, rfl, .inr (.inr ⟨_, rfl, later⟩)⟩
  · rintro ⟨d, more, digit, rfl, ⟨rfl, rfl⟩ | later | ⟨rest, rfl, later⟩⟩
    · exact .last digit
    · exact .next digit later
    · exact .apart digit later

theorem behind_cons_iff {c : Char} {cs : List Char} {ds : List Nat} :
    Behind (c :: cs) ds ↔ if c = '_' then Digits cs ds else Digits (c :: cs) ds := by
  by_cases mark : c = '_'
  · subst mark
    simp [Behind, Digits.not_cons digit?_underscore]
  · simp [Behind, mark]

theorem readDigits?_cons {c : Char} (other : c ≠ '_') (afterDigit : Bool) (cs : List Char) :
    readDigits? afterDigit (c :: cs) =
      (digit? c).bind fun d => (readDigits? true cs).map (d :: ·) := by
  rw [readDigits?, if_neg other]
  cases digit? c <;> rfl

theorem readDigits?_iff (cs : List Char) (ds : List Nat) :
    (readDigits? false cs = some ds ↔ Digits cs ds) ∧
      (readDigits? true cs = some ds ↔ Behind cs ds) := by
  induction cs generalizing ds with
  | nil =>
    have none : ¬Digits [] ds := by
      intro digits
      obtain ⟨_, _, same, -⟩ := digits.isSome_head
      cases same
    simp [readDigits?, Behind, none, eq_comm]
  | cons c rest ih =>
    by_cases mark : c = '_'
    · subst mark
      rw [behind_cons_iff, if_pos rfl]
      refine ⟨?_, (ih ds).1⟩
      simp [readDigits?, Digits.not_cons digit?_underscore]
    · have read (afterDigit : Bool) :
          readDigits? afterDigit (c :: rest) = some ds ↔ Digits (c :: rest) ds := by
        rw [readDigits?_cons mark, digits_cons_iff]
        simp only [Option.bind_eq_some_iff, Option.map_eq_some_iff, (ih _).2]
        grind
      rw [behind_cons_iff, if_neg mark]
      exact ⟨read false, read true⟩

theorem readMagnitude?_eq_some_iff {cs : List Char} {n : Nat} :
    readMagnitude? cs = some n ↔ ∃ ds, Digits cs ds ∧ ds.length ≤ maxDigits ∧ n = ofDigits ds := by
  rw [readMagnitude?]
  cases read : readDigits? false cs with
  | none =>
    simp only [reduceCtorEq, false_iff]
    rintro ⟨ds, digits, -⟩
    rw [(readDigits?_iff cs ds).1.mpr digits] at read
    cases read
  | some ds =>
    have digits := (readDigits?_iff cs ds).1.mp read
    dsimp only
    constructor
    · intro few
      split at few
      · rename_i few'
        exact ⟨ds, digits, few', (Option.some.inj few).symm⟩
      · cases few
    · rintro ⟨others, also, few, rfl⟩
      obtain rfl := Option.some.inj (read.symm.trans ((readDigits?_iff cs others).1.mpr also))
      rw [if_pos few]

theorem readInteger?_eq_some_iff {cs : List Char} {n : Int} :
    readInteger? cs = some n ↔ Numeral cs n := by
  constructor
  · intro read
    unfold readInteger? at read
    split at read
    all_goals
      obtain ⟨size, given, rfl⟩ := Option.map_eq_some_iff.mp read
      obtain ⟨ds, digits, few, rfl⟩ := readMagnitude?_eq_some_iff.mp given
    · exact .plus digits few
    · exact .minus digits few
    · exact .plain digits few
  · intro numeral
    cases numeral with
    | plain digits few =>
      have given := readMagnitude?_eq_some_iff.mpr ⟨_, digits, few, rfl⟩
      rw [readInteger?]
      · simp [given]
      · rintro rest rfl
        exact Digits.not_cons digit?_plus digits
      · rintro rest rfl
        exact Digits.not_cons digit?_minus digits
    | plus digits few => simp [readInteger?, readMagnitude?_eq_some_iff.mpr ⟨_, digits, few, rfl⟩]
    | minus digits few => simp [readInteger?, readMagnitude?_eq_some_iff.mpr ⟨_, digits, few, rfl⟩]

theorem Numeral.mem {cs : List Char} {n : Int} (numeral : Numeral cs n) :
    ∀ c ∈ cs, c = '+' ∨ c = '-' ∨ c = '_' ∨ (digit? c).isSome = true := by
  intro c member
  cases numeral with
  | plain digits few => exact .inr (.inr (digits.mem c member))
  | plus digits few =>
    rcases List.mem_cons.mp member with rfl | member
    · exact .inl rfl
    · exact .inr (.inr (digits.mem c member))
  | minus digits few =>
    rcases List.mem_cons.mp member with rfl | member
    · exact .inr (.inl rfl)
    · exact .inr (.inr (digits.mem c member))

end RecordRules.Text
