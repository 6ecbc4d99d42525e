import Mathlib.Data.List.TakeWhile
import RecordRules.Path.Reader

/-!
Texts in parts. The blanks around a text are stripped, and a text is cut at each place where a
separator stands. Main statements: what is left of a text without its blanks, stated without the
search for it, and the pieces of a text by the first separator in it.
-/
namespace RecordRules

namespace Text

variable {cs core : List Char}

/-- The core of a text is what stands between the blanks at its ends. -/
structure Strips (cs core : List Char) : Prop where
  around : ∃ before after, cs = before ++ core ++ after ∧
    (∀ c ∈ before, isBlank c = true) ∧ ∀ c ∈ after, isBlank c = true
  first : ∀ c ∈ core.head?, isBlank c = false
  last : ∀ c ∈ core.getLast?, isBlank c = false

theorem dropWhile_eq_iff {drops : Char → Bool} {rest : List Char} :
    cs.dropWhile drops = rest ↔
      ∃ before, cs = before ++ rest ∧ (∀ c ∈ before, drops c = true) ∧
        ∀ c ∈ rest.head?, drops c = false := by
  constructor
  · rintro rfl
    refine ⟨cs.takeWhile drops, List.takeWhile_append_dropWhile.symm, ?_, ?_⟩
    · exact fun _ => List.mem_takeWhile_imp
    intro c first
    have stops := List.head?_dropWhile_not drops cs
    rw [Option.mem_def.mp first] at stops
    exact stops
  · rintro ⟨before, rfl, dropped, first⟩
    rw [List.dropWhile_append_of_pos dropped]
    cases rest with
    | nil => rfl
    | cons c more => simp [first c rfl]

theorem strips_of_blank (blank : ∀ c ∈ cs, isBlank c = true) : Strips cs [] :=
  ⟨⟨cs, [], by simp, blank, by simp⟩, by simp, by simp⟩

theorem stripChars_eq_iff : stripChars cs = core ↔ Strips cs core := by
  have dropped : stripChars cs = core ↔ ∃ after, cs.dropWhile isBlank = core ++ after ∧
      (∀ c ∈ after, isBlank c = true) ∧ ∀ c ∈ core.getLast?, isBlank c = false := by
    rw [stripChars, trim, List.reverse_eq_iff, dropWhile_eq_iff, List.head?_reverse]
    constructor
    · rintro ⟨after, same, blank, last⟩
      refine ⟨after.reverse, ?_, by simpa using blank, last⟩
      rw [List.reverse_eq_iff] at same
      simpa using same
    · rintro ⟨after, same, blank, last⟩
      exact ⟨after.reverse, by simp [same], by simpa using blank, last⟩
  rw [dropped]
  constructor
  · rintro ⟨after, rest, blank, last⟩
    obtain ⟨before, rfl, blank', first⟩ := dropWhile_eq_iff.mp rest
    refine ⟨⟨before, after, by simp, blank', blank⟩, ?_, last⟩
    intro c head
    exact first c (by simp [Option.mem_def.mp head])
  · rintro ⟨⟨before, after, rfl, blank, blank'⟩, first, last⟩
    cases core with
    | nil =>
      refine ⟨[], dropWhile_eq_iff.mpr ⟨before ++ after, by simp, ?_, by simp⟩, by simp, last⟩
      intro c member
      exact (List.mem_append.mp member).elim (blank c) (blank' c)
    | cons c more =>
      refine ⟨after, dropWhile_eq_iff.mpr ⟨before, by simp, blank, ?_⟩, blank', last⟩
      simpa using first

namespace Strips

theorem unique {other : List Char} (strips : Strips cs core) (also : Strips cs other) :
    core = other :=
  (stripChars_eq_iff.mpr strips).symm.trans (stripChars_eq_iff.mpr also)

theorem mem (strips : Strips cs core) {c : Char} (member : c ∈ core) : c ∈ cs := by
  obtain ⟨before, after, rfl, -⟩ := strips.around
  simp [member]

theorem nil_iff : Strips cs [] ↔ ∀ c ∈ cs, isBlank c = true := by
  refine ⟨?_, strips_of_blank⟩
  rintro ⟨⟨before, after, rfl, blank, blank'⟩, -, -⟩ c member
  simp only [List.append_nil, List.mem_append] at member
  exact member.elim (blank c) (blank' c)

end Strips

end Text

namespace Path

variable {sep : Char}

theorem pieces_of_not_mem {cs : List Char} (absent : sep ∉ cs) : pieces sep cs = [cs] := by
  induction cs with
  | nil => rfl
  | cons c rest ih =>
    simp only [List.mem_cons, not_or] at absent
    rw [pieces, if_neg (Ne.symm absent.1), ih absent.2]

theorem pieces_append_cons {first : List Char} (absent : sep ∉ first) (rest : List Char) :
    pieces sep (first ++ sep :: rest) = first :: pieces sep rest := by
  induction first with
  | nil => simp [pieces]
  | cons c more ih =>
    simp only [List.mem_cons, not_or] at absent
    rw [List.cons_append, pieces, if_neg (Ne.symm absent.1), ih absent.2]

theorem first_unique {first rest other more : List Char} (absent : sep ∉ first)
    (absent' : sep ∉ other) (same : first ++ sep :: rest = other ++ sep :: more) :
    first = other ∧ rest = more := by
  have parts := congrArg (pieces sep) same
  rw [pieces_append_cons absent, pieces_append_cons absent'] at parts
  obtain rfl := (List.cons.inj parts).1
  simpa using same

theorem pieces_cases (sep : Char) (cs : List Char) :
    (sep ∉ cs ∧ pieces sep cs = [cs]) ∨
      ∃ first rest, cs = first ++ sep :: rest ∧ sep ∉ first ∧
        pieces sep cs = first :: pieces sep rest := by
  by_cases parted : sep ∈ cs
  · obtain ⟨first, rest, rfl, absent⟩ := List.eq_append_cons_of_mem parted
    exact .inr ⟨first, rest, rfl, absent, pieces_append_cons absent rest⟩
  · exact .inl ⟨parted, pieces_of_not_mem parted⟩

theorem pieces_ne_nil (sep : Char) (cs : List Char) : pieces sep cs ≠ [] := by
  rcases pieces_cases sep cs with ⟨-, whole⟩ | ⟨first, rest, -, -, parted⟩
  · simp [whole]
  · simp [parted]

end Path

end RecordRules
