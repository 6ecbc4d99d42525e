import RecordRules.Proofs.Contradictions
import RecordRules.Proofs.PathGrammar

/-!
Bare paths: a tail without an origin is short for the same tail from the record of the event. Main
statement: both texts are read alike, unless the bare one is read although it has line ends in it. A
name may end a line in a bare path, but behind an origin no tail goes over more than one line.
-/
namespace RecordRules.Path

open Text (Strips)

def ReadAlike : Except Failure Path → Except Failure Path → Prop
  | .ok p, .ok q => p.sameAs q = true
  | .error (.rule _), .error (.rule _) => True
  | _, _ => False

def fromObject (s : String) : String := "$eventObject." ++ s

variable {s : String}

theorem toList_fromObject :
    (fromObject s).toList = '$' :: (Origin.object.name.toList ++ '.' :: s.toList) := by
  rw [fromObject, String.toList_append]
  rfl

theorem strips_fromObject (given : s ≠ "") (strips : Strips s.toList s.toList) :
    Strips (fromObject s).toList (fromObject s).toList := by
  refine ⟨⟨[], [], by simp, by simp, by simp⟩, ?_, ?_⟩
  · rw [toList_fromObject]
    intro c first
    obtain rfl := Option.some.inj first
    decide
  · rw [fromObject, String.toList_append, List.getLast?_append_of_ne_nil _ (by simpa using given)]
    exact strips.last

theorem read_bare (given : s ≠ "") (bare : isPathText s = false)
    (strips : Strips s.toList s.toList) :
    read s = readTail s s.toList >>= fun tail => pure { origin := .object, tail, source := s } := by
  rw [read, Text.stripChars_eq_iff.mpr strips]
  split
  · rename_i empty
    exact absurd (String.toList_eq_nil_iff.mp empty) given
  · rename_i rest whole
    rw [isPathText, whole] at bare
    cases bare
  · rfl

theorem read_fromObject (given : s ≠ "") (strips : Strips s.toList s.toList) :
    read (fromObject s) = if '\n' ∈ s.toList then .error (.invalidPath (fromObject s))
      else readTail (fromObject s) s.toList >>= fun tail =>
        pure { origin := .object, tail, source := fromObject s } := by
  have split : split? (Origin.object.name.toList ++ '.' :: s.toList) =
      if '\n' ∈ s.toList then none else some ⟨.object, none, some s.toList⟩ := by
    rw [split?_append, splitArguments?_bare (by simp)]
    by_cases lines : '\n' ∈ s.toList <;> simp [splitTail?, given, lines]
  rw [read, Text.stripChars_eq_iff.mpr (strips_fromObject given strips), toList_fromObject]
  change readFromOrigin (fromObject s) _ = _
  by_cases lines : '\n' ∈ s.toList
  · rw [if_pos lines] at split ⊢
    simp only [readFromOrigin, split]
    rfl
  · rw [if_neg lines] at split ⊢
    rw [readFromOrigin_of_split split]
    simp [tailOf, argumentsOf]

/-- A bare path and its long form are read alike exactly if no line end keeps only the long form
from being read. Where both are read, they lead to the same value in every scene. -/
theorem bare_path_means_object (s : String) (given : s ≠ "") (bare : isPathText s = false)
    (strips : Strips s.toList s.toList) :
    (ReadAlike (Condition.readPath s) (Condition.readPath (fromObject s)) ↔
      ('\n' ∈ s.toList → ∀ p, Condition.readPath s ≠ .ok p)) ∧
    ∀ p q, Condition.readPath s = .ok p → Condition.readPath (fromObject s) = .ok q →
      ∀ scene, p.resolve scene = q.resolve scene := by
  rw [Condition.readPath, Condition.readPath, read_bare given bare strips,
    read_fromObject given strips]
  by_cases lines : '\n' ∈ s.toList
  · rw [if_pos lines]
    cases readTail s s.toList with
    | error problem => simp [ReadAlike, Except.mapError, bind, Except.bind]
    | ok tail => simp [ReadAlike, Except.mapError, bind, Except.bind, lines, pure, Except.pure]
  · rw [if_neg lines]
    have alike (tail : List String) :
        readTail s s.toList = .ok tail ↔ readTail (fromObject s) s.toList = .ok tail :=
      (readTail_eq_ok_iff lines).trans (readTail_eq_ok_iff lines).symm
    cases own : readTail s s.toList with
    | error problem =>
      cases long : readTail (fromObject s) s.toList with
      | error problem' => simp [ReadAlike, Except.mapError, bind, Except.bind]
      | ok tail =>
        rw [(alike tail).mpr long] at own
        cases own
    | ok tail =>
      rw [(alike tail).mp own]
      have same (source : String) :
          sameAs ⟨.object, 1, none, tail, s⟩ ⟨.object, 1, none, tail, source⟩ = true :=
        sameAs_iff.mpr ⟨rfl, rfl, rfl, rfl⟩
      refine ⟨iff_of_true (same _) fun member => absurd member lines, ?_⟩
      rintro p q ⟨⟩ ⟨⟩ scene
      exact Condition.resolve_of_sameAs (same _) scene

theorem bare_path_means_object_status :
    ReadAlike (Condition.readPath "status") (Condition.readPath (fromObject "status")) ∧
      ∃ p q, Condition.readPath "status" = .ok p ∧
        Condition.readPath (fromObject "status") = .ok q ∧
        ∀ scene, p.resolve scene = q.resolve scene := by
  have strips : Strips "status".toList "status".toList :=
    Text.stripChars_eq_iff.mp (by decide +kernel)
  obtain ⟨alike, resolved⟩ := bare_path_means_object "status" (by decide) (by decide) strips
  refine ⟨alike.mpr fun member => absurd member (by decide),
    { origin := .object, tail := ["status"], source := "status" },
    { origin := .object, tail := ["status"], source := "$eventObject.status" }, rfl, rfl, ?_⟩
  exact resolved _ _ rfl rfl

theorem line_end_is_read_bare :
    ("a\n.b" ≠ "" ∧ isPathText "a\n.b" = false ∧ Strips "a\n.b".toList "a\n.b".toList) ∧
      Condition.readPath "a\n.b" =
        .ok { origin := .object, tail := ["a\n", "b"], source := "a\n.b" } ∧
      Condition.readPath (fromObject "a\n.b") = .error (.rule (.invalidPath "$eventObject.a\n.b")) ∧
      ¬ReadAlike (Condition.readPath "a\n.b") (Condition.readPath (fromObject "a\n.b")) := by
  have read : Condition.readPath "a\n.b" =
      .ok { origin := .object, tail := ["a\n", "b"], source := "a\n.b" } := by rfl
  have refused : Condition.readPath (fromObject "a\n.b") =
      .error (.rule (.invalidPath "$eventObject.a\n.b")) := by rfl
  refine ⟨⟨by decide, by decide, Text.stripChars_eq_iff.mp (by decide +kernel)⟩, read, refused, ?_⟩
  rw [read, refused]
  exact id

end RecordRules.Path
