/-!
Sorting by insertion, and texts in the order of their code points.
-/
namespace RecordRules.Text

variable {α : Type}

def insertBy (before : α → α → Bool) (x : α) : List α → List α
  | [] => [x]
  | y :: rest => if before x y then x :: y :: rest else y :: insertBy before x rest

/-- Sort by insertion; members that may precede each other keep their places. -/
def sortBy (before : α → α → Bool) (xs : List α) : List α :=
  xs.foldr (insertBy before) []

theorem perm_insertBy (before : α → α → Bool) (x : α) (xs : List α) :
    (insertBy before x xs).Perm (x :: xs) := by
  induction xs with
  | nil => exact .refl _
  | cons y rest ih =>
    unfold insertBy
    split
    · exact .refl _
    · exact (ih.cons y).trans (.swap x y rest)

theorem perm_sortBy (before : α → α → Bool) (xs : List α) : (sortBy before xs).Perm xs := by
  induction xs with
  | nil => exact .refl _
  | cons x rest ih => exact (perm_insertBy before x _).trans (ih.cons x)

theorem mem_sortBy (before : α → α → Bool) (xs : List α) (x : α) :
    x ∈ sortBy before xs ↔ x ∈ xs := (perm_sortBy before xs).mem_iff

def sorted (names : List String) : List String := sortBy (fun a b => decide (a ≤ b)) names

theorem mem_sorted (names : List String) (name : String) :
    name ∈ sorted names ↔ name ∈ names := mem_sortBy _ _ _

def distinct [BEq α] (xs : List α) : List α :=
  xs.foldl (fun seen x => if seen.contains x then seen else seen ++ [x]) []

theorem exists_mem_distinct [BEq α] [EquivBEq α] {x : α} {xs : List α} (member : x ∈ xs) :
    ∃ y ∈ distinct xs, (y == x) = true := by
  suffices h : ∀ seen : List α, (x ∈ xs ∨ ∃ y ∈ seen, (y == x) = true) →
      ∃ y ∈ xs.foldl (fun seen x => if seen.contains x then seen else seen ++ [x]) seen,
        (y == x) = true from h [] (.inl member)
  clear member
  induction xs with
  | nil => exact fun seen inside => inside.resolve_left List.not_mem_nil
  | cons first rest ih =>
    intro seen inside
    refine ih _ ?_
    have kept : ∀ y ∈ seen, y ∈ (if seen.contains first then seen else seen ++ [first]) := by
      intro y present
      split
      · exact present
      · exact List.mem_append_left _ present
    rcases inside with member | ⟨y, present, same⟩
    · rcases List.mem_cons.mp member with rfl | later
      · right
        dsimp only
        split
        · rename_i known
          rw [List.contains_eq_any_beq, List.any_eq_true] at known
          obtain ⟨y, present, same⟩ := known
          exact ⟨y, present, BEq.symm same⟩
        · exact ⟨x, List.mem_append_right _ (List.mem_singleton.mpr rfl), BEq.rfl⟩
      · exact .inl later
    · exact .inr ⟨y, kept y present, same⟩

end RecordRules.Text
