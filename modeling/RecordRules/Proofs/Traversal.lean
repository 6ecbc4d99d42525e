import RecordRules.Store.Traversal

/-!
Traversal under a limit. Main statement: under a smaller limit, a traversal finds the beginning of
what it finds under a larger one, so that what is found to an extent is a part of the complete list
that no limit but the greatest one cuts off.
-/
namespace RecordRules

def Extent.part : Extent → List Record → List Record
  | upTo n, records => records.take n
  | all, records => records

namespace Traversal

variable {start : Record}

def Front.add (front : Front) (records : List Record) : Front :=
  ⟨front.found ++ records, front.level ++ records⟩

theorem Front.add_add (front : Front) (first later : List Record) :
    (front.add first).add later = front.add (first ++ later) := by
  simp [Front.add]

theorem take_cons (limit : Nat) (r : Record) (rest : List Record) (front : Front) :
    take start limit (r :: rest) front =
      if front.knows start r then take start limit rest front
      else if limit ≤ front.found.length + 1 then front.add [r]
      else take start limit rest (front.add [r]) := by
  simp [take, Front.add]

theorem take_adds (start : Record) (limit : Nat) (records : List Record) (front : Front) :
    ∃ added, take start limit records front = front.add added := by
  induction records generalizing front with
  | nil => exact ⟨[], by simp [take, Front.add]⟩
  | cons r rest ih =>
    rw [take_cons]
    split
    · exact ih front
    · split
      · exact ⟨[r], rfl⟩
      · obtain ⟨added, grew⟩ := ih (front.add [r])
        exact ⟨[r] ++ added, by rw [grew, Front.add_add]⟩

/-- What is found under a limit, beside what is found without it: as many of the same records as
the limit allows, and the very same front while the limit is not reached. -/
structure Cut (limit : Nat) (front whole : Front) : Prop where
  found : front.found = whole.found.take limit
  below : whole.found.length < limit → front = whole

theorem Cut.refl {limit : Nat} {front : Front} (fits : front.found.length ≤ limit) :
    Cut limit front front where
  found := (List.take_of_length_le fits).symm
  below _ := rfl

theorem Cut.add {limit : Nat} {front whole : Front} (cut : Cut limit front whole)
    (full : limit ≤ whole.found.length) (records : List Record) :
    Cut limit front (whole.add records) where
  found := by rw [Front.add, List.take_append_of_le_length full, cut.found]
  below under := by
    simp only [Front.add, List.length_append] at under
    omega

theorem Cut.le_length_iff {limit : Nat} {front whole : Front} (cut : Cut limit front whole) :
    limit ≤ front.found.length ↔ limit ≤ whole.found.length := by
  rw [cut.found, List.length_take]
  omega

theorem take_cut (start : Record) {few many : Nat} (le : few ≤ many) (records : List Record)
    (front : Front) (below : front.found.length < few) :
    Cut few (take start few records front) (take start many records front) := by
  induction records generalizing front with
  | nil => exact .refl (Nat.le_of_lt below)
  | cons r rest ih =>
    rw [take_cons, take_cons]
    have size : (front.add [r]).found.length = front.found.length + 1 := by simp [Front.add]
    split
    · exact ih front below
    · by_cases full : few ≤ front.found.length + 1
      · rw [if_pos full]
        have cut : Cut few (front.add [r]) (front.add [r]) := .refl (by omega)
        split
        · exact cut
        · obtain ⟨added, grew⟩ := take_adds start many rest (front.add [r])
          exact grew ▸ cut.add (by omega) added
      · rw [if_neg full, if_neg (by omega)]
        exact ih _ (by omega)

section

variable {look : Record → Except Failure (List Record)} {limit : Nat}

theorem expand_cons_ok {r : Record} {rest : List Record} {front grown : Front} :
    expand look start limit (r :: rest) front = .ok grown ↔
      ∃ near, look r = .ok near ∧
        (if limit ≤ (take start limit near front).found.length then
          take start limit near front = grown
        else expand look start limit rest (take start limit near front) = .ok grown) := by
  rw [expand, bind_eq_ok]
  refine exists_congr fun near => and_congr_right fun _ => ?_
  simp only
  split
  · exact ⟨Except.ok.inj, congrArg Except.ok⟩
  · rfl

theorem expand_adds {level : List Record} {front grown : Front}
    (h : expand look start limit level front = .ok grown) : ∃ added, grown = front.add added := by
  induction level generalizing front with
  | nil =>
    cases h
    exact ⟨[], by simp [Front.add]⟩
  | cons r rest ih =>
    obtain ⟨near, -, went⟩ := expand_cons_ok.mp h
    obtain ⟨first, took⟩ := take_adds start limit near front
    split at went
    · exact ⟨first, by rw [← went, took]⟩
    · obtain ⟨later, grew⟩ := ih went
      exact ⟨first ++ later, by rw [grew, took, Front.add_add]⟩

theorem expand_cut {few many : Nat} (le : few ≤ many) {level : List Record} {front whole : Front}
    (below : front.found.length < few)
    (h : expand look start many level front = .ok whole) :
    ∃ part, expand look start few level front = .ok part ∧ Cut few part whole := by
  induction level generalizing front with
  | nil =>
    obtain rfl : front = whole := Except.ok.inj h
    exact ⟨front, rfl, .refl (Nat.le_of_lt below)⟩
  | cons r rest ih =>
    obtain ⟨near, found, went⟩ := expand_cons_ok.mp h
    have cut := take_cut start le near front below
    by_cases full : few ≤ (take start many near front).found.length
    · refine ⟨take start few near front, expand_cons_ok.mpr ⟨near, found, ?_⟩, ?_⟩
      · rw [if_pos (cut.le_length_iff.mpr full)]
      · split at went
        · exact went ▸ cut
        · obtain ⟨added, grew⟩ := expand_adds went
          exact grew ▸ cut.add full added
    · rw [if_neg (by omega)] at went
      obtain ⟨part, ran, partial_cut⟩ := ih (by omega) went
      refine ⟨part, expand_cons_ok.mpr ⟨near, found, ?_⟩, partial_cut⟩
      rwa [cut.below (by omega), if_neg full]

theorem levels_succ_cons_ok {rounds : Nat} {r : Record} {rest found xs : List Record}
    (below : found.length < limit) :
    levels look start limit (rounds + 1) (r :: rest) found = .ok xs ↔
      ∃ front, expand look start limit (r :: rest) ⟨found, []⟩ = .ok front ∧
        levels look start limit rounds front.level front.found = .ok xs := by
  rw [levels, if_neg (by omega), bind_eq_ok]

theorem levels_of_full {rounds : Nat} {level found : List Record} (full : limit ≤ found.length) :
    levels look start limit rounds level found = .ok found := by
  cases rounds with
  | zero => rfl
  | succ rounds =>
    cases level with
    | nil => rfl
    | cons r rest =>
      rw [levels, if_pos full]
      rfl

theorem levels_nil {rounds : Nat} {found : List Record} :
    levels look start limit rounds [] found = .ok found := by
  cases rounds <;> rfl

theorem levels_grows {rounds : Nat} {level found xs : List Record}
    (h : levels look start limit rounds level found = .ok xs) : found <+: xs := by
  induction rounds generalizing level found with
  | zero =>
    obtain rfl : found = xs := Except.ok.inj h
    exact List.prefix_refl found
  | succ rounds ih =>
    cases level with
    | nil =>
      obtain rfl : found = xs := Except.ok.inj h
      exact List.prefix_refl found
    | cons r rest =>
      by_cases full : limit ≤ found.length
      · rw [levels_of_full full] at h
        obtain rfl : found = xs := Except.ok.inj h
        exact List.prefix_refl found
      · obtain ⟨front, grew, went⟩ := (levels_succ_cons_ok (by omega)).mp h
        obtain ⟨added, rfl⟩ := expand_adds grew
        exact (List.prefix_append found added).trans (ih went)

def Enough (limit rounds : Nat) (level found : List Record) : Prop :=
  level ≠ [] → limit < rounds + found.length

/-- A round that finds nothing is the last one, so every other round pays for itself. -/
theorem Enough.next {rounds : Nat} {level found added : List Record} (news : level ≠ [])
    (enough : Enough limit (rounds + 1) level found) :
    Enough limit rounds (Front.add ⟨found, []⟩ added).level
      (Front.add ⟨found, []⟩ added).found := by
  intro more
  have before := enough news
  have := List.length_pos_iff.mpr more
  simp only [Front.add, List.nil_append, List.length_append] at this ⊢
  omega

theorem levels_take {few many : Nat} (le : few ≤ many) {part rounds : Nat}
    {level found xs : List Record} (below : found.length < few)
    (partEnough : Enough few part level found) (enough : Enough many rounds level found)
    (h : levels look start many rounds level found = .ok xs) :
    levels look start few part level found = .ok (xs.take few) := by
  -- Both run in step, round by round, until the smaller limit is reached.
  induction rounds generalizing part level found with
  | zero =>
    cases level with
    | nil =>
      obtain rfl : found = xs := Except.ok.inj h
      rw [levels_nil, List.take_of_length_le (Nat.le_of_lt below)]
    | cons r rest =>
      have := enough (List.cons_ne_nil r rest)
      omega
  | succ rounds ih =>
    cases level with
    | nil =>
      obtain rfl : found = xs := Except.ok.inj h
      rw [levels_nil, List.take_of_length_le (Nat.le_of_lt below)]
    | cons r rest =>
      have news := List.cons_ne_nil r rest
      have some := partEnough news
      obtain ⟨left, rfl⟩ : ∃ left, part = left + 1 := ⟨part - 1, by omega⟩
      obtain ⟨whole, grew, went⟩ := (levels_succ_cons_ok (by omega)).mp h
      obtain ⟨front, ran, cut⟩ := expand_cut le below grew
      refine (levels_succ_cons_ok below).mpr ⟨front, ran, ?_⟩
      by_cases full : few ≤ whole.found.length
      · rw [levels_of_full (cut.le_length_iff.mpr full), cut.found]
        obtain ⟨later, rfl⟩ := levels_grows went
        rw [List.take_append_of_le_length full]
      · obtain rfl := cut.below (by omega)
        obtain ⟨added, rfl⟩ := expand_adds grew
        exact ih (by omega) (partEnough.next news) (enough.next news) went

/-- What a traversal finds to an extent is the part of the complete list for that extent. -/
theorem reached_part {extent : Extent} {xs : List Record}
    (complete : reached look start .all = .ok xs) :
    reached look start extent = .ok (extent.part xs) := by
  have whole : levels look start maxFound (maxFound + 1) [start] [] = .ok xs := complete
  have short {few : Nat} (pos : 0 < few) (le : few ≤ maxFound) :
      levels look start few (few + 1) [start] [] = .ok (xs.take few) :=
    levels_take le (by simpa using pos) (fun _ => by simp) (fun _ => by simp) whole
  cases extent with
  | all => exact complete
  | upTo n =>
    by_cases none : n = 0
    · subst none
      rfl
    · have limit : min n maxFound ≤ maxFound := Nat.min_le_right _ _
      have pos : 0 < min n maxFound := by
        simp only [maxFound]
        omega
      have fits : xs.take maxFound = xs := by
        have := (short (Nat.zero_lt_succ 255) (Nat.le_refl _)).symm.trans whole
        exact Except.ok.inj this
      have ran : reached look start (.upTo n) = .ok (xs.take (min n maxFound)) := by
        rw [← short pos limit, reached, if_neg (by simpa [Extent.isNone] using none)]
        rfl
      rw [ran, Extent.part, ← List.take_take, fits]

end

end Traversal

end RecordRules
