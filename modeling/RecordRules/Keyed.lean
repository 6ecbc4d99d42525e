/-!
Lists of named members in the order in which the names were first used. Main statements: what is
found under a name after a member is put under another one, or removed, and after updates are
merged in.
-/
namespace RecordRules

abbrev Keyed (κ α : Type) := List (κ × α)

namespace Keyed

variable {κ α : Type}

instance {β γ : Type} [BEq β] [BEq γ] [EquivBEq β] [EquivBEq γ] : EquivBEq (β × γ) where
  rfl := by simp [BEq.beq]
  symm := by
    simp only [BEq.beq, Bool.and_eq_true]
    exact fun h => ⟨BEq.symm h.1, BEq.symm h.2⟩
  trans := by
    simp only [BEq.beq, Bool.and_eq_true]
    exact fun h h' => ⟨BEq.trans h.1 h'.1, BEq.trans h.2 h'.2⟩

section

variable [BEq κ]

def find? (members : Keyed κ α) (name : κ) : Option α :=
  match members with
  | [] => none
  | (key, member) :: rest => if key == name then some member else find? rest name

def has (members : Keyed κ α) (name : κ) : Bool := (members.find? name).isSome

/-- Put a member under a name: in the place of the one it replaces, or else at the end. -/
def put (members : Keyed κ α) (name : κ) (member : α) : Keyed κ α :=
  match members with
  | [] => [(name, member)]
  | (key, old) :: rest =>
    if key == name then (key, member) :: rest else (key, old) :: put rest name member

def merge (members updates : Keyed κ α) : Keyed κ α :=
  updates.foldl (fun all update => all.put update.1 update.2) members

def erase (members : Keyed κ α) (name : κ) : Keyed κ α :=
  members.filter fun member => !(member.1 == name)

end

def names (members : Keyed κ α) : List κ := members.map Prod.fst

@[simp] theorem find?_nil [BEq κ] (name : κ) : find? ([] : Keyed κ α) name = none := rfl

theorem find?_cons [BEq κ] (key : κ) (member : α) (rest : Keyed κ α) (name : κ) :
    find? ((key, member) :: rest) name =
      if key == name then some member else find? rest name := rfl

theorem find?_congr [BEq κ] [EquivBEq κ] {name other : κ} (same : name == other)
    (members : Keyed κ α) : members.find? name = members.find? other := by
  induction members with
  | nil => rfl
  | cons head rest ih => rw [find?_cons, find?_cons, BEq.congr_right same, ih]

theorem find?_put [BEq κ] [EquivBEq κ] (members : Keyed κ α) (name other : κ) (member : α) :
    (members.put name member).find? other =
      if name == other then some member else members.find? other := by
  induction members with
  | nil => rfl
  | cons head rest ih =>
    obtain ⟨key, old⟩ := head
    by_cases hk : key == name
    · simp only [put, hk, ↓reduceIte, find?_cons, BEq.congr_left hk]
      split <;> rfl
    · simp only [put, hk, Bool.false_eq_true, ↓reduceIte, find?_cons, ih]
      by_cases ho : key == other
      · have : (name == other) = false := by
          rw [← Bool.not_eq_true]
          exact fun h => hk (BEq.trans ho (BEq.symm h))
        simp [ho, this]
      · simp [ho]

theorem find?_erase [BEq κ] [EquivBEq κ] (members : Keyed κ α) (name other : κ) :
    (members.erase name).find? other =
      if name == other then none else members.find? other := by
  induction members with
  | nil => simp [erase]
  | cons head rest ih =>
    obtain ⟨key, old⟩ := head
    have step : erase ((key, old) :: rest) name =
        if key == name then erase rest name else (key, old) :: erase rest name := by
      by_cases hk : key == name <;> simp [erase, hk]
    rw [step]
    by_cases hk : key == name
    · simp only [hk, ↓reduceIte, ih, find?_cons, BEq.congr_left hk]
      split <;> rfl
    · simp only [hk, Bool.false_eq_true, ↓reduceIte, find?_cons, ih]
      by_cases ho : key == other
      · have : (name == other) = false := by
          rw [← Bool.not_eq_true]
          exact fun h => hk (BEq.trans ho (BEq.symm h))
        simp [ho, this]
      · simp [ho]

theorem find?_isSome_iff [BEq κ] [LawfulBEq κ] (members : Keyed κ α) (name : κ) :
    (members.find? name).isSome = true ↔ name ∈ members.names := by
  induction members with
  | nil => simp [names]
  | cons head rest ih =>
    obtain ⟨key, member⟩ := head
    by_cases h : key = name
    · simp [find?, names, h]
    · simp [find?, names, h, ih, Ne.symm h]

theorem isSome_find?_reverse [BEq κ] [LawfulBEq κ] (members : Keyed κ α) (name : κ) :
    (find? members.reverse name).isSome = members.names.contains name := by
  rw [Bool.eq_iff_iff, find?_isSome_iff, List.contains_iff_mem, names, List.map_reverse,
    List.mem_reverse, names]

theorem mem_of_find? [BEq κ] {members : Keyed κ α} {name : κ} {member : α}
    (h : members.find? name = some member) : ∃ key, key == name ∧ (key, member) ∈ members := by
  induction members with
  | nil => simp at h
  | cons head rest ih =>
    obtain ⟨key, old⟩ := head
    by_cases hk : key == name
    · simp only [find?_cons, hk, ↓reduceIte, Option.some.injEq] at h
      exact ⟨key, hk, by simp [h]⟩
    · simp only [find?_cons, hk, Bool.false_eq_true, ↓reduceIte] at h
      obtain ⟨other, same, member⟩ := ih h
      exact ⟨other, same, List.mem_cons_of_mem _ member⟩

theorem isSome_find?_of_mem [BEq κ] {members : Keyed κ α} {key name : κ} {member : α}
    (listed : (key, member) ∈ members) (same : (key == name) = true) :
    (members.find? name).isSome = true := by
  induction members with
  | nil => cases listed
  | cons head rest ih =>
    rw [find?_cons]
    split
    · rfl
    · rename_i other
      rcases List.mem_cons.mp listed with rfl | later
      · exact absurd same other
      · exact ih later

theorem find?_append [BEq κ] (members others : Keyed κ α) (name : κ) :
    find? (members ++ others) name = (members.find? name).or (others.find? name) := by
  induction members with
  | nil => rfl
  | cons head rest ih =>
    obtain ⟨key, member⟩ := head
    rw [List.cons_append, find?_cons, find?_cons, ih]
    split <;> rfl

theorem find?_merge [BEq κ] [EquivBEq κ] (members updates : Keyed κ α) (name : κ) :
    (members.merge updates).find? name =
      (find? updates.reverse name).or (members.find? name) := by
  induction updates generalizing members with
  | nil => rfl
  | cons update rest ih =>
    obtain ⟨key, member⟩ := update
    have later := ih (members.put key member)
    rw [List.reverse_cons, find?_append, Option.or_assoc]
    rw [find?_put] at later
    refine later.trans (congrArg _ ?_)
    rw [find?_cons]
    split <;> rfl

theorem put_of_find?_eq_none [BEq κ] {members : Keyed κ α} {name : κ}
    (absent : members.find? name = none) (member : α) :
    members.put name member = members ++ [(name, member)] := by
  induction members with
  | nil => rfl
  | cons head rest ih =>
    obtain ⟨key, old⟩ := head
    rw [find?_cons] at absent
    by_cases same : (key == name) = true
    · simp [same] at absent
    · rw [if_neg same] at absent
      simp [put, same, ih absent]

theorem merge_eq_append [BEq κ] [LawfulBEq κ] {members updates : Keyed κ α}
    (distinct : (members ++ updates).names.Nodup) : members.merge updates = members ++ updates := by
  induction updates generalizing members with
  | nil => exact (List.append_nil _).symm
  | cons update rest ih =>
    have absent : members.find? update.1 = none := by
      rw [Option.eq_none_iff_forall_ne_some]
      intro member found
      obtain ⟨key, same, inside⟩ := mem_of_find? found
      rw [names, List.map_append] at distinct
      obtain ⟨-, -, apart⟩ := List.nodup_append.mp distinct
      exact apart key (List.mem_map_of_mem inside) update.1 List.mem_cons_self (eq_of_beq same)
    have later : (members ++ [update]).merge rest = members ++ update :: rest := by
      rw [ih, List.append_assoc]
      · rfl
      · rwa [List.append_assoc]
    exact (congrArg (fun start => merge start rest) (put_of_find?_eq_none absent update.2)).trans
      later

theorem find?_eq_some_iff [BEq κ] [LawfulBEq κ] {members : Keyed κ α}
    (distinct : members.names.Nodup) (name : κ) (member : α) :
    members.find? name = some member ↔ (name, member) ∈ members := by
  induction members with
  | nil => simp
  | cons head rest ih =>
    obtain ⟨key, old⟩ := head
    obtain ⟨fresh, distinct⟩ := List.nodup_cons.mp distinct
    rw [find?_cons, List.mem_cons, Prod.mk.injEq]
    by_cases h : key = name
    · subst h
      have absent : (key, member) ∉ rest := fun inside =>
        fresh (List.mem_map.mpr ⟨_, inside, rfl⟩)
      simp [absent, eq_comm]
    · simp [h, Ne.symm h, ih distinct]

theorem find?_reverse [BEq κ] [LawfulBEq κ] {members : Keyed κ α}
    (distinct : members.names.Nodup) (name : κ) :
    find? members.reverse name = members.find? name := by
  have reversed : (names members.reverse).Nodup := by
    rw [names, List.map_reverse]
    exact List.pairwise_reverse.mpr (distinct.imp Ne.symm)
  apply Option.ext
  intro member
  rw [find?_eq_some_iff reversed, find?_eq_some_iff distinct, List.mem_reverse]

theorem find?_merge_of_nodup [BEq κ] [LawfulBEq κ] (members : Keyed κ α) {updates : Keyed κ α}
    (distinct : updates.names.Nodup) (name : κ) :
    (members.merge updates).find? name = (updates.find? name).or (members.find? name) := by
  rw [find?_merge, find?_reverse distinct]

theorem mem_names_put [BEq κ] {members : Keyed κ α} {name other : κ} {member : α}
    (inside : other ∈ (members.put name member).names) : other ∈ members.names ∨ other = name := by
  induction members with
  | nil => exact .inr (List.mem_singleton.mp inside)
  | cons head rest ih =>
    obtain ⟨key, old⟩ := head
    rw [put] at inside
    split at inside
    · exact .inl inside
    · rcases List.mem_cons.mp inside with rfl | later
      · exact .inl List.mem_cons_self
      · exact (ih later).imp_left (List.mem_cons_of_mem key)

theorem nodup_put [BEq κ] [LawfulBEq κ] {members : Keyed κ α} (distinct : members.names.Nodup)
    (name : κ) (member : α) : (members.put name member).names.Nodup := by
  induction members with
  | nil => exact List.pairwise_singleton _ name
  | cons head rest ih =>
    obtain ⟨key, old⟩ := head
    obtain ⟨fresh, others⟩ := List.nodup_cons.mp distinct
    rw [put]
    split
    · exact distinct
    · rename_i different
      rw [beq_iff_eq] at different
      refine List.nodup_cons.mpr ⟨fun inside => ?_, ih others⟩
      exact (mem_names_put inside).elim fresh different

theorem nodup_merge [BEq κ] [LawfulBEq κ] {members : Keyed κ α} (distinct : members.names.Nodup)
    (updates : Keyed κ α) : (members.merge updates).names.Nodup := by
  induction updates generalizing members with
  | nil => exact distinct
  | cons update rest ih => exact ih (nodup_put distinct update.1 update.2)

theorem names_filter_sublist (members : Keyed κ α) (kept : κ × α → Bool) :
    (names (members.filter kept)).Sublist members.names :=
  List.filter_sublist.map Prod.fst

theorem nodup_filter {members : Keyed κ α} (distinct : members.names.Nodup)
    (kept : κ × α → Bool) : (names (members.filter kept)).Nodup :=
  distinct.sublist (names_filter_sublist members kept)

/-- A member that is put keeps the name of the one that it replaces. -/
theorem mem_put [BEq κ] [ReflBEq κ] {members : Keyed κ α} {name : κ} {member : α}
    {entry : κ × α} (inside : entry ∈ members.put name member) :
    entry ∈ members ∨ ∃ key, (key == name) = true ∧ entry = (key, member) := by
  induction members with
  | nil => exact .inr ⟨name, BEq.rfl, List.mem_singleton.mp inside⟩
  | cons head rest ih =>
    obtain ⟨key, old⟩ := head
    rw [put] at inside
    split at inside
    · rename_i same
      rcases List.mem_cons.mp inside with rfl | later
      · exact .inr ⟨key, same, rfl⟩
      · exact .inl (List.mem_cons_of_mem _ later)
    · rcases List.mem_cons.mp inside with rfl | later
      · exact .inl List.mem_cons_self
      · exact (ih later).imp_left (List.mem_cons_of_mem _)

theorem mem_merge [BEq κ] [LawfulBEq κ] {members updates : Keyed κ α} {entry : κ × α}
    (inside : entry ∈ members.merge updates) : entry ∈ members ∨ entry ∈ updates := by
  induction updates generalizing members with
  | nil => exact .inl inside
  | cons update rest ih =>
    rcases ih inside with before | later
    · rcases mem_put before with old | ⟨key, same, rfl⟩
      · exact .inl old
      · rw [eq_of_beq same]
        exact .inr List.mem_cons_self
    · exact .inr (List.mem_cons_of_mem _ later)

theorem mem_names_merge [BEq κ] [LawfulBEq κ] {members updates : Keyed κ α} {name : κ}
    (inside : name ∈ (members.merge updates).names) :
    name ∈ members.names ∨ name ∈ updates.names := by
  obtain ⟨entry, listed, rfl⟩ := List.mem_map.mp inside
  exact (mem_merge listed).imp List.mem_map_of_mem List.mem_map_of_mem

theorem find?_filterMap [BEq κ] [LawfulBEq κ] (look : κ → Option α) (names : List κ) (name : κ) :
    find? (names.filterMap fun key => (look key).map fun member => (key, member)) name =
      if name ∈ names then look name else none := by
  induction names with
  | nil => rfl
  | cons first rest ih =>
    rw [List.filterMap_cons]
    by_cases same : first = name
    · subst same
      rw [if_pos List.mem_cons_self]
      cases found : look first with
      | none =>
        rw [found] at ih
        simpa [ite_self] using ih
      | some member => simp [find?_cons]
    · have later : (name ∈ first :: rest) = (name ∈ rest) := by
        rw [List.mem_cons, or_iff_right (Ne.symm same)]
      simp only [later]
      cases look first with
      | none => exact ih
      | some member =>
        rw [← ih]
        exact if_neg (by simpa using same)

/-- What looks the same of a member as of the one that it replaces is the same throughout. -/
theorem map_put_of_find? {β : Type} [BEq κ] (look : κ × α → β) {members : Keyed κ α} {name : κ}
    {old member : α} (found : members.find? name = some old)
    (same : ∀ key, look (key, member) = look (key, old)) :
    (members.put name member).map look = members.map look := by
  induction members with
  | nil => cases found
  | cons head rest ih =>
    obtain ⟨key, first⟩ := head
    rw [find?_cons] at found
    by_cases h : key == name
    · rw [if_pos h] at found
      obtain rfl : first = old := Option.some.inj found
      simp [put, h, same]
    · rw [if_neg h] at found
      simp [put, h, ih found]

end Keyed

end RecordRules
