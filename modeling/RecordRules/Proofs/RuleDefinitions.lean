import RecordRules.Proofs.PayloadTrees
import RecordRules.Proofs.ValueEquality

/-!
Definitions of state rules. A rule that is read from a well-formed definition holds well-formed
values only: the values that it allows make up a set, and so do the operands that are collections.
-/
namespace RecordRules

namespace Value

theorem isPlain_of_mem {items : List Value} (plain : (list items).isPlain = true) {v : Value}
    (member : v ∈ items) : v.isPlain = true := by
  rw [isPlain] at plain
  induction items with
  | nil => cases member
  | cons first rest ih =>
    rw [isPlain.plainItems, Bool.and_eq_true] at plain
    rcases List.mem_cons.mp member with rfl | later
    · exact plain.1
    · exact ih plain.2 later

theorem isPlain_of_entry {entries : Entries} (plain : (object entries).isPlain = true)
    {entry : String × Value} (member : entry ∈ entries) : entry.2.isPlain = true := by
  rw [isPlain] at plain
  induction entries with
  | nil => cases member
  | cons first rest ih =>
    rw [isPlain.plainEntries, Bool.and_eq_true] at plain
    rcases List.mem_cons.mp member with rfl | later
    · exact plain.1
    · exact ih plain.2 later

theorem wellFormed_of_isPlain {v : Value} (plain : v.isPlain = true) (proper : v.isProper = true) :
    v.WellFormed := by
  induction v using parts_induction with
  | null => exact .null
  | bool b => exact .bool b
  | int n => exact .int n
  | float x => exact .float x
  | nan mark => cases plain
  | text s => exact .text s
  | list items ih =>
    exact .list fun v member =>
      ih v member (isPlain_of_mem plain member) (isProper_of_mem proper member)
  | object entries ih =>
    have names := nodup_of_isProper proper
    apply WellFormed.object names
    intro entry member
    have inside := isProper_get proper entry.1
    rw [Entries.get, (Keyed.find?_eq_some_iff names entry.1 entry.2).mpr member] at inside
    exact ih entry member (isPlain_of_entry plain member) inside
  | set members => cases plain
  | record schema id data => cases plain

variable {v : Value} {entries : Entries}

theorem WellFormed.of_mem {items : List Value} (formed : (Value.list items).WellFormed)
    (member : v ∈ items) : v.WellFormed := by
  cases formed with
  | list each => exact each v member

theorem WellFormed.members {s : List Value} (formed : (Value.set s).WellFormed) :
    ∀ v ∈ s, v.WellFormed := by
  cases formed with
  | set _ _ each => exact each

theorem WellFormed.find? (formed : (Value.object entries).WellFormed) {name : String}
    (found : entries.find? name = some v) : v.WellFormed := by
  cases formed with
  | object _ each =>
    obtain ⟨key, -, member⟩ := Keyed.mem_of_find? found
    exact each _ member

theorem WellFormed.get (formed : (Value.object entries).WellFormed) (name : String) :
    (entries.get name).WellFormed := by
  rw [Entries.get]
  cases found : Keyed.find? entries name with
  | none => exact .null
  | some v => exact formed.find? found

theorem WellFormed.filter (formed : (Value.object entries).WellFormed)
    (kept : String × Value → Bool) : (Value.object (entries.filter kept)).WellFormed := by
  cases formed with
  | object names each =>
    refine .object (Keyed.nodup_filter names kept) fun entry member => ?_
    exact each entry (List.mem_filter.mp member).1

theorem WellFormed.merge {updates : Entries} (formed : (Value.object entries).WellFormed)
    (others : (Value.object updates).WellFormed) :
    (Value.object (entries.merge updates)).WellFormed := by
  cases formed with
  | object names each =>
    cases others with
    | object _ each' =>
      refine .object (Keyed.nodup_merge names updates) fun entry member => ?_
      exact (Keyed.mem_merge member).elim (each entry) (each' entry)

theorem wellFormed_distinct {items : List Value} (keys : ∀ v ∈ items, v.isKey = true)
    (each : ∀ v ∈ items, v.WellFormed) : (set (distinct items)).WellFormed := by
  suffices grown : ∀ seen, (set seen).WellFormed → (set (items.foldl
      (fun seen v => if v.isIn seen then seen else seen ++ [v]) seen)).WellFormed from
    grown [] (.set (fun _ none => absurd none List.not_mem_nil) .nil
      fun _ none => absurd none List.not_mem_nil)
  induction items with
  | nil => exact fun seen formed => formed
  | cons v rest ih =>
    rw [List.forall_mem_cons] at keys each
    intro seen formed
    rw [List.foldl_cons]
    refine ih keys.2 each.2 _ ?_
    split
    · exact formed
    · rename_i fresh
      cases formed with
      | set keys' apart each' =>
        refine .set ?_ ?_ ?_
        · simpa [or_imp, forall_and] using ⟨keys', keys.1⟩
        · refine List.pairwise_append.mpr ⟨apart, List.pairwise_singleton _ v, ?_⟩
          intro w member _ last
          obtain rfl := List.mem_singleton.mp last
          rw [← Bool.not_eq_true]
          exact fun equal => fresh (isIn_iff.mpr ⟨w, member, (each' w member).same_symm equal⟩)
        · simpa [or_imp, forall_and] using ⟨each', each.1⟩

end Value

namespace Definition

variable {v : Value}

theorem wellFormed_entries {entries : Entries} (formed : v.WellFormed)
    (read : Definition.entries v = .ok entries) : (Value.object entries).WellFormed := by
  cases v with
  | object given =>
    obtain rfl := Except.ok.inj read
    exact formed
  | _ => cases read

theorem wellFormed_either {entries : Entries} (formed : (Value.object entries).WellFormed)
    (key other : String) {default : Value} (rest : default.WellFormed) :
    (either entries key other default).WellFormed := by
  rw [either]
  split
  · rename_i found
    exact formed.find? found
  · cases found : Keyed.find? entries other with
    | none => exact rest
    | some v => exact formed.find? found

theorem wellFormed_members {items : List Value} (formed : v.WellFormed)
    (read : members v = .ok items) : ∀ item ∈ items, item.WellFormed := by
  intro item member
  cases formed with
  | list each | set _ _ each =>
    obtain rfl := Except.ok.inj read
    exact each item member
  | text s =>
    obtain rfl := Except.ok.inj read
    obtain ⟨c, -, rfl⟩ := List.mem_map.mp member
    exact .text _
  | object _ _ =>
    obtain rfl := Except.ok.inj read
    obtain ⟨entry, -, rfl⟩ := List.mem_map.mp member
    exact .text _
  | _ => cases read

theorem wellFormed_setMembers {items : List Value} (formed : v.WellFormed)
    (read : setMembers v = .ok items) : (Value.set items).WellFormed := by
  obtain ⟨given, collected, read⟩ := bind_eq_ok.mp read
  split at read
  · cases read
  · rename_i fit
    obtain rfl := Except.ok.inj read
    refine Value.wellFormed_distinct (fun item member => ?_) (wellFormed_members formed collected)
    simpa using List.find?_eq_none.mp fit item member

end Definition

def Condition.WellFormed (c : Condition) : Prop := ∀ v, c.operand = .value v → v.WellFormed

namespace Condition

theorem wellFormed_parts {spec path operator operand : Value} (formed : spec.WellFormed)
    (taken : parts? spec = some (path, operator, operand)) : operand.WellFormed := by
  rw [parts?.eq_def] at taken
  split at taken
  · simp only [Option.some.injEq, Prod.mk.injEq] at taken
    obtain ⟨-, -, rfl⟩ := taken
    exact formed.get "value"
  · simp only [Option.some.injEq, Prod.mk.injEq] at taken
    obtain ⟨rfl, rfl, rfl⟩ := taken
    exact formed.of_mem (by simp)
  · cases taken

theorem wellFormed_operand {operator : Operator} {given v : Value} (formed : given.WellFormed)
    (read : readOperand operator given = .ok (.value v)) : v.WellFormed := by
  rw [readOperand.eq_def] at read
  split at read
  · split at read
    · cases found : readPath _ with
      | error failure =>
        rw [found] at read
        cases read
      | ok p =>
        rw [found] at read
        cases read
    · cases read
      exact formed
  · split at read
    · rename_i items _
      cases collected : Definition.setMembers (.list items) with
      | error failure =>
        rw [collected] at read
        cases read
      | ok members =>
        rw [collected] at read
        cases read
        exact Definition.wellFormed_setMembers formed collected
    · cases read
      exact formed
  · cases read
    exact formed

theorem wellFormed_ofValue {spec : Value} {c : Condition} (formed : spec.WellFormed)
    (read : ofValue spec = .ok c) : c.WellFormed := by
  rw [ofValue] at read
  split at read
  · rename_i path operator given taken
    split at read
    · obtain ⟨operator, -, read⟩ := bind_eq_ok.mp read
      split at read
      · cases read
      · obtain ⟨operand, made, read⟩ := bind_eq_ok.mp read
        obtain ⟨p, -, read⟩ := bind_eq_ok.mp read
        obtain rfl := Except.ok.inj read
        rintro v rfl
        exact wellFormed_operand (wellFormed_parts formed taken) made
    · cases read
  · cases read

theorem wellFormed_readEach {specs : List Value} {cs : List Condition}
    (each : ∀ spec ∈ specs, ∀ cs, readNested spec = .ok cs → ∀ c ∈ cs, c.WellFormed)
    (read : readEach specs = .ok cs) : ∀ c ∈ cs, c.WellFormed := by
  induction specs generalizing cs with
  | nil =>
    obtain rfl := Except.ok.inj read
    exact fun c none => absurd none List.not_mem_nil
  | cons spec rest ih =>
    rw [List.forall_mem_cons] at each
    rw [readEach] at read
    obtain ⟨first, readFirst, read⟩ := bind_eq_ok.mp read
    obtain ⟨others, readOthers, read⟩ := bind_eq_ok.mp read
    obtain rfl := Except.ok.inj read
    intro c member
    rcases List.mem_append.mp member with here | later
    · exact each.1 first readFirst c here
    · exact ih each.2 readOthers c later

theorem wellFormed_single {spec : Value} {cs : List Condition} (formed : spec.WellFormed)
    (read : (ofValue spec).map ([·]) = .ok cs) : ∀ c ∈ cs, c.WellFormed := by
  cases made : ofValue spec with
  | error failure =>
    rw [made] at read
    cases read
  | ok c =>
    rw [made] at read
    obtain rfl := Except.ok.inj read
    exact List.forall_mem_singleton.mpr (wellFormed_ofValue formed made)

theorem wellFormed_readNested {spec : Value} (formed : spec.WellFormed) :
    ∀ cs, readNested spec = .ok cs → ∀ c ∈ cs, c.WellFormed := by
  induction spec using Value.parts_induction with
  | list items ih =>
    intro cs read
    rw [readNested] at read
    split at read
    · exact wellFormed_single formed read
    · exact wellFormed_readEach (fun spec member => ih spec member (formed.of_mem member)) read
  | _ => exact fun cs read => wellFormed_single formed read

theorem wellFormed_readAll {specs : Value} {cs : List Condition} (formed : specs.WellFormed)
    (read : readAll specs = .ok cs) : ∀ c ∈ cs, c.WellFormed := by
  rw [readAll] at read
  split at read
  · obtain ⟨items, collected, read⟩ := bind_eq_ok.mp read
    refine wellFormed_readEach (fun spec member => ?_) read
    exact wellFormed_readNested (Definition.wellFormed_members formed collected spec member)
  · obtain rfl := Except.ok.inj read
    exact fun c none => absurd none List.not_mem_nil

end Condition

namespace StateRule

/-- The values that a rule names, to allow them or to compare with them, are well formed. -/
structure WellFormed (r : StateRule) : Prop where
  subset : ∀ values, r.effect.subset = some values → (Value.set values).WellFormed
  conditions : ∀ c ∈ r.conditions, c.WellFormed

theorem wellFormed_flags {parts flags : Entries} (formed : (Value.object parts).WellFormed)
    (read : Effect.readFlags parts = .ok flags) : (Value.object flags).WellFormed := by
  rw [Effect.readFlags] at read
  split at read
  · rename_i inner found
    obtain rfl := Except.ok.inj read
    exact formed.merge (found ▸ formed.get "flags")
  · split at read
    · cases read
    · obtain rfl := Except.ok.inj read
      exact formed

theorem wellFormed_subset {given : Value} (formed : given.WellFormed)
    {values : List Value} (read : Effect.readSubset given = .ok (some values)) :
    (Value.set values).WellFormed := by
  rw [Effect.readSubset.eq_def] at read
  split at read
  · cases read
  · cases collected : Definition.setMembers given with
    | error failure =>
      rw [collected] at read
      cases read
    | ok members =>
      rw [collected] at read
      cases read
      exact Definition.wellFormed_setMembers formed collected

theorem wellFormed_givenEffect {parts : Entries} (formed : (Value.object parts).WellFormed) :
    (givenEffect parts).WellFormed := by
  rw [givenEffect]
  split
  · exact formed.get "effect"
  · exact formed.filter _

theorem wellFormed_ofValue {definition : Value} {r : StateRule} (formed : definition.WellFormed)
    (read : ofValue definition = .ok r) : r.WellFormed := by
  obtain ⟨parts, taken, read⟩ := bind_eq_ok.mp read
  obtain ⟨schema, -, read⟩ := bind_eq_ok.mp read
  obtain ⟨effect, made, read⟩ := bind_eq_ok.mp read
  obtain ⟨conditions, listed, read⟩ := bind_eq_ok.mp read
  obtain rfl := Except.ok.inj read
  have whole := Definition.wellFormed_entries formed taken
  constructor
  case conditions => exact Condition.wellFormed_readAll (whole.get "conditions") listed
  case subset =>
    intro values restricted
    obtain ⟨inner, taken', made⟩ := bind_eq_ok.mp made
    obtain ⟨flags, flagged, made⟩ := bind_eq_ok.mp made
    obtain ⟨fields, -, made⟩ := bind_eq_ok.mp made
    obtain ⟨subset, limited, made⟩ := bind_eq_ok.mp made
    obtain rfl := Except.ok.inj made
    obtain rfl : subset = some values := restricted
    have parts := Definition.wellFormed_entries (wellFormed_givenEffect whole) taken'
    have flags := wellFormed_flags parts flagged
    exact wellFormed_subset (Definition.wellFormed_either flags _ _ .null) limited

end StateRule

end RecordRules
