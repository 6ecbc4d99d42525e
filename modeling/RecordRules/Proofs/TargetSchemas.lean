import RecordRules.Proofs.Registration

/-!
Targets of reactions: whichever records a reaction acts on, they belong to its target schemas. What
was checked of the target schemas when a reaction was added is so checked of all records that it
can act on.
-/
namespace RecordRules

namespace Value

theorem key_of_same {v : Value} {key : Key} (same : v.same key.toValue = true) :
    ∃ other : Key, v = other.toValue ∧ (other == key) = true := by
  have found : ∃ other : Key, v = other.toValue := by
    cases v with
    | null => exact ⟨.null, rfl⟩
    | bool b => exact ⟨.bool b, rfl⟩
    | int n => exact ⟨.int n, rfl⟩
    | float x => exact ⟨.float x, rfl⟩
    | nan _ => cases key <;> simp [Key.toValue, Value.same, number?] at same
    | text s => exact ⟨.text s, rfl⟩
    | list _ => cases key <;> simp [Key.toValue, Value.same, number?] at same
    | object _ => cases key <;> simp [Key.toValue, Value.same, number?] at same
    | set _ => cases key <;> simp [Key.toValue, Value.same, number?] at same
    | record _ _ _ => cases key <;> simp [Key.toValue, Value.same, number?] at same
  obtain ⟨other, rfl⟩ := found
  exact ⟨other, rfl, (same_toValue other key).symm.trans same⟩

theorem names_of_beq {v : Value} {key other : Key} (named : v.names key = true)
    (same : (key == other) = true) : v.names other = true := by
  obtain ⟨given, rfl, equal⟩ := key_of_same named
  exact (same_toValue given other).trans (BEq.trans equal same)

end Value

namespace RuleBook

/-- A reaction may act on records of a schema: it is one of the target schemas, if these can be
told at all. -/
def MayTarget (c : Catalog) (r : Reaction) (schema : Key) : Prop :=
  ∀ names, targetSchemas c r = .ok names → ∃ name ∈ names, name.names schema = true

theorem MayTarget.of_beq {c : Catalog} {r : Reaction} {schema other : Key}
    (may : MayTarget c r schema) (same : (schema == other) = true) : MayTarget c r other := by
  intro names known
  obtain ⟨name, listed, named⟩ := may names known
  exact ⟨name, listed, Value.names_of_beq named same⟩

theorem exists_mem_targetSchemas {c : Catalog} {r : Reaction} {candidates names : List Value}
    (inScope : schemasInScope c r = .ok candidates) (known : targetSchemas c r = .ok names)
    {candidate : Value} (listed : candidate ∈ candidates) {schema : Key}
    (named : candidate.names schema = true)
    (counts : r.scope = .self ∨ Store.countsFor r.targetSchema schema.toValue = true) :
    ∃ name ∈ names, name.names schema = true := by
  rw [targetSchemas, inScope] at known
  dsimp only [bind, Except.bind] at known
  split at known
  · obtain rfl := Except.ok.inj known
    exact ⟨candidate, listed, named⟩
  · obtain rfl := Except.ok.inj known
    exact ⟨candidate, listed, named⟩
  · rename_i restricted related
    obtain rfl := Except.ok.inj known
    rw [Reaction.restriction?] at restricted
    split at restricted
    · rename_i restricts
      obtain rfl := Option.some.inj restricted
      have same : r.targetSchema.same schema.toValue = true := by
        have counted := counts.resolve_left related
        rwa [Store.countsFor, restricts, Bool.not_true, Bool.false_or] at counted
      obtain ⟨given, rfl, equal⟩ := Value.key_of_same named
      obtain ⟨only, restriction, also⟩ := Value.key_of_same same
      refine ⟨given.toValue, List.mem_filter.mpr ⟨listed, ?_⟩, named⟩
      rw [restriction, Value.same_toValue]
      exact BEq.trans equal (BEq.symm also)
    · cases restricted

end RuleBook

namespace Store

theorem mem_of_mem_distinctRecords {records : List Record} {r : Record}
    (member : r ∈ distinctRecords records) : r ∈ records := by
  suffices h : ∀ seen : List Record,
      r ∈ records.foldl (fun seen r => if seen.any fun q => q.key == r.key then seen
        else seen ++ [r]) seen → r ∈ seen ∨ r ∈ records from
    (h [] member).resolve_left List.not_mem_nil
  clear member
  induction records with
  | nil => exact fun seen inside => .inl inside
  | cons first rest ih =>
    intro seen inside
    rcases ih _ inside with before | later
    · dsimp only at before
      split at before
      · exact .inl before
      · rcases List.mem_append.mp before with old | new
        · exact .inl old
        · exact .inr (List.mem_cons.mpr (.inl (List.mem_singleton.mp new)))
    · exact .inr (List.mem_cons_of_mem first later)

theorem exists_refer_of_parent {s : Store} {schema : Schema} {r : Record} {only : Value}
    {records : List Record} (found : s.parents schema r only = .ok records) {target : Record}
    (member : target ∈ records) :
    ∃ f ∈ schema.referFields, countsFor only f.refer = true ∧
      Key.ofValue f.refer = .ok target.schema := by
  obtain ⟨referred, looked, found⟩ := bind_eq_ok.mp found
  obtain rfl := Except.ok.inj found
  obtain ⟨answer, inside, present⟩ := List.mem_filterMap.mp (mem_of_mem_distinctRecords member)
  obtain rfl : answer = some target := present
  obtain ⟨f, listed, along⟩ := exists_of_mem_mapM looked inside
  obtain ⟨field, counts⟩ := List.mem_filter.mp listed
  refine ⟨f, field, counts, ?_⟩
  rw [parentAlong] at along
  split at along
  · cases along
  · obtain ⟨key, named, along⟩ := bind_eq_ok.mp along
    split at along
    · cases along
    · obtain ⟨id, -, stored⟩ := Option.bind_eq_some_iff.mp (Except.ok.inj along)
      obtain ⟨data, -, rfl⟩ := Option.map_eq_some_iff.mp stored
      exact named

end Store

namespace RuleBook

variable {s : Store} {c : Catalog} {r : Reaction}

theorem exists_parent_in_scope {key schema : Key} {sch : Schema} {candidates : List Value}
    {f : Field} (up : r.scope = .parent) (named : Key.ofValue r.schema = .ok key)
    (known : c.get? key = some sch) (inScope : schemasInScope c r = .ok candidates)
    (listed : f ∈ sch.referFields) (refers : Key.ofValue f.refer = .ok schema) :
    ∃ candidate ∈ candidates, candidate.names schema = true := by
  rw [schemasInScope, up] at inScope
  obtain ⟨given, again, inScope⟩ := bind_eq_ok.mp inScope
  obtain rfl : key = given := Except.ok.inj (named.symm.trans again)
  obtain ⟨parents, found, inScope⟩ := bind_eq_ok.mp inScope
  obtain rfl := Except.ok.inj inScope
  obtain ⟨required, also, found⟩ := bind_eq_ok.mp found
  rw [Catalog.require, known] at also
  obtain rfl := Except.ok.inj also
  obtain ⟨names, looked, found⟩ := bind_eq_ok.mp found
  obtain rfl := Except.ok.inj found
  obtain ⟨parent, inside, answered⟩ := exists_mem_of_mapM looked listed
  obtain rfl : schema = parent := Except.ok.inj (refers.symm.trans answered)
  obtain ⟨first, distinct, same⟩ := Text.exists_mem_distinct inside
  exact ⟨first.toValue, List.mem_map_of_mem distinct, (Value.same_toValue _ _).trans same⟩

theorem exists_child_in_scope {key : Key} {edge : Key × Field} {candidates : List Value}
    (down : r.scope = .child) (named : Key.ofValue r.schema = .ok key)
    (inScope : schemasInScope c r = .ok candidates) (listed : edge ∈ c.childrenOf key) :
    ∃ candidate ∈ candidates, candidate.names edge.1 = true := by
  rw [schemasInScope, down] at inScope
  obtain ⟨given, again, inScope⟩ := bind_eq_ok.mp inScope
  obtain rfl : key = given := Except.ok.inj (named.symm.trans again)
  obtain rfl := Except.ok.inj inScope
  have child := List.mem_map_of_mem (f := Prod.fst) listed
  obtain ⟨first, distinct, same⟩ := Text.exists_mem_distinct child
  exact ⟨first.toValue, List.mem_map_of_mem distinct, (Value.same_toValue _ _).trans same⟩

/-- A reaction to what happens to a record only acts on records that belong to its target
schemas. -/
theorem mayTarget_of_related {object target : Record} {targets : List Record}
    (matched : r.schema.names object.schema = true)
    (found : s.relatedTo c object r.scope (if r.scope = .self then .null else r.targetSchema) =
      .ok targets) (member : target ∈ targets) : MayTarget c r target.schema := by
  intro names known
  obtain ⟨candidates, inScope, -⟩ := bind_eq_ok.mp known
  obtain ⟨key, schema, same⟩ := Value.key_of_same matched
  have named : Key.ofValue r.schema = .ok key := by
    rw [schema, Key.ofValue, Value.key?_toValue]
  cases scope : r.scope with
  | self =>
    rw [scope] at found
    obtain rfl := Except.ok.inj found
    obtain ⟨data, -, rfl⟩ := Option.map_eq_some_iff.mp (Option.mem_toList.mp member)
    rw [schemasInScope, scope] at inScope
    obtain rfl := Except.ok.inj inScope
    exact exists_mem_targetSchemas (by rw [schemasInScope, scope]; rfl) known
      (List.mem_singleton.mpr rfl) matched (.inl scope)
  | parent =>
    rw [scope] at found
    obtain ⟨sch, required, found⟩ := bind_eq_ok.mp found
    obtain ⟨f, listed, counts, refers⟩ := Store.exists_refer_of_parent found member
    have present : c.get? key = some sch := by
      rw [Catalog.get?, Keyed.find?_congr same]
      exact Catalog.get?_of_require required
    obtain ⟨candidate, inside, reached⟩ :=
      exists_parent_in_scope scope named present inScope listed refers
    rw [Key.eq_of_ofValue refers] at counts
    exact exists_mem_targetSchemas inScope known inside reached (.inr counts)
  | child =>
    rw [scope] at found
    obtain rfl := Except.ok.inj found
    obtain ⟨edge, listed, refers⟩ := List.mem_flatMap.mp member
    obtain ⟨child, counts⟩ := List.mem_filter.mp listed
    have from_key : edge ∈ c.childrenOf key := by
      obtain ⟨e, among, rfl⟩ := List.mem_map.mp child
      obtain ⟨declared, parent⟩ := List.mem_filter.mp among
      exact List.mem_map_of_mem (List.mem_filter.mpr ⟨declared, BEq.trans parent (BEq.symm same)⟩)
    obtain ⟨⟨id, data⟩, -, rfl⟩ := List.mem_map.mp (List.mem_filter.mp refers).1
    obtain ⟨candidate, inside, reached⟩ := exists_child_in_scope scope named inScope from_key
    exact exists_mem_targetSchemas inScope known inside reached (.inr counts)

end RuleBook

end RecordRules
