import RecordRules.Proofs.CreatedReferences

/-!
What the view of a created record shows. Where there are no state rules and the rules for creating
and viewing mirror each other, the names in a view are all different, and its values are those of
the payload, the defaults, and the id of the parent.
-/
namespace RecordRules

open Step

def Contract.shownValue (k : Contract) (parent : Option Record) (entries : Entries) (f : Field) :
    Value :=
  match parent with
  | some p =>
    if k.referBack = some f.name then p.id.toValue else (entries.find? f.name).getD f.default
  | none => (entries.find? f.name).getD f.default

/-- The view of an object without any flags: its id, its fields, what is under its aliases, and an
empty state. -/
def Contract.shown (k : Contract) (parent : Option Record) (entries : Entries) (r : Record)
    (under : Entries) : Entries :=
  ("id", r.id.toValue) :: (k.schema.fields.map fun f => (f.name, k.shownValue parent entries f)) ++
    under ++ [("$state", .object [("fields", .object [])])]

namespace Engine

mutual

/-- The view of a value of a payload that is stored as these records: it shows all names that there
are in the payload. -/
inductive Shows (e : Engine) : Contract → Option Record → Value → List Record → Value → Prop where
  | object {k : Contract} {parent : Option Record} {entries under : Entries} {r : Record}
      {below : List Record} (allowed : ∀ name ∈ entries.names, k.allows name = true)
      (children : ShowsBelow e k entries r k.children below under) :
      Shows e k parent (.object entries) (r :: below) (.object (k.shown parent entries r under))

/-- What stands under the aliases of an object: the views of the children that it gives, and there
is no more than one of them under an alias for a single child. -/
inductive ShowsBelow (e : Engine) : Contract → Entries → Record → List ChildRequirement →
    List Record → Entries → Prop where
  | nil {k : Contract} {entries : Entries} {r : Record} : ShowsBelow e k entries r [] [] []
  | cons {k : Contract} {entries under : Entries} {r : Record} {child : ChildRequirement}
      {rest : List ChildRequirement} {here later : List Record} {views : List Value}
      (single : child.cardinality = .one → (child.items entries).length ≤ 1)
      (items : ShowsEach e (e.contracts.nested e.catalog k child) r (child.items entries) here
        views) (others : ShowsBelow e k entries r rest later under) :
      ShowsBelow e k entries r (child :: rest) (here ++ later)
        ((child.key.embedded, underAlias child views) :: under)

inductive ShowsEach (e : Engine) : Contract → Record → List Value → List Record → List Value →
    Prop where
  | nil {k : Contract} {parent : Record} : ShowsEach e k parent [] [] []
  | cons {k : Contract} {parent : Record} {item v : Value} {items views : List Value}
      {here later : List Record} (first : Shows e k (some parent) item here v)
      (others : ShowsEach e k parent items later views) :
      ShowsEach e k parent (item :: items) (here ++ later) (v :: views)

end

variable {e : Engine} {k v : Contract} {r : Record} {s t : Store}

theorem yields_collectAll {α β : Type} {P : Store → Prop} {step : α → Step Store β} {x : α}
    {xs : List α} {y : β} {ys : List β} (first : Yields P (step x) (.ok y))
    (others : Yields P (collectAll step xs) (.ok ys)) :
    Yields P (collectAll step (x :: xs)) (.ok (y :: ys)) :=
  yields_ok_bind first (yields_ok_bind others (yields_pure _))

theorem stateOf_yields (fits : e.Fits) (quiet : e.rules.stateRules = [])
    (known : (e.catalog.get? r.schema).isSome = true) :
    Yields (Store.SameRows t) (e.stateOf r) (.ok ⟨r.schema, []⟩) := by
  obtain ⟨definition, found⟩ := Option.isSome_iff_exists.mp known
  have none : e.rules.stateRulesFor r.schema = [] := by
    rw [RuleBook.stateRulesFor, quiet, List.filter_nil]
  have unread : (e.rules.stateReach r.schema).isNone = true := by
    rw [fits.rules.summarized.stateRules, none]
    rfl
  have loaded : Yields (Store.SameRows t) (RecordState.loadRelated e.catalog e.rules r)
      (.ok ([], [])) := by
    rw [RecordState.loadRelated, if_pos unread]
    exact yields_pure _
  have computed : RecordState.compute e.catalog e.rules r [] [] = .ok ⟨r.schema, []⟩ := by
    rw [RecordState.compute, Catalog.require, found, none]
    refine congrArg Except.ok (congrArg (RecordState.mk r.schema) ?_)
    exact List.filterMap_eq_nil_iff.mpr fun f _ => rfl
  refine yields_ok_bind loaded ?_
  dsimp only
  rw [computed]
  exact yields_ofExcept _

theorem get_of_fills_eq_shownValue (fits : e.Fits) (composes : e.Composes k)
    {parent : Option Record} {entries : Entries} (alone : k.Under parent)
    (fills : k.Fills parent entries r) {f : Field} (declared : f ∈ k.schema.fields) :
    r.data.get f.name = k.shownValue parent entries f := by
  have checked := composes.checked fits
  cases parent with
  | none =>
    have back : k.referBack ≠ some f.name := by
      rw [show k.referBack = none from alone]
      exact Option.some_ne_none _ ∘ Eq.symm
    exact get_of_fills checked fills declared back
  | some p =>
    unfold Contract.shownValue
    dsimp only
    split
    · rename_i back
      obtain ⟨g, -, -, named, value⟩ := fills.referBack p rfl
      rw [← Option.some.inj (named.symm.trans back), Entries.get, value]
      rfl
    · rename_i other
      exact get_of_fills checked fills declared other

theorem Mirrors.names_apart (mirrors : e.Mirrors) (fits : e.Fits) (composes : e.Composes k)
    (target : k.target = .create) :
    ((["id"] ++ k.schema.fieldNames) ++ k.children.map (fun child => child.key.embedded) ++
      ["$state"]).Nodup := by
  have reads : k.target ≠ .edit := by rw [target]; decide
  obtain ⟨aliases, apart, -⟩ := mirrors.children_apart fits composes reads
  have declared := (composes.checked fits).nodup
  obtain ⟨key, -, found, -⟩ := composes
  obtain ⟨other, -, present⟩ := Keyed.mem_of_find? found
  obtain ⟨id, state⟩ := mirrors.fields other k.schema present
  have undeclared (name : String) (free : k.schema.declares name = false) :
      name ∉ k.schema.fieldNames := by
    intro inside
    obtain ⟨f, declared, same⟩ := List.mem_map.mp inside
    rw [Schema.declares_iff.mpr ⟨f, declared, same⟩] at free
    cases free
  have given (name : String) (inside : name ∈ k.children.map fun child => child.key.embedded) :
      name ≠ "id" ∧ name ≠ "$state" ∧ name ∉ k.schema.fieldNames := by
    obtain ⟨child, listed, rfl⟩ := List.mem_map.mp inside
    obtain ⟨name, key, id, state, free⟩ := aliases child listed
    rw [key]
    exact ⟨id, state, undeclared name free⟩
  rw [List.nodup_append, List.nodup_append, List.nodup_append]
  refine ⟨⟨⟨List.nodup_singleton _, declared, ?_⟩, List.pairwise_map.mpr apart, ?_⟩,
    List.nodup_singleton _, ?_⟩
  · intro name one other field same
    rw [List.mem_singleton.mp one] at same
    exact undeclared "id" id (same ▸ field)
  · intro name own other among same
    obtain ⟨noId, -, undeclared⟩ := given other among
    rcases List.mem_append.mp own with one | field
    · exact noId (same ▸ List.mem_singleton.mp one)
    · exact undeclared (same ▸ field)
  · intro name inside other last same
    rw [List.mem_singleton.mp last] at same
    rw [same] at inside
    rcases List.mem_append.mp inside with own | among
    · rcases List.mem_append.mp own with one | field
      · exact absurd (List.mem_singleton.mp one) (by decide)
      · exact undeclared "$state" state field
    · exact (given "$state" among).2.1 rfl

theorem entries_of_view (mirrors : e.Mirrors) (fits : e.Fits) (composes : e.Composes k)
    (target : k.target = .create) (mirrored : k.Mirrored v) {parent : Option Record}
    {entries under : Entries} (alone : k.Under parent) (fills : k.Fills parent entries r)
    (names : under.names = k.children.map fun child => child.key.embedded) :
    ((ownView v ⟨r.schema, []⟩ r).merge under).put "$state"
      (.object [("fields", .object [])]) = k.shown parent entries r under := by
  have apart := mirrors.names_apart fits composes target
  rw [← names] at apart
  let fields : Entries := k.schema.fields.map fun f => (f.name, k.shownValue parent entries f)
  have called : fields.names = k.schema.fieldNames := by
    rw [Keyed.names, List.map_map]
    rfl
  rw [← called] at apart
  have values : v.ownFields.map (fun name => (name, r.get name)) = fields := by
    rw [mirrored.own, Schema.fieldNames, List.map_map]
    refine List.map_congr_left fun f declared => ?_
    have id : f.name ≠ "id" := by
      intro same
      obtain ⟨key, -, found, -⟩ := composes
      obtain ⟨other, -, present⟩ := Keyed.mem_of_find? found
      have free := (mirrors.fields other k.schema present).1
      rw [Schema.declares_iff.mpr ⟨f, declared, same⟩] at free
      cases free
    change (f.name, r.get f.name) = _
    rw [Record.get, if_neg id, get_of_fills_eq_shownValue fits composes alone fills declared]
  let own : Entries := ("id", r.id.toValue) :: fields
  let shown : Entries := own ++ under
  have listed : shown.names = ["id"] ++ fields.names ++ under.names := List.map_append
  obtain ⟨below, -, last⟩ := List.nodup_append.mp apart
  have first : ownView v ⟨r.schema, []⟩ r = own := by
    have all : v.ownFields.filter (fun name => !List.contains [] name) = v.ownFields :=
      List.filter_eq_self.mpr fun _ _ => rfl
    have merged : Keyed.merge [("id", r.id.toValue)] fields = own :=
      Keyed.merge_eq_append (List.nodup_append.mp below).1
    rw [← merged, ← values, ← all]
    rfl
  have merged : own.merge under = shown := Keyed.merge_eq_append (listed ▸ below)
  have absent : shown.find? "$state" = none := by
    rw [Option.eq_none_iff_forall_ne_some]
    intro w found
    obtain ⟨name, same, inside⟩ := Keyed.mem_of_find? found
    have among : name ∈ shown.names := List.mem_map_of_mem inside
    exact last name (listed ▸ among) "$state" List.mem_cons_self (eq_of_beq same)
  rw [first, merged, Keyed.put_of_find?_eq_none absent]
  rfl

structure Plain (e : Engine) : Prop where
  fits : e.Fits
  references : e.References
  mirrors : e.Mirrors
  quiet : e.rules.stateRules = []

structure Reads (e : Engine) (k v : Contract) : Prop where
  creates : e.Composes k
  create : k.target = .create
  shows : e.Composes v
  view : v.target = .view
  schema : v.schema = k.schema

namespace Reads

theorem mirrored (reads : e.Reads k v) (plain : e.Plain) : k.Mirrored v :=
  plain.mirrors.mirrored plain.fits reads.creates reads.create reads.shows reads.view reads.schema

theorem nested (reads : e.Reads k v) (plain : e.Plain) {child : ChildRequirement}
    (listed : child ∈ k.children) :
    e.Reads (e.contracts.nested e.catalog k child) (e.contracts.nested e.catalog v child) := by
  have shown : child ∈ v.children := (reads.mirrored plain).children ▸ listed
  obtain ⟨key, definition, given, found, same, -⟩ := reads.creates.nested plain.fits listed
  obtain ⟨other, also, named, stored, equal, -⟩ := reads.shows.nested plain.fits shown
  obtain rfl : key = other := Except.ok.inj (given.symm.trans named)
  obtain rfl : definition = also := Option.some.inj (found.symm.trans stored)
  rw [same, equal]
  constructor
  case creates => exact composes_contractOf found _ _ _
  case create => rw [ContractBook.contractOf_target, reads.create]
  case shows => exact composes_contractOf found _ _ _
  case view => rw [ContractBook.contractOf_target, reads.view]
  case schema => rw [ContractBook.contractOf_schema, ContractBook.contractOf_schema]

theorem views (reads : e.Reads k v) (plain : e.Plain)
    (named : Key.ofValue k.schema.name = .ok r.schema) : e.Views v r where
  composes := reads.shows
  target := reads.view
  schema := by
    rw [(reads.creates.get?_of_named plain.fits named).1, reads.schema]

theorem viewing (reads : e.Reads k v) : k.target ≠ .edit := by
  rw [reads.create]
  decide

end Reads

end Engine

end RecordRules
