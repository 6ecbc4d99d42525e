import RecordRules.Proofs.BreadthFirst
import RecordRules.Proofs.RelatedRecords

/-!
Collecting related records. Main statement: whatever is stored, collecting the records above or
below one is a breadth-first search along its look-ups: it ends, and it answers the records that are
reached, each once, nearest first, all of them up to the limit; to a smaller extent it answers the
beginning of this list.
-/
namespace RecordRules

open Step

theorem Record.get_eq_or (name : String) {q r : Record} (held : q.data = r.data) :
    q.get name = r.get name ∨ q.get name = q.id.toValue ∧ r.get name = r.id.toValue := by
  unfold get
  split
  · exact .inr ⟨rfl, rfl⟩
  · rw [held]
    exact .inl rfl

namespace Store

variable {s : Store} {c : Catalog} {q r start : Record} {only : Value}

theorem children_congr (same : (q.key == r.key) = true) :
    s.children c q only = s.children c r only := by
  obtain ⟨schemas, ids⟩ := Bool.and_eq_true_iff.mp same
  have edges : c.childrenOf q.schema = c.childrenOf r.schema := by
    rw [Catalog.childrenOf, Catalog.childrenOf]
    congr 1
    apply List.filter_congr
    intro edge _
    exact BEq.congr_right schemas
  rw [children, children, edges]
  congr 1
  funext edge
  apply List.filter_congr
  intro p _
  exact Value.names_congr ids

theorem parents_congr (same : (q.key == r.key) = true) (held : q.data = r.data)
    {found : List Record} (looked : s.relatedTo c q .parent only = .ok found) :
    ∃ others, s.relatedTo c r .parent only = .ok others ∧
      ∀ p ∈ found, ∃ twin ∈ others, (twin.key == p.key) = true := by
  obtain ⟨schemas, ids⟩ := Bool.and_eq_true_iff.mp same
  have known : c.get? q.schema = c.get? r.schema := Keyed.find?_congr schemas c.schemas
  have fields : c.referFieldsOf q = c.referFieldsOf r := by
    rw [Catalog.referFieldsOf, Catalog.referFieldsOf, known]
  have usable : ∃ others, s.relatedTo c r .parent only = .ok others := by
    obtain ⟨has, each⟩ := relatedTo_parent_isOk_iff.mp ⟨found, looked⟩
    refine relatedTo_parent_isOk_iff.mpr ⟨?_, fun f listed counts whole => ?_⟩
    · rwa [Catalog.has, ← known]
    · rw [fields] at each
      rcases Record.get_eq_or f.name held with equal | ⟨own, other⟩
      · rw [← equal] at whole ⊢
        exact each f listed counts whole
      · rw [other] at whole ⊢
        refine ⟨(each f listed counts ?_).1, ?_⟩
        · rw [own]
          exact Key.isTrue_of_same (BEq.symm ids) whole
        · cases r.id <;> rfl
  obtain ⟨others, also⟩ := usable
  refine ⟨others, also, ?_⟩
  intro p listed
  have stored := has_of_parent looked listed
  have mentions : c.mentions q q.get p = c.mentions r r.get p := by
    rw [Catalog.mentions, Catalog.mentions, fields]
    apply List.countP_congr
    intro f _
    have names : (q.get f.name).names p.id = (r.get f.name).names p.id := by
      rcases Record.get_eq_or f.name held with equal | ⟨own, other⟩
      · rw [equal]
      · rw [own, other, Value.names, Value.names, Value.same_toValue, Value.same_toValue]
        exact BEq.congr_left ids
    rw [Field.mentions, Field.mentions, names]
  have times : timesIn others p = timesIn found p := by
    rw [timesIn_parent also stored, timesIn_parent looked stored, mentions]
  have present : 0 < timesIn found p := List.countP_pos_iff.mpr ⟨p, listed, BEq.rfl⟩
  rw [← times] at present
  exact List.countP_pos_iff.mp present

end Store

namespace Traversal

variable {s : Store} {c : Catalog} {direction : Direction} {start q r : Record}

def near (s : Store) (c : Catalog) (direction : Direction) (r : Record) :
    Except Failure (List Record) :=
  s.relatedTo c r direction.scope .null

theorem near_congr (same : (q.key == r.key) = true)
    (stored : q = r ∨ (direction = .up → s.Has q ∧ s.Has r)) {found : List Record}
    (looked : near s c direction q = .ok found) :
    ∃ others, near s c direction r = .ok others ∧
      ∀ p ∈ found, ∃ twin ∈ others, (twin.key == p.key) = true := by
  rcases stored with rfl | stored
  · exact ⟨found, looked, fun p listed => ⟨p, listed, BEq.rfl⟩⟩
  · cases direction with
    | up =>
      obtain ⟨here, there⟩ := stored rfl
      exact Store.parents_congr same (here.data_eq there same) looked
    | down =>
      obtain rfl : s.children c q .null = found := Except.ok.inj looked
      rw [Store.children_congr same]
      exact ⟨_, rfl, fun p listed => ⟨p, listed, BEq.rfl⟩⟩

theorem has_of_walk {look : Record → Except Failure (List Record)}
    (looks : ∀ q, ∃ r, look q = near s c .up r) {n : Nat} (walk : Walk look start n r) :
    r = start ∨ s.Has r := by
  cases walk with
  | start => exact .inl rfl
  | @step n q _ found walk looked listed =>
    obtain ⟨p, same⟩ := looks q
    rw [same] at looked
    exact .inr (Store.has_of_parent looked listed)

theorem coherent_fromStart (s : Store) (c : Catalog) (direction : Direction) (start : Record) :
    Coherent (fromStart (near s c direction) start) start := by
  intro m n q r walk other same found looked
  have keys : ((standIn start q).key == (standIn start r).key) = true :=
    PartialEquivBEq.trans (key_standIn q) (PartialEquivBEq.trans same (BEq.symm (key_standIn r)))
  refine near_congr keys ?_ looked
  unfold standIn
  rw [← BEq.congr_left same]
  by_cases first : (q.key == start.key) = true
  · rw [if_pos first, if_pos first]
    exact .inl rfl
  · rw [if_neg first, if_neg first]
    right
    intro up
    subst up
    have looks (q : Record) : ∃ r, fromStart (near s c .up) start q = near s c .up r := ⟨_, rfl⟩
    have stored (p : Record) (apart : ¬ (p.key == start.key) = true) {k : Nat}
        (walk : Walk (fromStart (near s c .up) start) start k p) : s.Has p := by
      rcases has_of_walk looks walk with rfl | has
      · exact absurd BEq.rfl apart
      · exact has
    exact ⟨stored q first walk, stored r (by rwa [← BEq.congr_left same]) other⟩

theorem reaches_fromStart_iff (stored : s.Has start) (n : Nat) (key : RecordKey) :
    Reaches (fromStart (near s c direction) start) start n key ↔
      Reaches (near s c direction) start n key := by
  have here {look : Record → Except Failure (List Record)} (looks : ∀ q, ∃ r,
      look q = near s c direction r) {n : Nat} {p : Record} (walk : Walk look start n p)
      (up : direction = .up) : s.Has p ∧ s.Has (standIn start p) := by
    subst up
    have has : s.Has p := by
      rcases has_of_walk looks walk with rfl | has
      · exact stored
      · exact has
    refine ⟨has, ?_⟩
    unfold standIn
    split
    · exact stored
    · exact has
  constructor
  · apply Follows.reaches
    intro m n q r walk other same found looked
    refine near_congr (PartialEquivBEq.trans (key_standIn q) same) (.inr fun up => ?_) looked
    exact ⟨(here (fun q => ⟨_, rfl⟩) walk up).2, (here (fun q => ⟨_, rfl⟩) other up).1⟩
  · apply Follows.reaches
    intro m n q r walk other same found looked
    refine near_congr (PartialEquivBEq.trans same (BEq.symm (key_standIn r)))
      (.inr fun up => ?_) looked
    exact ⟨(here (fun q => ⟨_, rfl⟩) walk up).1, (here (fun q => ⟨_, rfl⟩) other up).2⟩

theorem exec_collect (c : Catalog) (s : Store) (direction : Direction) (start : Record)
    (extent : Extent) :
    (exec (collect c direction start extent) s).1 = reached (near s c direction) start extent :=
  (reached_yields (fun r => Store.related_yields s c r direction.scope .null) start extent s rfl).1

/-- Whatever is stored, and in whichever direction: collecting related records comes to an end, by
itself or by a look-up that fails for a record it has reached. What it answers are records that are
reached from the start, none of them twice and not the start itself, no more than the limit, in the
order of their distances, and all of them if they are fewer than the limit. It is the beginning of
what is answered to the full extent. A record under the key of the start is taken to be the start,
which makes no difference if the start is stored as it was given. -/
theorem collect_breadthFirst (c : Catalog) (s : Store) (direction : Direction) (start : Record)
    (extent : Extent) :
    let outcome := (exec (collect c direction start extent) s).1
    let around := fromStart (near s c direction) start
    Loop (near s c direction) start (limitOf extent) [start] [] outcome ∧
    (∀ failure, outcome = .error failure →
      ∃ n r, Walk around start n r ∧ around r = .error failure) ∧
    (∀ found, outcome = .ok found → BreadthFirst around start (limitOf extent) found ∧
      (s.Has start → BreadthFirst (near s c direction) start (limitOf extent) found)) ∧
    ∀ found, (exec (collect c direction start .all) s).1 = .ok found →
      outcome = .ok (found.take (limitOf extent)) := by
  intro outcome around
  have loops (extent : Extent) : Loop (near s c direction) start (limitOf extent) [start] []
      (exec (collect c direction start extent) s).1 := by
    rw [exec_collect]
    exact loop_reached extent
  have own : ∀ r ∈ [start], r = start ∨ (r.key == start.key) = false := fun r listed =>
    .inl (List.mem_singleton.mp listed)
  have answers (extent : Extent) := ((loops extent).fromStart own).answers
    (coherent_fromStart s c direction start) layer_start (Nat.zero_le _)
  refine ⟨loops extent, (answers extent).2, fun found answered => ?_, fun found complete => ?_⟩
  · have searched := (answers extent).1 found answered
    exact ⟨searched, fun stored => searched.congr (reaches_fromStart_iff stored)⟩
  · have fits : found.length ≤ 256 := ((answers .all).1 found complete).fits
    rw [exec_collect] at complete
    change (exec (collect c direction start extent) s).1 = _
    rw [exec_collect, reached_part complete]
    cases extent with
    | all => rw [Extent.part, limitOf_all, List.take_of_length_le fits]
    | upTo n => rw [Extent.part, limitOf_upTo, ← List.take_take, List.take_of_length_le fits]

end Traversal

/-- Two loans that renew each other, one that renews the second of them, and one that renews
itself. -/
def Store.renewals : Store where
  tables := [
    (.text "Loan", [
      (.text "first", [("renews", .text "second")]),
      (.text "second", [("renews", .text "first")]),
      (.text "third", [("renews", .text "second")]),
      (.text "fourth", [("renews", .text "fourth")])])]

namespace Traversal

/-- Renewals that lead in a circle are gone round once, and the start is not collected. -/
theorem collect_breadthFirst_renewals :
    let first : Record := ⟨.text "Loan", .text "first", [("renews", .text "second")]⟩
    let fourth : Record := ⟨.text "Loan", .text "fourth", [("renews", .text "fourth")]⟩
    (∃ found, (exec (collect .loans .down first .all) Store.renewals).1 = .ok found ∧
      found.map Record.id = [.text "second", .text "third"] ∧
      BreadthFirst (near Store.renewals .loans .down) first 256 found ∧
      (exec (collect .loans .down first (.upTo 1)) Store.renewals).1 = .ok (found.take 1)) ∧
    (exec (collect .loans .up fourth .all) Store.renewals).1 = .ok [] ∧
      BreadthFirst (near Store.renewals .loans .up) fourth 256 [] := by
  intro first fourth
  have answered : (exec (collect .loans .down first .all) Store.renewals).1 = .ok _ := rfl
  obtain ⟨-, -, searched, -⟩ := collect_breadthFirst .loans Store.renewals .down first .all
  obtain ⟨-, -, -, begins⟩ := collect_breadthFirst .loans Store.renewals .down first (.upTo 1)
  obtain ⟨-, -, alone, -⟩ := collect_breadthFirst .loans Store.renewals .up fourth .all
  refine ⟨⟨_, answered, rfl, (searched _ answered).2 rfl, begins _ answered⟩, rfl, ?_⟩
  exact (alone [] rfl).2 rfl

end Traversal

end RecordRules
