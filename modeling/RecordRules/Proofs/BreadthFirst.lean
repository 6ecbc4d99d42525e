import RecordRules.Proofs.Traversal

/-!
Breadth-first search, whatever a look-up finds for a record. Walks go from a start along look-ups,
and the distance of a record is the length of the shortest walk to its key. The search is a loop
that goes on until nothing new is found or enough is. Main statement: as long as records with the
same key lead on to the same keys, the loop finds records in the order of their distances, each one
once, and all of them unless it stops because it has found enough.
-/
namespace RecordRules

namespace Traversal

variable {look : Record → Except Failure (List Record)} {start : Record} {limit : Nat}

section

variable (look : Record → Except Failure (List Record)) (start : Record)

/-- Walks of so many steps from the start, each to one of the records that a look-up finds. -/
inductive Walk : Nat → Record → Prop where
  | start : Walk 0 start
  | step {n : Nat} {q r : Record} {near : List Record} (walk : Walk n q)
      (looked : look q = .ok near) (listed : r ∈ near) : Walk (n + 1) r

def Reaches (n : Nat) (key : RecordKey) : Prop := ∃ r, Walk look start n r ∧ (r.key == key) = true

def Distance (n : Nat) (key : RecordKey) : Prop :=
  Reaches look start n key ∧ ∀ m, Reaches look start m key → n ≤ m

/-- Where walks along two kinds of look-ups end at the same key, all keys that the first kind leads
on to are led on to by the second kind. -/
def Follows (other : Record → Except Failure (List Record)) : Prop :=
  ∀ m n q r, Walk look start m q → Walk other start n r → (q.key == r.key) = true →
    ∀ near, look q = .ok near → ∃ others, other r = .ok others ∧
      ∀ p ∈ near, ∃ twin ∈ others, (twin.key == p.key) = true

def Coherent : Prop := Follows look start look

/-- Under the key of the start, it is looked from the start as it was given. -/
def standIn (r : Record) : Record := if r.key == start.key then start else r

def fromStart (r : Record) : Except Failure (List Record) := look (standIn start r)

end

def Known (start : Record) (found : List Record) (key : RecordKey) : Prop :=
  (start.key == key) = true ∨ ∃ q ∈ found, (q.key == key) = true

theorem Known.congr {found : List Record} {key other : RecordKey} (known : Known start found key)
    (same : (key == other) = true) : Known start found other := by
  rcases known with first | ⟨q, listed, equal⟩
  · exact .inl (PartialEquivBEq.trans first same)
  · exact .inr ⟨q, listed, PartialEquivBEq.trans equal same⟩

theorem Known.append {found : List Record} {key : RecordKey} (known : Known start found key)
    (added : List Record) : Known start (found ++ added) key := by
  rcases known with first | ⟨q, listed, equal⟩
  · exact .inl first
  · exact .inr ⟨q, List.mem_append_left added listed, equal⟩

theorem Known.of_mem {found : List Record} {r : Record} (listed : r ∈ found) :
    Known start found r.key := .inr ⟨r, listed, BEq.rfl⟩

theorem Front.knows_iff {front : Front} {r : Record} :
    front.knows start r = true ↔ Known start front.found r.key := by
  rw [Front.knows, Bool.or_eq_true, List.any_eq_true, Known, BEq.comm]

/-- What is added to the records found: offered ones that were not known, each key once. Nothing
that is offered is left out while there is room. -/
structure Gathers (start : Record) (limit : Nat) (found : List Record) (offered : Record → Prop)
    (added : List Record) : Prop where
  among : ∀ r ∈ added, offered r
  fresh : ∀ r ∈ added, ¬ Known start found r.key
  apart : added.Pairwise fun q r => (q.key == r.key) = false
  fits : (found ++ added).length ≤ limit
  whole : (found ++ added).length < limit → ∀ r, offered r → Known start (found ++ added) r.key

namespace Gathers

variable {found added more : List Record} {offered others : Record → Prop}

theorem nil (room : found.length < limit) (none : ∀ r, ¬ offered r) :
    Gathers start limit found offered [] where
  among _ listed := absurd listed List.not_mem_nil
  fresh _ listed := absurd listed List.not_mem_nil
  apart := .nil
  fits := by
    rw [List.append_nil]
    exact Nat.le_of_lt room
  whole _ r isOffered := absurd isOffered (none r)

theorem skip {r : Record} (known : Known start found r.key)
    (gathers : Gathers start limit found offered added) :
    Gathers start limit found (fun q => q = r ∨ offered q) added where
  among q listed := .inr (gathers.among q listed)
  fresh := gathers.fresh
  apart := gathers.apart
  fits := gathers.fits
  whole room q isOffered := by
    rcases isOffered with same | other
    · rw [same]
      exact known.append added
    · exact gathers.whole room q other

theorem single {r : Record} (room : found.length < limit) (fresh : ¬ Known start found r.key) :
    Gathers start limit found (· = r) [r] where
  among _ listed := List.mem_singleton.mp listed
  fresh q listed := by
    rw [List.mem_singleton.mp listed]
    exact fresh
  apart := List.pairwise_singleton _ r
  fits := by
    rw [List.length_append, List.length_singleton]
    exact room
  whole _ q same := by
    rw [same]
    exact .of_mem (List.mem_append_right found (List.mem_singleton_self r))

theorem append (first : Gathers start limit found offered added)
    (later : Gathers start limit (found ++ added) others more) :
    Gathers start limit found (fun r => offered r ∨ others r) (added ++ more) where
  among r listed := by
    rcases List.mem_append.mp listed with early | late
    · exact .inl (first.among r early)
    · exact .inr (later.among r late)
  fresh r listed := by
    rcases List.mem_append.mp listed with early | late
    · exact first.fresh r early
    · exact fun known => later.fresh r late (known.append added)
  apart := by
    refine List.pairwise_append.mpr ⟨first.apart, later.apart, ?_⟩
    intro q early r late
    rw [← Bool.not_eq_true]
    intro same
    have known : Known start (found ++ added) q.key :=
      .of_mem (List.mem_append_right found early)
    exact later.fresh r late (known.congr same)
  fits := by
    rw [← List.append_assoc]
    exact later.fits
  whole room r isOffered := by
    rw [← List.append_assoc] at room ⊢
    rcases isOffered with early | late
    · have before : (found ++ added).length < limit := by
        rw [List.length_append] at room
        omega
      exact (first.whole before r early).append more
    · exact later.whole room r late

theorem congr (gathers : Gathers start limit found offered added)
    (same : ∀ r, offered r ↔ others r) : Gathers start limit found others added where
  among r listed := (same r).mp (gathers.among r listed)
  fresh := gathers.fresh
  apart := gathers.apart
  fits := gathers.fits
  whole room r isOffered := gathers.whole room r ((same r).mpr isOffered)

theorem full (gathers : Gathers start limit found offered added)
    (enough : limit ≤ (found ++ added).length) (more : ∀ r, offered r → others r) :
    Gathers start limit found others added where
  among r listed := more r (gathers.among r listed)
  fresh := gathers.fresh
  apart := gathers.apart
  fits := gathers.fits
  whole room := absurd room (Nat.not_lt.mpr enough)

end Gathers

theorem take_gathers (records : List Record) (front : Front) (room : front.found.length < limit) :
    ∃ added, take start limit records front = front.add added ∧
      Gathers start limit front.found (· ∈ records) added := by
  induction records generalizing front with
  | nil =>
    exact ⟨[], by simp [take, Front.add], .nil room fun r => List.not_mem_nil⟩
  | cons r rest ih =>
    rw [take_cons]
    by_cases known : front.knows start r = true
    · rw [if_pos known]
      obtain ⟨added, took, gathers⟩ := ih front room
      have both := gathers.skip (Front.knows_iff.mp known)
      exact ⟨added, took, both.congr fun q => List.mem_cons.symm⟩
    · rw [if_neg known]
      have first : Gathers start limit front.found (· = r) [r] :=
        .single room fun seen => known (Front.knows_iff.mpr seen)
      have size : (front.found ++ [r]).length = front.found.length + 1 := by
        rw [List.length_append, List.length_singleton]
      by_cases enough : limit ≤ front.found.length + 1
      · rw [if_pos enough]
        exact ⟨[r], rfl, first.full (by omega) fun q same => List.mem_cons.mpr (.inl same)⟩
      · rw [if_neg enough]
        obtain ⟨added, took, gathers⟩ := ih (front.add [r]) (by
          change (front.found ++ [r]).length < limit
          omega)
        have both := first.append gathers
        exact ⟨[r] ++ added, by rw [took, Front.add_add], both.congr fun q => List.mem_cons.symm⟩

def Offers (look : Record → Except Failure (List Record)) (level : List Record) (r : Record) :
    Prop :=
  ∃ q ∈ level, ∃ near, look q = .ok near ∧ r ∈ near

theorem offers_cons {r : Record} {rest near : List Record} (looked : look r = .ok near)
    (q : Record) : (q ∈ near ∨ Offers look rest q) ↔ Offers look (r :: rest) q := by
  simp [Offers, looked]

theorem expand_gathers {level : List Record} {front grown : Front}
    (room : front.found.length < limit)
    (ran : expand look start limit level front = .ok grown) :
    ∃ added, grown = front.add added ∧
      Gathers start limit front.found (Offers look level) added := by
  induction level generalizing front with
  | nil =>
    obtain rfl : front = grown := Except.ok.inj ran
    have none (r : Record) : ¬ Offers look [] r := by
      rintro ⟨q, listed, -⟩
      cases listed
    exact ⟨[], by simp [Front.add], .nil room none⟩
  | cons r rest ih =>
    obtain ⟨near, looked, went⟩ := expand_cons_ok.mp ran
    obtain ⟨first, took, gathers⟩ := take_gathers near front room
    rw [took] at went
    split at went
    · rename_i enough
      refine ⟨first, went.symm, gathers.full enough fun q listed => ?_⟩
      exact (offers_cons looked q).mp (.inl listed)
    · rename_i space
      obtain ⟨later, grew, more⟩ := ih (Nat.lt_of_not_le space) went
      refine ⟨first ++ later, by rw [grew, Front.add_add], ?_⟩
      exact (gathers.append more).congr (offers_cons looked)

theorem expand_error {level : List Record} {front : Front} {failure : Failure}
    (ran : expand look start limit level front = .error failure) :
    ∃ q ∈ level, look q = .error failure := by
  induction level generalizing front with
  | nil => cases ran
  | cons r rest ih =>
    rw [expand] at ran
    cases looked : look r with
    | error problem =>
      rw [looked] at ran
      obtain rfl : problem = failure := Except.error.inj ran
      exact ⟨r, List.mem_cons_self, looked⟩
    | ok near =>
      rw [looked] at ran
      change (if limit ≤ _ then _ else _) = _ at ran
      split at ran
      · cases ran
      · obtain ⟨q, listed, failed⟩ := ih ran
        exact ⟨q, List.mem_cons_of_mem r listed, failed⟩

/-- The loop itself, without a bound on its rounds: it ends when a level is empty or enough is
found, or by a look-up that fails. -/
inductive Loop (look : Record → Except Failure (List Record)) (start : Record) (limit : Nat) :
    List Record → List Record → Except Failure (List Record) → Prop where
  | done {level found : List Record} (ended : level = [] ∨ limit ≤ found.length) :
      Loop look start limit level found (.ok found)
  | failed {level found : List Record} {failure : Failure} (more : level ≠ [])
      (room : found.length < limit)
      (looked : expand look start limit level ⟨found, []⟩ = .error failure) :
      Loop look start limit level found (.error failure)
  | round {level found : List Record} {front : Front} {outcome : Except Failure (List Record)}
      (more : level ≠ []) (room : found.length < limit)
      (looked : expand look start limit level ⟨found, []⟩ = .ok front)
      (later : Loop look start limit front.level front.found outcome) :
      Loop look start limit level found outcome

theorem loop_levels {rounds : Nat} {level found : List Record}
    (enough : Enough limit rounds level found) :
    Loop look start limit level found (levels look start limit rounds level found) := by
  induction rounds generalizing level found with
  | zero =>
    cases level with
    | nil => exact .done (.inl rfl)
    | cons r rest =>
      have more := enough (List.cons_ne_nil r rest)
      exact .done (.inr (by omega))
  | succ rounds ih =>
    cases level with
    | nil => exact .done (.inl rfl)
    | cons r rest =>
      by_cases ended : limit ≤ found.length
      · rw [levels_of_full ended]
        exact .done (.inr ended)
      · have room : found.length < limit := Nat.lt_of_not_le ended
        have news := List.cons_ne_nil r rest
        rw [levels, if_neg ended]
        cases ran : expand look start limit (r :: rest) ⟨found, []⟩ with
        | error failure => exact .failed news room ran
        | ok front =>
          obtain ⟨added, rfl⟩ := expand_adds ran
          exact .round news room ran (ih (enough.next news))

section

variable {m n d : Nat} {key other : RecordKey} {q r : Record} {level found added near : List Record}

theorem reaches_start : Reaches look start 0 start.key := ⟨start, .start, BEq.rfl⟩

theorem Reaches.eq_start (reaches : Reaches look start 0 key) : (start.key == key) = true := by
  obtain ⟨r, walk, same⟩ := reaches
  cases walk
  exact same

theorem Reaches.congr (reaches : Reaches look start n key) (same : (key == other) = true) :
    Reaches look start n other := by
  obtain ⟨r, walk, equal⟩ := reaches
  exact ⟨r, walk, PartialEquivBEq.trans equal same⟩

theorem exists_distance (reaches : Reaches look start n key) :
    ∃ d ≤ n, Distance look start d key := by
  induction n using Nat.strongRecOn with
  | ind n ih =>
    by_cases shorter : ∃ m < n, Reaches look start m key
    · obtain ⟨m, less, sooner⟩ := shorter
      obtain ⟨d, le, distance⟩ := ih m less sooner
      exact ⟨d, Nat.le_of_lt (Nat.lt_of_le_of_lt le less), distance⟩
    · refine ⟨n, Nat.le_refl n, reaches, ?_⟩
      intro m other
      apply Nat.le_of_not_lt
      intro less
      exact shorter ⟨m, less, other⟩

theorem Follows.step {others : Record → Except Failure (List Record)}
    (follows : Follows look start others) (walk : Walk look start n q) (looked : look q = .ok near)
    (listed : r ∈ near) (reaches : Reaches others start m q.key) :
    Reaches others start (m + 1) r.key := by
  obtain ⟨twin, also, same⟩ := reaches
  obtain ⟨found, answered, each⟩ := follows n m q twin walk also (BEq.symm same) near looked
  obtain ⟨next, present, equal⟩ := each r listed
  exact ⟨next, .step also answered present, equal⟩

theorem Follows.reaches {others : Record → Except Failure (List Record)}
    (follows : Follows look start others) (reaches : Reaches look start n key) :
    Reaches others start n key := by
  obtain ⟨r, walk, same⟩ := reaches
  suffices h : Reaches others start n r.key from h.congr same
  clear same
  induction walk with
  | start => exact reaches_start
  | step walk looked listed ih => exact follows.step walk looked listed ih

variable (look start) in
structure Ordered (found : List Record) : Prop where
  apart : found.Pairwise fun q r => (q.key == r.key) = false
  fresh : ∀ r ∈ found, (r.key == start.key) = false
  reached : ∀ r ∈ found, ∃ n, Reaches look start n r.key
  sorted : found.Pairwise fun q r => ∀ m n, Distance look start m q.key →
    Distance look start n r.key → m ≤ n

variable (look start) in
/-- Where the loop stands before each round: the level has all records at a distance, and what is
known are all records up to this distance. -/
structure Layer (d : Nat) (level found : List Record) : Prop extends Ordered look start found where
  walks : ∀ r ∈ level, Walk look start d r
  all : ∀ key, Distance look start d key → ∃ r ∈ level, (r.key == key) = true
  near : ∀ r ∈ found, ∃ n ≤ d, Reaches look start n r.key
  known : ∀ n ≤ d, ∀ key, Reaches look start n key → Known start found key

theorem layer_start : Layer look start 0 [start] [] where
  apart := .nil
  fresh _ listed := absurd listed List.not_mem_nil
  reached _ listed := absurd listed List.not_mem_nil
  sorted := .nil
  walks r listed := by
    rw [List.mem_singleton.mp listed]
    exact .start
  all _ distance := ⟨start, List.mem_singleton_self start, distance.1.eq_start⟩
  near _ listed := absurd listed List.not_mem_nil
  known n le key reaches := by
    obtain rfl : n = 0 := Nat.le_zero.mp le
    exact .inl reaches.eq_start

namespace Layer

variable (layer : Layer look start d level found)

include layer

theorem reaches_of_known (known : Known start found key) : ∃ n ≤ d, Reaches look start n key := by
  rcases known with first | ⟨q, listed, same⟩
  · exact ⟨0, Nat.zero_le d, reaches_start.congr first⟩
  · obtain ⟨n, le, reaches⟩ := layer.near q listed
    exact ⟨n, le, reaches.congr same⟩

theorem distance_of_offers (offers : Offers look level r) (unknown : ¬ Known start found r.key) :
    Walk look start (d + 1) r ∧ Distance look start (d + 1) r.key := by
  obtain ⟨q, listed, near, looked, inside⟩ := offers
  have walk : Walk look start (d + 1) r := .step (layer.walks q listed) looked inside
  refine ⟨walk, ⟨r, walk, BEq.rfl⟩, ?_⟩
  intro n reaches
  apply Nat.lt_of_not_le
  intro le
  exact unknown (layer.known n le r.key reaches)

theorem known_or_offers (coherent : Coherent look start) (walk : Walk look start n q)
    (looked : look q = .ok near) (listed : r ∈ near) (reaches : Reaches look start m q.key)
    (le : m ≤ d) :
    Known start found r.key ∨ ∃ twin, Offers look level twin ∧ (twin.key == r.key) = true := by
  obtain ⟨e, less, distance⟩ := exists_distance reaches
  rcases Nat.lt_or_eq_of_le (Nat.le_trans less le) with before | rfl
  · exact .inl (layer.known (e + 1) before r.key (coherent.step walk looked listed distance.1))
  · obtain ⟨twin, among, same⟩ := layer.all q.key distance
    obtain ⟨others, found, each⟩ := coherent n e q twin walk (layer.walks twin among)
      (BEq.symm same) near looked
    obtain ⟨next, present, equal⟩ := each r listed
    exact .inr ⟨next, ⟨twin, among, others, found, present⟩, equal⟩

variable (gathers : Gathers start limit found (Offers look level) added)

include gathers

theorem ordered_append : Ordered look start (found ++ added) where
  apart := by
    refine List.pairwise_append.mpr ⟨layer.apart, gathers.apart, ?_⟩
    intro q early r late
    rw [← Bool.not_eq_true]
    intro same
    exact gathers.fresh r late ((Known.of_mem early).congr same)
  fresh r listed := by
    rcases List.mem_append.mp listed with early | late
    · exact layer.fresh r early
    · rw [← Bool.not_eq_true]
      intro same
      exact gathers.fresh r late (.inl (BEq.symm same))
  reached r listed := by
    rcases List.mem_append.mp listed with early | late
    · exact layer.reached r early
    · obtain ⟨-, distance⟩ :=
        layer.distance_of_offers (gathers.among r late) (gathers.fresh r late)
      exact ⟨_, distance.1⟩
  sorted := by
    have later (r : Record) (late : r ∈ added) : Distance look start (d + 1) r.key :=
      (layer.distance_of_offers (gathers.among r late) (gathers.fresh r late)).2
    refine List.pairwise_append.mpr ⟨layer.sorted, ?_, fun q early r late m n hq hr => ?_⟩
    · apply List.pairwise_of_forall_mem_list
      intro q first r second m n hq hr
      have least := hq.2 (d + 1) (later q first).1
      have most := (later r second).2 n hr.1
      omega
    · obtain ⟨e, le, reaches⟩ := layer.near q early
      have least := hq.2 e reaches
      have most := (later r late).2 n hr.1
      omega

theorem next (coherent : Coherent look start) (room : (found ++ added).length < limit) :
    Layer look start (d + 1) added (found ++ added) := by
  have known (n : Nat) (le : n ≤ d + 1) (key : RecordKey) (reaches : Reaches look start n key) :
      Known start (found ++ added) key := by
    obtain ⟨r, walk, same⟩ := reaches
    cases walk with
    | start => exact .inl same
    | @step n q _ near walk looked listed =>
      have within : n ≤ d := Nat.le_of_succ_le_succ le
      rcases layer.known_or_offers coherent walk looked listed ⟨q, walk, BEq.rfl⟩ within with
        before | ⟨twin, offers, equal⟩
      · exact (before.append added).congr same
      · exact ((gathers.whole room twin offers).congr equal).congr same
  refine { layer.ordered_append gathers with walks := ?_, all := ?_, near := ?_, known := known }
  · intro r listed
    exact (layer.distance_of_offers (gathers.among r listed) (gathers.fresh r listed)).1
  · intro key distance
    rcases known (d + 1) (Nat.le_refl _) key distance.1 with first | ⟨r, listed, same⟩
    · have none := distance.2 0 (reaches_start.congr first)
      omega
    · rcases List.mem_append.mp listed with early | late
      · obtain ⟨n, le, reaches⟩ := layer.near r early
        have further := distance.2 n (reaches.congr same)
        omega
      · exact ⟨r, late, same⟩
  · intro r listed
    rcases List.mem_append.mp listed with early | late
    · obtain ⟨n, le, reaches⟩ := layer.near r early
      exact ⟨n, Nat.le_succ_of_le le, reaches⟩
    · obtain ⟨-, distance⟩ :=
        layer.distance_of_offers (gathers.among r late) (gathers.fresh r late)
      exact ⟨d + 1, Nat.le_refl _, distance.1⟩

end Layer

theorem Layer.exhausted (layer : Layer look start d [] found) (coherent : Coherent look start)
    (walk : Walk look start n r) : Known start found r.key := by
  induction walk with
  | start => exact .inl BEq.rfl
  | @step n q r near walk looked listed ih =>
    obtain ⟨m, le, reaches⟩ := layer.reaches_of_known ih
    rcases layer.known_or_offers coherent walk looked listed reaches le with
      known | ⟨twin, ⟨q, absent, -⟩, -⟩
    · exact known
    · cases absent

end

variable (look start limit) in
/-- What a breadth-first search answers: records in order of distance, not more than the limit, and
all that can be reached if they are fewer. -/
structure BreadthFirst (found : List Record) : Prop extends Ordered look start found where
  fits : found.length ≤ limit
  whole : found.length < limit → ∀ n key, Reaches look start n key → Known start found key

theorem Loop.eq_of_full {level found : List Record} {outcome : Except Failure (List Record)}
    (loop : Loop look start limit level found outcome) (enough : limit ≤ found.length) :
    outcome = .ok found := by
  cases loop with
  | done => rfl
  | failed _ room => exact absurd enough (Nat.not_le.mpr room)
  | round _ room => exact absurd enough (Nat.not_le.mpr room)

theorem Loop.answers (coherent : Coherent look start) {level found : List Record}
    {outcome : Except Failure (List Record)} (loop : Loop look start limit level found outcome)
    {d : Nat} (layer : Layer look start d level found) (fits : found.length ≤ limit) :
    (∀ xs, outcome = .ok xs → BreadthFirst look start limit xs) ∧
      ∀ failure, outcome = .error failure →
        ∃ n q, Walk look start n q ∧ look q = .error failure := by
  induction loop generalizing d with
  | @done level found ended =>
    refine ⟨fun xs answered => ?_, fun failure failed => by cases failed⟩
    obtain rfl : found = xs := Except.ok.inj answered
    refine { layer.toOrdered with fits := fits, whole := fun room n key reaches => ?_ }
    rcases ended with rfl | enough
    · obtain ⟨r, walk, same⟩ := reaches
      exact (layer.exhausted coherent walk).congr same
    · exact absurd room (Nat.not_lt.mpr enough)
  | failed more room looked =>
    refine ⟨fun xs answered => (by cases answered), fun failure failed => ?_⟩
    obtain rfl := Except.error.inj failed
    obtain ⟨q, listed, failing⟩ := expand_error looked
    exact ⟨d, q, layer.walks q listed, failing⟩
  | @round level found front outcome more room looked later ih =>
    obtain ⟨added, rfl, gathers⟩ := expand_gathers room looked
    by_cases space : (found ++ added).length < limit
    · exact ih (layer.next gathers coherent space) gathers.fits
    · have enough : limit ≤ (found ++ added).length := Nat.le_of_not_lt space
      rw [later.eq_of_full enough]
      refine ⟨fun xs answered => ?_, fun failure failed => by cases failed⟩
      obtain rfl := Except.ok.inj answered
      refine { layer.ordered_append gathers with fits := gathers.fits, whole := fun room => ?_ }
      exact absurd room space

theorem Distance.iff {other : Record → Except Failure (List Record)}
    (same : ∀ n key, Reaches look start n key ↔ Reaches other start n key) (n : Nat)
    (key : RecordKey) : Distance look start n key ↔ Distance other start n key := by
  unfold Distance
  rw [same n key]
  exact and_congr_right fun _ => forall_congr' fun m => imp_congr (same m key) Iff.rfl

theorem BreadthFirst.congr {other : Record → Except Failure (List Record)} {found : List Record}
    (answers : BreadthFirst look start limit found)
    (same : ∀ n key, Reaches look start n key ↔ Reaches other start n key) :
    BreadthFirst other start limit found where
  apart := answers.apart
  fresh := answers.fresh
  reached r listed := by
    obtain ⟨n, reaches⟩ := answers.reached r listed
    exact ⟨n, (same n r.key).mp reaches⟩
  sorted := answers.sorted.imp fun before m n hq hr =>
    before m n ((Distance.iff same m _).mpr hq) ((Distance.iff same n _).mpr hr)
  fits := answers.fits
  whole room n key reaches := answers.whole room n key ((same n key).mpr reaches)

theorem fromStart_of_own {r : Record} (own : r = start ∨ (r.key == start.key) = false) :
    fromStart look start r = look r := by
  unfold fromStart standIn
  split
  · rename_i same
    rcases own with rfl | other
    · rfl
    · rw [same] at other
      cases other
  · rfl

theorem key_standIn (r : Record) : ((standIn start r).key == r.key) = true := by
  unfold standIn
  split
  · rename_i same
    exact BEq.symm same
  · exact BEq.rfl

theorem expand_fromStart {level : List Record}
    (own : ∀ r ∈ level, r = start ∨ (r.key == start.key) = false) (front : Front) :
    expand (fromStart look start) start limit level front =
      expand look start limit level front := by
  induction level generalizing front with
  | nil => rfl
  | cons r rest ih =>
    rw [List.forall_mem_cons] at own
    rw [expand, expand, fromStart_of_own own.1]
    simp only [ih own.2]

theorem Loop.fromStart {level found : List Record} {outcome : Except Failure (List Record)}
    (loop : Loop look start limit level found outcome)
    (own : ∀ r ∈ level, r = start ∨ (r.key == start.key) = false) :
    Loop (fromStart look start) start limit level found outcome := by
  induction loop with
  | done ended => exact .done ended
  | failed more room looked => exact .failed more room (by rwa [expand_fromStart own])
  | @round level found front outcome more room looked later ih =>
    refine .round more room (by rwa [expand_fromStart own]) (ih fun r listed => .inr ?_)
    obtain ⟨added, rfl, gathers⟩ := expand_gathers room looked
    rw [← Bool.not_eq_true]
    intro same
    exact gathers.fresh r listed (.inl (BEq.symm same))

theorem loop_reached (extent : Extent) :
    Loop look start (limitOf extent) [start] [] (reached look start extent) := by
  rw [reached]
  split
  · rename_i none
    cases extent with
    | all => cases none
    | upTo n =>
      obtain rfl : n = 0 := eq_of_beq none
      exact .done (.inr (Nat.zero_le 0))
  · exact loop_levels fun _ => Nat.lt_succ_self _

end Traversal

end RecordRules
