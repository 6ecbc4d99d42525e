import RecordRules.Proofs.CascadeLoop
import RecordRules.Proofs.Frame.Step

/-!
The order of a cascade: breadth first, the first events and then what follows from each dispatch in
turn. One invariant of the loop says this of the events that were dispatched together with those
that wait. Each dispatch gives its event the next number; an event that is dispatched again shows
the number of its last dispatch.
-/
namespace RecordRules

open Step

/-- The event without its related records and its place, which the cascade gives it. -/
def Event.bare (e : Event) : Event :=
  { e with ancestry := [], descendants := [], sequence := 0, identity := none }

theorem Course.revisit_bare (course : Course) (event : Event) :
    (course.revisit event).bare = event.bare := by
  obtain ⟨up, down, sequence, known⟩ := course.revisit_eq event
  rw [known]
  rfl

theorem Course.revisit_identity (course : Course) (event : Event) :
    (course.revisit event).identity = event.identity := by
  obtain ⟨up, down, sequence, known⟩ := course.revisit_eq event
  rw [known]
  rfl

namespace Engine

theorem hydrate_answers (e : Engine) (event : Event) :
    Answers (fun hydrated => ∃ up down, hydrated = event.withRelated up down)
      (e.hydrate event) := by
  refine answers_ite (answers_pure ⟨_, _, rfl⟩) (answers_ite (answers_pure ⟨_, _, rfl⟩) ?_)
  exact answers_bind fun _ => answers_bind fun _ => answers_pure ⟨_, _, rfl⟩

theorem dispatch_answers (e : Engine) (event : Event) :
    Answers (fun d => d.event = event) (e.dispatch event) :=
  answers_bind fun _ => answers_bind fun _ => answers_bind fun _ => answers_pure rfl

theorem dispatchLoaded_answers (e : Engine) (event : Event) :
    Answers (fun d => ∃ up down, d.event = event.withRelated up down) (e.dispatchLoaded event) := by
  refine answers_bind_of (answers_within (e.hydrate_answers _)) ?_
  rintro hydrated ⟨up, down, rfl⟩
  intro turn d after ran
  exact ⟨up, down, e.dispatch_answers _ turn d after ran⟩

end Engine

def followUpLevels (dispatched : List Dispatched) (levels : List Nat) : List Nat :=
  (dispatched.zip levels).flatMap fun (d, level) => List.replicate d.followUps.length (level + 1)

theorem followUpLevels_append {first later : List Dispatched} {levels more : List Nat}
    (length : first.length = levels.length) :
    followUpLevels (first ++ later) (levels ++ more) =
      followUpLevels first levels ++ followUpLevels later more := by
  rw [followUpLevels, List.zip_append length, List.flatMap_append]
  rfl

theorem followUpLevels_concat {dispatched : List Dispatched} {levels : List Nat}
    (length : dispatched.length = levels.length) (d : Dispatched) (level : Nat) :
    followUpLevels (dispatched ++ [d]) (levels ++ [level]) =
      followUpLevels dispatched levels ++ List.replicate d.followUps.length (level + 1) := by
  rw [followUpLevels_append length]
  exact congrArg _ (List.append_nil _)

/-- The levels of dispatched events and of those that wait: what follows from an event is one level
deeper, no level comes before a smaller one or lies below the limit, and no event that waits is
more than one level deeper than the next one. -/
structure Layered (limit roots : Nat) (dispatched : List Dispatched) (levels waiting : List Nat) :
    Prop where
  length : dispatched.length = levels.length
  deeper : levels ++ waiting = List.replicate roots 0 ++ followUpLevels dispatched levels
  sorted : (levels ++ waiting).Pairwise (· ≤ ·)
  bounded : ∀ level ∈ levels ++ waiting, level ≤ limit
  spread : ∀ level ∈ waiting.head?, ∀ other ∈ waiting, other ≤ level + 1

namespace Layered

variable {limit roots depth : Nat} {dispatched : List Dispatched} {levels waiting : List Nat}

theorem start (limit roots : Nat) : Layered limit roots [] [] (List.replicate roots 0) where
  length := rfl
  deeper := by simp [followUpLevels]
  sorted := List.pairwise_replicate.mpr (.inr (Nat.le_refl 0))
  bounded := by simp +contextual
  spread := by simp +contextual

theorem le_succ (layered : Layered limit roots dispatched levels (depth :: waiting)) :
    ∀ level ∈ levels ++ depth :: waiting, level ≤ depth + 1 := by
  intro level member
  rcases List.mem_append.mp member with before | waits
  · have := (List.pairwise_append.mp layered.sorted).2.2 level before depth List.mem_cons_self
    omega
  · exact layered.spread depth rfl level waits

theorem advance (layered : Layered limit roots dispatched levels (depth :: waiting))
    (d : Dispatched) (fits : d.followUps = [] ∨ depth < limit) :
    Layered limit roots (dispatched ++ [d]) (levels ++ [depth])
      (waiting ++ List.replicate d.followUps.length (depth + 1)) := by
  have behind : levels ++ [depth] ++ (waiting ++ List.replicate d.followUps.length (depth + 1)) =
      levels ++ depth :: waiting ++ List.replicate d.followUps.length (depth + 1) := by
    simp
  constructor
  case length => simp [layered.length]
  case deeper =>
    rw [behind, layered.deeper, followUpLevels_concat layered.length, List.append_assoc]
  case sorted =>
    rw [behind, List.pairwise_append]
    refine ⟨layered.sorted, List.pairwise_replicate.mpr (.inr (Nat.le_refl _)), ?_⟩
    intro level before last follows
    rw [List.eq_of_mem_replicate follows]
    exact layered.le_succ level before
  case bounded =>
    rw [behind]
    intro level member
    rcases List.mem_append.mp member with before | follows
    · exact layered.bounded level before
    · obtain ⟨some, rfl⟩ := List.mem_replicate.mp follows
      exact fits.resolve_left fun none => some (by rw [none]; rfl)
  case spread =>
    have within : ∀ level ∈ waiting ++ List.replicate d.followUps.length (depth + 1),
        depth ≤ level ∧ level ≤ depth + 1 := by
      intro level member
      rcases List.mem_append.mp member with waits | follows
      · have after := (List.pairwise_append.mp layered.sorted).2.1
        have behind := List.mem_append_right levels (List.mem_cons_of_mem depth waits)
        exact ⟨List.rel_of_pairwise_cons after waits, layered.le_succ level behind⟩
      · rw [List.eq_of_mem_replicate follows]
        exact ⟨Nat.le_succ depth, Nat.le_refl _⟩
    intro level head other member
    have lower := (within level (List.mem_of_mem_head? head)).1
    have upper := (within other member).2
    omega

end Layered

def Course.submitted (roots : List Event) (course : Course) : List Event :=
  roots ++ course.dispatched.flatMap Dispatched.followUps

structure Course.BreadthFirst (limit : Nat) (roots : List Event) (course : Course)
    (levels : List Nat) : Prop where
  order : (course.dispatched.map Dispatched.event ++ course.queue.map Prod.fst).map Event.bare =
    (course.submitted roots).map Event.bare
  waits : course.queue.map Prod.fst = (course.submitted roots).drop course.dispatched.length
  identity : course.dispatched.map (fun d => d.event.identity) =
    ((course.submitted roots).take course.dispatched.length).mapIdx fun n event =>
      some (event.idAt n)
  place : course.sequence = course.dispatched.length
  sequence : course.dispatched.map (fun d => d.event.sequence) =
    List.range course.dispatched.length
  layered : Layered limit roots.length course.dispatched levels (course.queue.map Prod.snd)
  deepest : course.maxDepth = levels.foldl max 0

namespace Waiting

theorem ofRoots_fst (roots : List Event) : (ofRoots roots).map Prod.fst = roots := by
  rw [ofRoots, List.map_map]
  exact List.map_id _

theorem ofRoots_snd (roots : List Event) :
    (ofRoots roots).map Prod.snd = List.replicate roots.length 0 := by
  rw [ofRoots, List.map_map]
  exact List.map_const'

theorem behind_fst (queue : Waiting) (depth : Nat) (events : List Event) :
    (queue.behind depth events).map Prod.fst = queue.map Prod.fst ++ events := by
  rw [behind, List.map_append, List.map_map]
  exact congrArg _ (List.map_id _)

theorem behind_snd (queue : Waiting) (depth : Nat) (events : List Event) :
    (queue.behind depth events).map Prod.snd =
      queue.map Prod.snd ++ List.replicate events.length (depth + 1) := by
  rw [behind, List.map_append, List.map_map]
  exact congrArg _ List.map_const'

end Waiting

namespace Course.BreadthFirst

variable {e : Engine} {limit : Nat} {roots : List Event} {course next : Course}
  {levels : List Nat}

theorem submitted_concat {turn : Turn} {queue : Waiting} {sequence maxDepth : Nat}
    (d : Dispatched) :
    Course.submitted roots
        ⟨turn, queue, sequence, course.dispatched ++ [d], maxDepth⟩ =
      course.submitted roots ++ d.followUps := by
  simp [submitted]

theorem start (limit : Nat) (s : Store) (roots : List Event) :
    (Course.start s roots).BreadthFirst limit roots [] where
  order := by
    rw [Course.start, Waiting.ofRoots_fst]
    exact congrArg _ (List.append_nil roots).symm
  waits := by
    rw [Course.start, Waiting.ofRoots_fst]
    exact (List.append_nil roots).symm
  identity := rfl
  place := rfl
  sequence := rfl
  layered := by
    rw [Course.start, Waiting.ofRoots_snd]
    exact .start limit roots.length
  deepest := rfl

theorem advance {event : Event} {depth : Nat} {rest : Waiting}
    (inv : course.BreadthFirst e.depthLimit roots levels)
    (waiting : course.queue = (event, depth) :: rest)
    (went : exec (e.advance event depth) { course with queue := rest } = (.ok (), next)) :
    next.BreadthFirst e.depthLimit roots (levels ++ [depth]) := by
  obtain ⟨d, turn, ran, fits, rfl⟩ := Engine.advance_ok went
  obtain ⟨up, down, dispatched⟩ := e.dispatchLoaded_answers _ _ _ _ ran
  obtain ⟨up', down', placed⟩ := course.place_eq event
  replace dispatched :
      d.event = ((event.withRelated up' down').numbered course.sequence).withRelated up down :=
    dispatched.trans (congrArg (Event.withRelated · up down) placed)
  have same : d.event.bare = event.bare := by
    rw [dispatched]
    rfl
  obtain ⟨order, waits, identity, place, sequence, layered, deepest⟩ := inv
  rw [waiting] at order waits layered
  have next : (course.submitted roots).drop course.dispatched.length =
      event :: rest.map Prod.fst := waits.symm
  have inside : course.dispatched.length < (course.submitted roots).length := by
    by_contra beyond
    rw [List.drop_of_length_le (Nat.le_of_not_lt beyond)] at next
    cases next
  constructor <;> dsimp only
  case order =>
    calc _ = (course.dispatched.map Dispatched.event ++
          event :: rest.map Prod.fst).map Event.bare ++ d.followUps.map Event.bare := by
          simp [Waiting.behind_fst, same]
      _ = (course.submitted roots).map Event.bare ++ d.followUps.map Event.bare :=
          congrArg (· ++ _) order
      _ = _ := by simp [submitted]
  case waits =>
    have later : (course.submitted roots).drop (course.dispatched.length + 1) =
        rest.map Prod.fst := by
      rw [← List.tail_drop, next]
      rfl
    rw [submitted_concat, Waiting.behind_fst, List.length_append, List.length_singleton,
      List.drop_append_of_le_length inside, later]
  case identity =>
    have taken : (course.submitted roots).take (course.dispatched.length + 1) =
        (course.submitted roots).take course.dispatched.length ++ [event] := by
      rw [List.take_add_one, ← List.head?_drop, next]
      rfl
    rw [submitted_concat, List.length_append, List.length_singleton,
      List.take_append_of_le_length inside, taken, List.mapIdx_append, List.map_append, identity,
      List.length_take_of_le (Nat.le_of_lt inside), ← place]
    simp [dispatched, Event.numbered, Event.withRelated, Event.idAt]
  case place => simp [place]
  case sequence =>
    have numbered : d.event.sequence = course.dispatched.length := by
      rw [dispatched, ← place]
      rfl
    simp [sequence, numbered, List.range_succ]
  case layered =>
    rw [Waiting.behind_snd]
    exact layered.advance d fits
  case deepest => simp [deepest]

theorem goes (inv : course.BreadthFirst e.depthLimit roots levels) (goes : e.Goes course next) :
    ∃ levels, next.BreadthFirst e.depthLimit roots levels := by
  obtain ⟨waiting, went⟩ := goes
  exact ⟨_, inv.advance waiting went⟩

theorem reaches {s : Store} (reached : e.Reaches s roots course) :
    ∃ levels, course.BreadthFirst e.depthLimit roots levels := by
  induction reached with
  | refl => exact ⟨[], start _ s roots⟩
  | tail _ last ih =>
    obtain ⟨levels, inv⟩ := ih
    exact inv.goes last

end Course.BreadthFirst

/-- An event shows the number of its last dispatch. -/
structure Cascade.ShowsLast (c : Cascade) (event : Event) : Prop where
  listed : ∃ twin, c.dispatched[event.sequence]? = some twin ∧ twin.event.identity = event.identity
  last : ∀ n twin, c.dispatched[n]? = some twin → twin.event.identity = event.identity →
    n ≤ event.sequence

/-- A cascade was breadth first under a depth limit, with its events on such levels: the first
events come first and then what followed from each event in turn, and an event is one level deeper
than the one that it followed from. Unless an event was dispatched twice, the events show the
numbers from zero on. -/
structure Cascade.BreadthFirst (limit : Nat) (roots : List Event) (c : Cascade)
    (levels : List Nat) : Prop where
  order : (c.dispatched.map Dispatched.event).map Event.bare =
    (roots ++ c.dispatched.flatMap Dispatched.followUps).map Event.bare
  identity : c.dispatched.map (fun d => d.event.identity) =
    (roots ++ c.dispatched.flatMap Dispatched.followUps).mapIdx fun n event => some (event.idAt n)
  last : ∀ d ∈ c.dispatched, c.ShowsLast d.event
  sequence : (c.dispatched.map fun d => d.event.identity).Nodup →
    c.dispatched.map (fun d => d.event.sequence) = List.range c.dispatched.length
  length : c.dispatched.length = levels.length
  deeper : levels = List.replicate roots.length 0 ++ followUpLevels c.dispatched levels
  sorted : levels.Pairwise (· ≤ ·)
  bounded : ∀ level ∈ levels, level ≤ limit
  deepest : c.maxDepth = levels.foldl max 0

namespace Cascade.BreadthFirst

variable {limit : Nat} {roots : List Event} {c : Cascade} {levels others : List Nat}

end Cascade.BreadthFirst

theorem Cascade.sequence_of_once {c : Cascade} (last : ∀ d ∈ c.dispatched, c.ShowsLast d.event)
    (once : (c.dispatched.map fun d => d.event.identity).Nodup) :
    c.dispatched.map (fun d => d.event.sequence) = List.range c.dispatched.length := by
  refine List.ext_getElem (by simp) fun n bound _ => ?_
  rw [List.length_map] at bound
  rw [List.getElem_map, List.getElem_range]
  obtain ⟨⟨twin, listed, same⟩, -⟩ := last c.dispatched[n] (List.getElem_mem bound)
  refine ((List.getElem?_inj (by simpa using bound) once).mp ?_).symm
  rw [List.getElem?_map, List.getElem?_map, listed, List.getElem?_eq_getElem bound]
  exact congrArg some same.symm

theorem Course.cascade_followUps (course : Course) :
    course.cascade.dispatched.flatMap Dispatched.followUps =
      course.dispatched.flatMap Dispatched.followUps := by
  rw [cascade, List.flatMap_map]
  rfl

theorem Course.cascade_matched (course : Course) :
    course.cascade.matched = course.dispatched.flatMap Dispatched.matched := by
  rw [Cascade.matched, cascade, List.flatMap_map]
  rfl

namespace Course.BreadthFirst

variable {limit : Nat} {roots : List Event} {course : Course} {levels : List Nat}

theorem sequence_eq (inv : course.BreadthFirst limit roots levels) {n : Nat} {d : Dispatched}
    (listed : course.dispatched[n]? = some d) : d.event.sequence = n := by
  have numbers := congrArg (fun places => places[n]?) inv.sequence
  obtain ⟨bound, rfl⟩ := List.getElem?_eq_some_iff.mp listed
  simpa [bound] using numbers

theorem identity_isSome (inv : course.BreadthFirst limit roots levels) {d : Dispatched}
    (listed : d ∈ course.dispatched) : d.event.identity.isSome = true := by
  have known : d.event.identity ∈ course.dispatched.map fun d => d.event.identity :=
    List.mem_map_of_mem listed
  rw [inv.identity] at known
  obtain ⟨n, bound, same⟩ := List.mem_mapIdx.mp known
  rw [← same]
  rfl

theorem revisit (inv : course.BreadthFirst limit roots levels) {d : Dispatched}
    (listed : d ∈ course.dispatched) :
    ∃ twin ∈ course.dispatched, twin.event.identity = d.event.identity ∧
      (course.revisit d.event).sequence = twin.event.sequence ∧
      ∀ other ∈ course.dispatched, other.event.identity = d.event.identity →
        other.event.sequence ≤ twin.event.sequence := by
  have same (other : Dispatched) :
      other.event.isSame d.event = true ↔ other.event.identity = d.event.identity := by
    rw [Event.isSame, Bool.and_eq_true, beq_iff_eq]
    refine ⟨And.right, fun equal => ⟨?_, equal⟩⟩
    rw [equal]
    exact inv.identity_isSome listed
  -- Dispatches stand in the order of their numbers, so the last one of the event has the largest.
  have ordered : course.dispatched.Pairwise fun a b => a.event.sequence < b.event.sequence := by
    rw [← List.pairwise_map, inv.sequence]
    exact List.pairwise_lt_range
  have kept := ordered.sublist (List.filter_sublist (p := fun other => other.event.isSame d.event))
  have member {other : Dispatched} :
      other ∈ course.dispatched.filter (fun other => other.event.isSame d.event) ↔
        other ∈ course.dispatched ∧ other.event.identity = d.event.identity := by
    rw [List.mem_filter, same]
  unfold Course.revisit
  cases last : (course.dispatched.filter fun other => other.event.isSame d.event).getLast? with
  | none =>
    have own := member.mpr ⟨listed, rfl⟩
    rw [List.getLast?_eq_none_iff.mp last] at own
    cases own
  | some twin =>
    obtain ⟨before, split⟩ := List.getLast?_eq_some_iff.mp last
    rw [split] at kept member
    obtain ⟨among, equal⟩ := member.mp (List.mem_append_right before (List.mem_singleton_self twin))
    refine ⟨twin, among, equal, rfl, fun other there alike => ?_⟩
    rcases List.mem_append.mp (member.mpr ⟨there, alike⟩) with earlier | final
    · exact Nat.le_of_lt ((List.pairwise_append.mp kept).2.2 other earlier twin
        (List.mem_singleton_self twin))
    · rw [List.mem_singleton.mp final]

theorem showsLast (inv : course.BreadthFirst limit roots levels) {d : Dispatched}
    (listed : d ∈ course.cascade.dispatched) : course.cascade.ShowsLast d.event := by
  obtain ⟨d, inside, rfl⟩ := List.mem_map.mp listed
  obtain ⟨twin, among, same, shown, last⟩ := inv.revisit inside
  have named : (course.revisit d.event).identity = d.event.identity := course.revisit_identity _
  change course.cascade.ShowsLast (course.revisit d.event)
  constructor
  case listed =>
    obtain ⟨n, found⟩ := List.mem_iff_getElem?.mp among
    refine ⟨course.report twin, ?_, ?_⟩
    · rw [shown, inv.sequence_eq found, cascade, List.getElem?_map, found]
      rfl
    · exact (course.revisit_identity twin.event).trans (same.trans named.symm)
  case last =>
    intro n other there alike
    rw [cascade, List.getElem?_map] at there
    obtain ⟨source, found, rfl⟩ := Option.map_eq_some_iff.mp there
    have equal : source.event.identity = d.event.identity :=
      (course.revisit_identity source.event).symm.trans (alike.trans named)
    have earlier := last source (List.mem_of_getElem? found) equal
    rwa [inv.sequence_eq found, ← shown] at earlier

end Course.BreadthFirst

theorem Course.BreadthFirst.cascade {limit : Nat} {roots : List Event} {course : Course}
    {levels : List Nat} (inv : course.BreadthFirst limit roots levels)
    (empty : course.queue = []) : course.cascade.BreadthFirst limit roots levels := by
  have last : ∀ d ∈ course.cascade.dispatched, course.cascade.ShowsLast d.event :=
    fun d listed => inv.showsLast listed
  obtain ⟨order, waits, identity, place, sequence, layered, deepest⟩ := inv
  rw [empty] at order waits layered
  obtain ⟨length, deeper, sorted, bounded, -⟩ := layered
  rw [List.map_nil, List.append_nil] at order deeper sorted bounded
  have followed := course.cascade_followUps
  have whole : (course.submitted roots).take course.dispatched.length = course.submitted roots :=
    List.take_of_length_le (List.drop_eq_nil_iff.mp waits.symm)
  rw [whole] at identity
  constructor
  case order =>
    rw [followed]
    exact Eq.trans (by simp [Course.cascade, Course.report, course.revisit_bare]) order
  case identity =>
    rw [followed]
    exact Eq.trans (by simp [Course.cascade, Course.report, course.revisit_identity]) identity
  case last => exact last
  case sequence => exact Cascade.sequence_of_once last
  case length => exact (List.length_map _).trans length
  case deeper =>
    rw [Course.cascade, followUpLevels, List.zip_map_left, List.flatMap_map]
    exact deeper
  case sorted => exact sorted
  case bounded => exact bounded
  case deepest => exact deepest

namespace Engine

variable {e : Engine} {s : Store} {roots : List Event}

end Engine

end RecordRules
