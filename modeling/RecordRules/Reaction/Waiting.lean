import RecordRules.Event

/-!
The queue of a cascade: events that wait for their dispatch, each with its depth. Main statement:
taking the first event and letting what follows from it wait behind, one deeper, comes to an end
when nothing waits below a limit, however many events follow each time.
-/
namespace RecordRules

abbrev Waiting := List (Event × Nat)

namespace Waiting

def ofRoots (roots : List Event) : Waiting := roots.map fun event => (event, 0)

def behind (queue : Waiting) (depth : Nat) (events : List Event) : Waiting :=
  queue ++ events.map fun event => (event, depth + 1)

/-- How a queue goes on: the first event is taken, and at the limit nothing waits behind. -/
inductive Follows (limit : Nat) : Waiting → Waiting → Prop where
  | take {event : Event} {depth : Nat} {rest : Waiting} {events : List Event}
      (fits : events = [] ∨ depth + 1 ≤ limit) :
      Follows limit (rest.behind depth events) ((event, depth) :: rest)

/-- Whether an event waits so deep that less than so many levels are left from it on. -/
def isDeep (limit levels : Nat) (item : Event × Nat) : Bool := limit < item.2 + levels

theorem isDeep_behind {limit levels depth : Nat} {rest : Waiting} {events : List Event}
    (deep : limit < depth + 1 + levels) (all : ∀ item ∈ rest, isDeep limit levels item) :
    ∀ item ∈ rest.behind depth events, isDeep limit levels item := by
  intro item member
  rcases List.mem_append.mp member with waiting | behind
  · exact all item waiting
  · obtain ⟨event, _, rfl⟩ := List.mem_map.mp behind
    simpa [isDeep] using deep

theorem countP_behind {limit levels depth : Nat} {rest : Waiting} {events : List Event}
    (deep : limit < depth + 1 + levels) :
    (rest.behind depth events).countP (fun item => !isDeep limit levels item) =
      rest.countP fun item => !isDeep limit levels item := by
  have none : ((events.map fun event => (event, depth + 1)).countP
      fun item => !isDeep limit levels item) = 0 := by
    rw [List.countP_eq_zero]
    intro item member
    obtain ⟨event, _, rfl⟩ := List.mem_map.mp member
    simpa [isDeep] using deep
  rw [behind, List.countP_append, none, Nat.add_zero]

theorem takeWhile_behind {limit levels depth : Nat} {rest : Waiting} {events : List Event}
    (some : 0 < rest.countP fun item => !isDeep limit levels item) :
    (rest.behind depth events).takeWhile (isDeep limit levels) =
      rest.takeWhile (isDeep limit levels) := by
  obtain ⟨item, member, shallow⟩ := List.countP_pos_iff.mp some
  rw [behind, List.takeWhile_append, if_neg]
  intro whole
  rw [← (List.takeWhile_prefix (isDeep limit levels)).eq_of_length whole] at member
  have deep := List.all_eq_true.mp List.all_takeWhile item member
  simp [deep] at shallow

section

variable {limit levels : Nat}

/-- From a queue with events of one more level, the loop comes to queues without them: it takes
the deep events in front, and then the first of the others. -/
theorem acc_of_count
    (ended : ∀ queue : Waiting, (∀ item ∈ queue, isDeep limit levels item) →
      Acc (Follows limit) queue)
    (shallow front : Nat) (queue : Waiting)
    (all : ∀ item ∈ queue, isDeep limit (levels + 1) item)
    (count : queue.countP (fun item => !isDeep limit levels item) = shallow)
    (lead : (queue.takeWhile (isDeep limit levels)).length = front) :
    Acc (Follows limit) queue := by
  induction shallow generalizing front queue with
  | zero =>
    apply ended
    intro item member
    simpa using List.countP_eq_zero.mp count item member
  | succ shallow fewer =>
    induction front generalizing queue with
    | zero =>
      refine Acc.intro _ fun next step => ?_
      cases step with
      | @take event depth rest events fits =>
        have below : limit < depth + (levels + 1) := by
          simpa [isDeep] using all _ List.mem_cons_self
        have head : isDeep limit levels (event, depth) = false :=
          Bool.eq_false_iff.mpr fun deep => by simp [deep] at lead
        refine fewer _ _ (isDeep_behind (by omega) fun item member =>
          all item (List.mem_cons_of_mem _ member)) ?_ rfl
        rw [countP_behind (by omega)]
        simpa [head] using count
    | succ front nearer =>
      refine Acc.intro _ fun next step => ?_
      cases step with
      | @take event depth rest events fits =>
        have head : isDeep limit levels (event, depth) = true := by
          cases deep : isDeep limit levels (event, depth) with
          | true => rfl
          | false => simp [deep] at lead
        have below : limit < depth + levels := by simpa [isDeep] using head
        have waiting : rest.countP (fun item => !isDeep limit levels item) = shallow + 1 := by
          simpa [head] using count
        refine nearer _ (isDeep_behind (by omega) fun item member =>
          all item (List.mem_cons_of_mem _ member)) ?_ ?_
        · rw [countP_behind (by omega), waiting]
        · rw [takeWhile_behind (by omega)]
          simpa [head] using lead

theorem acc_of_isDeep (queue : Waiting) (all : ∀ item ∈ queue, isDeep limit levels item) :
    Acc (Follows limit) queue := by
  induction levels generalizing queue with
  | zero =>
    induction queue with
    | nil => exact Acc.intro _ fun _ step => by cases step
    | cons head rest ih =>
      refine Acc.intro _ fun next step => ?_
      cases step with
      | take fits =>
        have below := all _ List.mem_cons_self
        simp only [isDeep, Nat.add_zero, decide_eq_true_eq] at below
        obtain rfl : _ = [] := fits.resolve_right (by omega)
        simpa [behind] using ih fun item member => all item (List.mem_cons_of_mem _ member)
  | succ levels ih => exact acc_of_count ih _ _ queue all rfl rfl

end

theorem follows_wellFounded (limit : Nat) : WellFounded (Follows limit) := by
  refine ⟨fun queue => @acc_of_isDeep limit (limit + 1) queue fun item _ => ?_⟩
  simp only [isDeep, decide_eq_true_eq]
  omega

end Waiting

end RecordRules
