import RecordRules.Failure

/-!
Operations on a state that may fail. A failure keeps the state that was reached, so that what an
operation undoes when it fails is always said by the operation itself.
-/
namespace RecordRules

theorem bind_eq_ok {ε α β : Type} {outcome : Except ε α} {next : α → Except ε β} {answer : β} :
    outcome >>= next = .ok answer ↔ ∃ x, outcome = .ok x ∧ next x = .ok answer := by
  cases outcome with
  | error failure => simp [bind, Except.bind]
  | ok x => simp [bind, Except.bind]

theorem exists_of_isOk {α : Type} {outcome : Except Failure α} (ok : outcome.isOk = true) :
    ∃ x, outcome = .ok x := by
  cases outcome with
  | error failure => cases ok
  | ok x => exact ⟨x, rfl⟩

section

variable {α β : Type} {f : α → Except Failure β} {xs : List α} {ys : List β}

theorem exists_of_mem_mapM (ran : xs.mapM f = .ok ys) {y : β} (member : y ∈ ys) :
    ∃ x ∈ xs, f x = .ok y := by
  induction xs generalizing ys with
  | nil =>
    obtain rfl := Except.ok.inj ran
    cases member
  | cons x rest ih =>
    rw [List.mapM_cons] at ran
    obtain ⟨first, answered, ran⟩ := bind_eq_ok.mp ran
    obtain ⟨others, later, ran⟩ := bind_eq_ok.mp ran
    obtain rfl := Except.ok.inj ran
    rcases List.mem_cons.mp member with rfl | member
    · exact ⟨x, List.mem_cons_self, answered⟩
    · obtain ⟨x, inside, given⟩ := ih later member
      exact ⟨x, List.mem_cons_of_mem _ inside, given⟩

theorem exists_mem_of_mapM (ran : xs.mapM f = .ok ys) {x : α} (member : x ∈ xs) :
    ∃ y ∈ ys, f x = .ok y := by
  induction xs generalizing ys with
  | nil => cases member
  | cons first rest ih =>
    rw [List.mapM_cons] at ran
    obtain ⟨y, answered, ran⟩ := bind_eq_ok.mp ran
    obtain ⟨others, later, ran⟩ := bind_eq_ok.mp ran
    obtain rfl := Except.ok.inj ran
    rcases List.mem_cons.mp member with rfl | member
    · exact ⟨y, List.mem_cons_self, answered⟩
    · obtain ⟨z, inside, given⟩ := ih later member
      exact ⟨z, List.mem_cons_of_mem _ inside, given⟩

theorem mapM_eq_map {g : α → β} (each : ∀ x ∈ xs, f x = .ok (g x)) :
    xs.mapM f = .ok (xs.map g) := by
  induction xs with
  | nil => rfl
  | cons x rest ih =>
    have others := ih fun other later => each other (List.mem_cons_of_mem x later)
    rw [List.mapM_cons, each x List.mem_cons_self, others]
    rfl

theorem exists_mapM_eq_ok (each : ∀ x ∈ xs, ∃ y, f x = .ok y) : ∃ ys, xs.mapM f = .ok ys := by
  induction xs with
  | nil => exact ⟨[], rfl⟩
  | cons x rest ih =>
    obtain ⟨y, answered⟩ := each x List.mem_cons_self
    obtain ⟨ys, later⟩ := ih fun other listed => each other (List.mem_cons_of_mem x listed)
    refine ⟨y :: ys, ?_⟩
    rw [List.mapM_cons, answered, later]
    rfl

theorem forM_eq_ok {check : α → Except Failure Unit} :
    xs.forM check = .ok () ↔ ∀ x ∈ xs, check x = .ok () := by
  induction xs with
  | nil => exact ⟨fun _ _ none => (List.not_mem_nil none).elim, fun _ => rfl⟩
  | cons x rest ih =>
    change (check x >>= fun _ => rest.forM check) = .ok () ↔ _
    rw [bind_eq_ok, List.forall_mem_cons, ← ih]
    constructor
    · rintro ⟨_, first, later⟩
      exact ⟨first, later⟩
    · rintro ⟨first, later⟩
      exact ⟨_, first, later⟩

end

abbrev Step (σ α : Type) := ExceptT Failure (StateM σ) α

namespace Step

variable {σ τ α β : Type}

def exec (step : Step σ α) (state : σ) : Except Failure α × σ := StateT.run (ExceptT.run step) state

def of (step : σ → Except Failure α × σ) : Step σ α := ExceptT.mk step

def ofExcept (outcome : Except Failure α) : Step σ α := ExceptT.mk (pure outcome)

def within (part : σ → τ) (update : σ → τ → σ) (step : Step τ α) : Step σ α :=
  of fun state =>
    let (outcome, changed) := exec step (part state)
    (outcome, update state changed)

/-- The outcome of an operation as a value, so that a failure goes no further. -/
def attempt (step : Step σ α) : Step σ (Except Failure α) :=
  of fun state =>
    let (outcome, changed) := exec step state
    (.ok outcome, changed)

@[simp] theorem exec_of (step : σ → Except Failure α × σ) (s : σ) : exec (of step) s = step s := rfl

@[simp] theorem exec_ofExcept (outcome : Except Failure α) (s : σ) :
    exec (ofExcept outcome) s = (outcome, s) := rfl

@[simp] theorem exec_within (part : σ → τ) (update : σ → τ → σ) (step : Step τ α) (s : σ) :
    exec (within part update step) s =
      ((exec step (part s)).1, update s (exec step (part s)).2) := rfl

@[simp] theorem exec_attempt (step : Step σ α) (s : σ) :
    exec (attempt step) s = (.ok (exec step s).1, (exec step s).2) := rfl

@[simp] theorem exec_pure (x : α) (s : σ) : exec (pure x : Step σ α) s = (.ok x, s) := rfl

@[simp] theorem exec_throw (failure : Failure) (s : σ) :
    exec (throw failure : Step σ α) s = (.error failure, s) := rfl

@[simp] theorem exec_get (s : σ) : exec (get : Step σ σ) s = (.ok s, s) := rfl

@[simp] theorem exec_set (t s : σ) : exec (set t : Step σ PUnit) s = (.ok ⟨⟩, t) := rfl

@[simp] theorem exec_modify (f : σ → σ) (s : σ) :
    exec (modify f : Step σ PUnit) s = (.ok ⟨⟩, f s) := rfl

theorem exec_bind (step : Step σ α) (next : α → Step σ β) (s : σ) :
    exec (step >>= next) s = match exec step s with
      | (.ok x, t) => exec (next x) t
      | (.error failure, t) => (.error failure, t) := by
  simp only [exec, ExceptT.run_bind, StateT.run_bind]
  generalize StateT.run (ExceptT.run step) s = result
  obtain ⟨outcome | outcome, t⟩ := result <;> rfl

theorem exists_exec_of_isOk {step : Step σ α} {s : σ} (ok : (exec step s).1.isOk = true) :
    ∃ x t, exec step s = (.ok x, t) := by
  obtain ⟨x, ran⟩ := exists_of_isOk ok
  exact ⟨x, _, Prod.ext ran rfl⟩

theorem exec_bind_eq_ok {step : Step σ α} {next : α → Step σ β} {s u : σ} {y : β} :
    exec (step >>= next) s = (.ok y, u) ↔
      ∃ x t, exec step s = (.ok x, t) ∧ exec (next x) t = (.ok y, u) := by
  rw [exec_bind]
  cases ran : exec step s with
  | mk outcome t =>
    cases outcome with
    | error failure => simp
    | ok x =>
      constructor
      · exact fun later => ⟨x, t, rfl, later⟩
      · rintro ⟨x, t, ⟨⟩, later⟩
        exact later

theorem exec_ofExcept_bind_eq_ok {outcome : Except Failure α} {next : α → Step σ β} {s t : σ}
    {y : β} :
    exec (ofExcept outcome >>= next) s = (.ok y, t) ↔
      ∃ x, outcome = .ok x ∧ exec (next x) s = (.ok y, t) := by
  rw [exec_bind, exec_ofExcept]
  cases outcome with
  | error failure => simp
  | ok x => simp

end Step

end RecordRules
