import Mathlib.Order.RelClasses
import RecordRules.Step

/-!
Frames of operations: a relation that holds between the state before an operation and the state
after it, whether it fails or not. A preorder on states is a frame of a sequence of operations when
it is one of each of them.
-/
namespace RecordRules.Step

variable {σ τ α β : Type} {R : σ → σ → Prop}

theorem bind_ends {P : Except Failure β × σ → Prop} {step : Step σ α} {next : α → Step σ β} {s : σ}
    (failed : ∀ failure t, exec step s = (.error failure, t) → P (.error failure, t))
    (went : ∀ x t, exec step s = (.ok x, t) → P (exec (next x) t)) :
    P (exec (step >>= next) s) := by
  rw [exec_bind]
  cases ran : exec step s with
  | mk outcome t =>
    cases outcome with
    | error failure => exact failed failure t ran
    | ok x => exact went x t ran

/-- Wherever an operation starts, it leaves a state that is related to the one before. -/
def Moves (R : σ → σ → Prop) (step : Step σ α) : Prop := ∀ s, R s (exec step s).2

theorem moves_modify {f : σ → σ} (h : ∀ s, R s (f s)) : Moves R (modify f : Step σ PUnit) := h

theorem moves_within {part : σ → τ} {update : σ → τ → σ} {Q : τ → τ → Prop} {step : Step τ α}
    (law : ∀ s t, part (update s t) = t) (h : Moves Q step) :
    Moves (Order.Preimage part Q) (within part update step) := by
  intro s
  simpa only [exec_within, Order.Preimage, law] using h (part s)

theorem moves_attempt {step : Step σ α} (h : Moves R step) : Moves R (attempt step) := h

theorem moves_ite {condition : Prop} [Decidable condition] {yes no : Step σ α}
    (hy : Moves R yes) (hn : Moves R no) : Moves R (if condition then yes else no) := by
  split
  · exact hy
  · exact hn

theorem moves_get_bind {next : σ → Step σ β} (h : ∀ s, R s (exec (next s) s).2) :
    Moves R (get >>= next) := by
  intro s
  rw [exec_bind]
  exact h s

variable [IsPreorder σ R]

theorem moves_pure (x : α) : Moves R (pure x : Step σ α) := fun s => refl s

theorem moves_throw (failure : Failure) : Moves R (throw failure : Step σ α) := fun s => refl s

theorem moves_get : Moves R (get : Step σ σ) := fun s => refl s

theorem moves_ofExcept (outcome : Except Failure α) : Moves R (ofExcept outcome : Step σ α) :=
  fun s => refl s

theorem moves_bind {step : Step σ α} {next : α → Step σ β} (first : Moves R step)
    (later : ∀ x, Moves R (next x)) : Moves R (step >>= next) := by
  intro s
  rw [exec_bind]
  have before := first s
  cases ran : exec step s with
  | mk outcome t =>
    rw [ran] at before
    cases outcome with
    | error failure => exact before
    | ok x => exact IsTrans.trans _ _ _ before (later x t)

theorem moves_ofExcept_bind {outcome : Except Failure α} {next : α → Step σ β}
    (later : ∀ x, outcome = .ok x → Moves R (next x)) : Moves R (ofExcept outcome >>= next) := by
  intro s
  rw [exec_bind, exec_ofExcept]
  cases outcome with
  | error failure => exact refl s
  | ok x => exact later x rfl s

theorem moves_forM {step : α → Step σ PUnit} (h : ∀ x, Moves R (step x)) (xs : List α) :
    Moves R (xs.forM step) := by
  induction xs with
  | nil => exact moves_pure _
  | cons x rest ih =>
    change Moves R (step x >>= fun _ => rest.forM step)
    exact moves_bind (h x) fun _ => ih

/-- What holds in the earlier state holds in the later one. -/
def Stays (I : σ → Prop) (s t : σ) : Prop := I s → I t

instance (I : σ → Prop) : IsPreorder σ (Stays I) where
  refl _ := id
  trans _ _ _ first later := later ∘ first

def Leads (I J : σ → Prop) (step : Step σ α) : Prop := ∀ s, I s → J (exec step s).2

section

variable {I J K : σ → Prop}

theorem leads_bind {step : Step σ α} {next : α → Step σ β} (weaker : ∀ s, J s → K s)
    (first : Leads I J step) (later : ∀ x, Leads J K (next x)) : Leads I K (step >>= next) := by
  intro s holds
  have before := first s holds
  refine bind_ends (P := fun ended => K ended.2) (fun failure t ran => ?_) fun x t ran => ?_
  · rw [ran] at before
    exact weaker t before
  · rw [ran] at before
    exact later x t before

theorem leads_ofExcept_bind {outcome : Except Failure α} {next : α → Step σ β}
    (weaker : ∀ s, I s → K s) (later : ∀ x, outcome = .ok x → Leads I K (next x)) :
    Leads I K (ofExcept outcome >>= next) := by
  intro s holds
  rw [exec_bind, exec_ofExcept]
  cases outcome with
  | error failure => exact weaker s holds
  | ok x => exact later x rfl s holds

end

section

variable {P : α → Prop} {Q : β → Prop}

def Answers (P : α → Prop) (step : Step σ α) : Prop :=
  ∀ s x t, exec step s = (.ok x, t) → P x

theorem answers_pure {x : α} (h : P x) : Answers P (pure x : Step σ α) := by
  intro s y t ran
  cases ran
  exact h

theorem answers_within {part : σ → τ} {update : σ → τ → σ} {step : Step τ α} (h : Answers P step) :
    Answers P (within part update step) := by
  intro s x t ran
  refine h (part s) x (exec step (part s)).2 (Prod.ext ?_ rfl)
  exact (Prod.mk.inj ran).1

theorem answers_attempt {step : Step σ α} (h : Answers P step) :
    Answers (fun outcome => ∀ x, outcome = .ok x → P x) (attempt step) := by
  intro s outcome t ran x answered
  obtain ⟨same, -⟩ := Prod.mk.inj ran
  refine h s x (exec step s).2 (Prod.ext ?_ rfl)
  exact (Except.ok.inj same).trans answered

theorem answers_ite {condition : Prop} [Decidable condition] {yes no : Step σ α}
    (hy : Answers P yes) (hn : Answers P no) : Answers P (if condition then yes else no) := by
  split
  · exact hy
  · exact hn

theorem answers_bind_of {step : Step σ α} {next : α → Step σ β} (first : Answers P step)
    (later : ∀ x, P x → Answers Q (next x)) : Answers Q (step >>= next) := by
  intro s y u ran
  rw [exec_bind] at ran
  cases before : exec step s with
  | mk outcome t =>
    rw [before] at ran
    cases outcome with
    | error failure => cases ran
    | ok x => exact later x (first s x t before) t y u ran

theorem answers_bind {step : Step σ α} {next : α → Step σ β} (later : ∀ x, Answers Q (next x)) :
    Answers Q (step >>= next) :=
  answers_bind_of (P := fun _ => True) (fun _ _ _ _ => trivial) fun x _ => later x

variable {I : σ → Prop} {Fault : Failure → Prop}

/-- From every state of a kind, an operation leaves one of the kind, and how it fails and what it
answers is of a kind too. -/
def Safe (I : σ → Prop) (Fault : Failure → Prop) (P : α → Prop) (step : Step σ α) : Prop :=
  ∀ s, I s → I (exec step s).2 ∧ (∀ failure, (exec step s).1 = .error failure → Fault failure) ∧
    ∀ x, (exec step s).1 = .ok x → P x

theorem safe_pure {x : α} (h : P x) : Safe I Fault P (pure x : Step σ α) := by
  refine fun s holds => ⟨holds, fun _ failed => (by cases failed), fun y answered => ?_⟩
  rwa [← Except.ok.inj answered]

theorem safe_bind {step : Step σ α} {next : α → Step σ β} (first : Safe I Fault P step)
    (later : ∀ x, P x → Safe I Fault Q (next x)) : Safe I Fault Q (step >>= next) := by
  intro s holds
  obtain ⟨stays, faults, answers⟩ := first s holds
  refine bind_ends (P := fun ended => I ended.2 ∧ (∀ failure, ended.1 = .error failure →
    Fault failure) ∧ ∀ x, ended.1 = .ok x → Q x) (fun failure t ran => ?_) fun x t ran => ?_
  · rw [ran] at stays faults
    refine ⟨stays, fun other failed => ?_, fun y answered => by cases answered⟩
    exact faults other (congrArg _ (Except.error.inj failed))
  · rw [ran] at stays answers
    exact later x (answers x rfl) t stays

end

end RecordRules.Step
