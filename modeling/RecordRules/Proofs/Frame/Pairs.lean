import Mathlib.Data.List.Forall2
import RecordRules.Proofs.Frame.Step
import RecordRules.State.Loading

/-!
Two operations side by side. Started in states that are related, they fail in the same way or give
answers that are related, and they leave states that are related again. Records that are related
have the same key, which is all that a traversal asks of what it found.
-/
namespace RecordRules

variable {σ τ α β α' β' : Type}

/-- Two outcomes that go together: answers that are related, or the same failure. -/
inductive Alike (Q : α → β → Prop) : Except Failure α → Except Failure β → Prop where
  | ok {x : α} {y : β} (related : Q x y) : Alike Q (.ok x) (.ok y)
  | error (failure : Failure) : Alike Q (.error failure) (.error failure)

namespace Alike

variable {Q : α → β → Prop} {Q' : α' → β' → Prop}

theorem eq {outcome other : Except Failure α} (alike : Alike Eq outcome other) :
    outcome = other := by
  cases alike with
  | ok same => rw [same]
  | error failure => rfl

theorem refl (outcome : Except Failure α) : Alike Eq outcome outcome := by
  cases outcome with
  | error failure => exact .error failure
  | ok x => exact .ok rfl

theorem bind {outcome : Except Failure α} {other : Except Failure β} {next : α → Except Failure α'}
    {later : β → Except Failure β'} (first : Alike Q outcome other)
    (rest : ∀ x y, Q x y → Alike Q' (next x) (later y)) :
    Alike Q' (outcome >>= next) (other >>= later) := by
  cases first with
  | error failure => exact .error failure
  | ok related => exact rest _ _ related

theorem mapM {xs : List α} {f : α → Except Failure α'} {g : α → Except Failure β'}
    (each : ∀ x ∈ xs, Alike Q' (f x) (g x)) :
    Alike (List.Forall₂ Q') (xs.mapM f) (xs.mapM g) := by
  induction xs with
  | nil => exact .ok .nil
  | cons x rest ih =>
    rw [List.mapM_cons, List.mapM_cons]
    refine (each x List.mem_cons_self).bind fun y z first => ?_
    have others := ih fun other later => each other (List.mem_cons_of_mem x later)
    exact others.bind fun _ _ others => .ok (.cons first others)

end Alike

namespace Step

variable {P : σ → τ → Prop} {Q : α → β → Prop} {Q' : α' → β' → Prop}

def Pairs (P : σ → τ → Prop) (Q : α → β → Prop) (step : Step σ α) (other : Step τ β) : Prop :=
  ∀ s t, P s t → Alike Q (exec step s).1 (exec other t).1 ∧ P (exec step s).2 (exec other t).2

theorem pairs_pure {x : α} {y : β} (related : Q x y) :
    Pairs P Q (pure x : Step σ α) (pure y : Step τ β) :=
  fun _ _ paired => ⟨.ok related, paired⟩

theorem pairs_throw (failure : Failure) :
    Pairs P Q (throw failure : Step σ α) (throw failure : Step τ β) :=
  fun _ _ paired => ⟨.error failure, paired⟩

theorem pairs_ofExcept {outcome : Except Failure α} {other : Except Failure β}
    (alike : Alike Q outcome other) :
    Pairs P Q (ofExcept outcome : Step σ α) (ofExcept other : Step τ β) :=
  fun _ _ paired => ⟨alike, paired⟩

theorem pairs_modify {f : σ → σ} {g : τ → τ} (each : ∀ s t, P s t → P (f s) (g t)) :
    Pairs P Eq (modify f : Step σ PUnit) (modify g : Step τ PUnit) :=
  fun s t paired => ⟨.ok rfl, each s t paired⟩

theorem pairs_attempt {step : Step σ α} {other : Step τ α} (pairs : Pairs P Eq step other) :
    Pairs P Eq (attempt step) (attempt other) := by
  intro s t paired
  obtain ⟨alike, after⟩ := pairs s t paired
  exact ⟨.ok alike.eq, after⟩

theorem pairs_bind {step : Step σ α} {other : Step τ β} {next : α → Step σ α'}
    {later : β → Step τ β'} (first : Pairs P Q step other)
    (rest : ∀ x y, Q x y → Pairs P Q' (next x) (later y)) :
    Pairs P Q' (step >>= next) (other >>= later) := by
  intro s t paired
  obtain ⟨alike, after⟩ := first s t paired
  rw [exec_bind, exec_bind]
  cases ran : exec step s with
  | mk outcome u =>
    cases beside : exec other t with
    | mk answer v =>
      rw [ran, beside] at alike after
      cases alike with
      | error failure => exact ⟨.error failure, after⟩
      | ok related => exact rest _ _ related u v after

/-- Where the first operations give the same answer, what follows need only go together for it. -/
theorem pairs_bind_eq {step : Step σ α} {other : Step τ α} {next : α → Step σ α'}
    {later : α → Step τ β'} (first : Pairs P Eq step other)
    (rest : ∀ x, Pairs P Q' (next x) (later x)) : Pairs P Q' (step >>= next) (other >>= later) :=
  pairs_bind first fun x _ same => same ▸ rest x

theorem pairs_get_bind {next : σ → Step σ α} {later : τ → Step τ β}
    (each : ∀ s t, P s t → Alike Q (exec (next s) s).1 (exec (later t) t).1 ∧
      P (exec (next s) s).2 (exec (later t) t).2) :
    Pairs P Q (get >>= next) (get >>= later) := by
  intro s t paired
  rw [exec_bind, exec_bind]
  exact each s t paired

theorem pairs_ite {condition : Prop} [Decidable condition] {yes no : Step σ α}
    {yes' no' : Step τ β} (hy : Pairs P Q yes yes') (hn : Pairs P Q no no') :
    Pairs P Q (if condition then yes else no) (if condition then yes' else no') := by
  split
  · exact hy
  · exact hn

theorem pairs_forM {step : α → Step σ PUnit} {other : α → Step τ PUnit}
    (each : ∀ x, Pairs P Eq (step x) (other x)) (xs : List α) :
    Pairs P Eq (xs.forM step) (xs.forM other) := by
  induction xs with
  | nil => exact pairs_pure rfl
  | cons x rest ih =>
    change Pairs P Eq (step x >>= fun _ => rest.forM step) (other x >>= fun _ => rest.forM other)
    exact pairs_bind_eq (each x) fun _ => ih

end Step

open Step

namespace Traversal

variable {Q : Record → Record → Prop} {P : σ → τ → Prop}

structure Front.Alike (Q : Record → Record → Prop) (front other : Front) : Prop where
  found : List.Forall₂ Q front.found other.found
  level : List.Forall₂ Q front.level other.level

section

variable (keys : ∀ r q, Q r q → r.key = q.key)

include keys

theorem any_key_congr {records others : List Record} (alike : List.Forall₂ Q records others)
    (key : Key × Key) :
    (records.any fun q => q.key == key) = others.any fun q => q.key == key := by
  induction alike with
  | nil => rfl
  | cons first _ ih => rw [List.any_cons, List.any_cons, ih, keys _ _ first]

variable {start start' : Record} (starts : Q start start') (limit : Nat)

include starts

theorem take_alike {records others : List Record} (alike : List.Forall₂ Q records others)
    {front front' : Front} (fronts : front.Alike Q front') :
    (take start limit records front).Alike Q (take start' limit others front') := by
  induction alike generalizing front front' with
  | nil => exact fronts
  | @cons r q rest rest' first others ih =>
    have known : front.knows start r = front'.knows start' q := by
      rw [Front.knows, Front.knows, any_key_congr keys fronts.found, keys _ _ first,
        keys _ _ starts]
    have grown : Front.Alike Q ⟨front.found ++ [r], front.level ++ [r]⟩
        ⟨front'.found ++ [q], front'.level ++ [q]⟩ :=
      ⟨List.rel_append fronts.found (.cons first .nil),
        List.rel_append fronts.level (.cons first .nil)⟩
    rw [take, take, known]
    dsimp only
    rw [grown.found.length_eq]
    split
    · exact ih fronts
    · split
      · exact grown
      · exact ih grown

variable {look : Record → Step σ (List Record)} {look' : Record → Step τ (List Record)}
  (each : ∀ r q, Q r q → Pairs P (List.Forall₂ Q) (look r) (look' q))

include each

theorem expand_pairs {level level' : List Record} (alike : List.Forall₂ Q level level')
    {front front' : Front} (fronts : front.Alike Q front') :
    Pairs P (Front.Alike Q) (expand look start limit level front)
      (expand look' start' limit level' front') := by
  induction alike generalizing front front' with
  | nil => exact pairs_pure fronts
  | cons first others ih =>
    refine pairs_bind (each _ _ first) fun seen seen' alike => ?_
    have grown := take_alike keys starts limit alike fronts
    dsimp only
    rw [grown.found.length_eq]
    exact pairs_ite (pairs_pure grown) (ih grown)

theorem levels_pairs (rounds : Nat) {level level' found found' : List Record}
    (levels_alike : List.Forall₂ Q level level') (alike : List.Forall₂ Q found found') :
    Pairs P (List.Forall₂ Q) (levels look start limit rounds level found)
      (levels look' start' limit rounds level' found') := by
  induction rounds generalizing level level' found found' with
  | zero => exact pairs_pure alike
  | succ rounds ih =>
    cases levels_alike with
    | nil => exact pairs_pure alike
    | cons first others =>
      rw [levels, levels, alike.length_eq]
      refine pairs_ite (pairs_pure alike) ?_
      exact pairs_bind (expand_pairs keys starts limit each (.cons first others) ⟨alike, .nil⟩)
        fun _ _ grown => ih grown.level grown.found

omit limit in
theorem reached_pairs (extent : Extent) :
    Pairs P (List.Forall₂ Q) (reached look start extent) (reached look' start' extent) :=
  pairs_ite (pairs_pure .nil) (levels_pairs keys starts _ each _ (.cons starts .nil) .nil)

end

end Traversal

end RecordRules
