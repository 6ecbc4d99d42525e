import Mathlib.Data.List.Pairwise
import RecordRules.Proofs.AgreeingRules
import RecordRules.Proofs.AskedFields
import RecordRules.Proofs.RelatedRecords

/-!
Rules that keep out of each other's way: no two of them name the same field for records of one
schema, and none names the id or a reference. What they ask of the stored records is then known
before the first of them acts, since no write changes which records the others find or which values
they set. Main statement: a dispatch that succeeds meets what its rules ask, and does nothing else.
-/
namespace RecordRules

open Step

namespace Step

variable {σ α : Type} {I : List α → σ → Prop} {s : σ}

theorem forM_ok {step : α → Step σ Unit} {xs : List α} {t : σ}
    (each : ∀ before x later s t, xs = before ++ x :: later → I before s →
      exec (step x) s = (.ok (), t) → I (before ++ [x]) t)
    (start : I [] s) (ran : exec (xs.forM step) s = (.ok (), t)) : I xs t := by
  induction xs generalizing s I with
  | nil =>
    obtain ⟨-, rfl⟩ := Prod.mk.inj ran
    exact start
  | cons x rest ih =>
    obtain ⟨_, after, first, later⟩ := exec_bind_eq_ok.mp ran
    refine ih (I := fun done => I (x :: done)) (fun before y more s t split => ?_)
      (each [] x rest s after rfl start first) later
    exact each (x :: before) y more s t (congrArg _ split)

/-- All items are done if each one is, given what holds after those before it. -/
theorem exists_forM (step : α → Step σ Unit) (xs : List α)
    (each : ∀ before x later s, xs = before ++ x :: later → I before s →
      ∃ t, exec (step x) s = (.ok (), t) ∧ I (before ++ [x]) t)
    (start : I [] s) : ∃ t, exec (xs.forM step) s = (.ok (), t) ∧ I xs t := by
  induction xs generalizing s I with
  | nil => exact ⟨s, rfl, start⟩
  | cons x rest ih =>
    obtain ⟨after, first, holds⟩ := each [] x rest s rfl start
    obtain ⟨t, later, done⟩ := ih (I := fun done => I (x :: done))
      (fun before y more s split => each (x :: before) y more s (congrArg _ split)) holds
    exact ⟨t, exec_bind_eq_ok.mpr ⟨(), after, first, later⟩, done⟩

end Step

theorem Store.isSome_row?_of_related {s : Store} {c : Catalog} {r target : Record} {scope : Scope}
    {only : Value} {targets : List Record} (found : s.relatedTo c r scope only = .ok targets)
    (listed : target ∈ targets) : (s.row? target.schema target.id).isSome = true := by
  cases scope with
  | self =>
    obtain rfl := Except.ok.inj found
    obtain ⟨data, stored, rfl⟩ := Option.map_eq_some_iff.mp (Option.mem_toList.mp listed)
    rw [stored]
    rfl
  | parent =>
    rw [show s.row? target.schema target.id = _ from has_of_parent found listed]
    rfl
  | child =>
    obtain rfl := Except.ok.inj found
    obtain ⟨edge, -, refers⟩ := List.mem_flatMap.mp listed
    obtain ⟨⟨id, data⟩, inside, rfl⟩ := List.mem_map.mp (List.mem_filter.mp refers).1
    exact Keyed.isSome_find?_of_mem inside BEq.rfl

def Reaction.Names (r : Reaction) (field : String) : Prop :=
  ∃ assignments operand, r.action = .set assignments ∧ (field, operand) ∈ assignments

theorem Reaction.Names.eq_of_set {r : Reaction} {field name : String} {operand : Operand}
    (names : r.Names field) (sets : r.action = .set [(name, operand)]) : field = name := by
  obtain ⟨assignments, given, also, inside⟩ := names
  obtain rfl := Action.set.inj (sets.symm.trans also)
  exact (Prod.mk.inj (List.mem_singleton.mp inside)).1

/-- Two reactions do not name the same field for records of one schema. -/
def Reaction.Apart (c : Catalog) (r q : Reaction) : Prop :=
  ∀ field schema, r.Names field → q.Names field →
    ¬ (RuleBook.MayTarget c r schema ∧ RuleBook.MayTarget c q schema)

instance (c : Catalog) : Std.Symm (Reaction.Apart c) where
  symm _ _ apart field schema also names may := apart field schema names also may.symm

/-- Rules that set fields, no two of them the same field of records of one schema, and none the id
or a reference. -/
structure Independent (c : Catalog) (rules : List Reaction) : Prop where
  sets : ∀ r ∈ rules, ∃ assignments, r.action = .set assignments
  apart : rules.Pairwise (Reaction.Apart c)
  proper : ∀ r ∈ rules, ¬ r.Names "id"
  spares : ∀ r ∈ rules, ∀ key schema, RuleBook.MayTarget c r key →
    c.get? key = some schema → ∀ f ∈ schema.referFields, ¬ r.Names f.name

theorem Independent.perm {c : Catalog} {rules others : List Reaction}
    (independent : Independent c rules) (reordered : others.Perm rules) :
    Independent c others where
  sets r listed := independent.sets r (reordered.mem_iff.mp listed)
  apart := (reordered.pairwise_iff fun apart => symm_of (Reaction.Apart c) apart).mpr
    independent.apart
  proper r listed := independent.proper r (reordered.mem_iff.mp listed)
  spares r listed := independent.spares r (reordered.mem_iff.mp listed)

theorem Coherent.of_subset {demands all : List Demand} (coherent : Coherent all)
    (within : ∀ d ∈ demands, d ∈ all) : Coherent demands := by
  rintro key field v w ⟨d, listed, own, inside⟩ ⟨d', listed', own', inside'⟩
  exact coherent key field v w ⟨d, within d listed, own, inside⟩
    ⟨d', within d' listed', own', inside'⟩

theorem Coherent.left {demands more : List Demand} (coherent : Coherent (demands ++ more)) :
    Coherent demands :=
  coherent.of_subset fun _ => List.mem_append_left more

section

variable {α : Type} {before later : List α} {x : α}

theorem Coherent.upTo {done : List Demand} {f : α → Demand}
    (coherent : Coherent (done ++ (before ++ x :: later).map f)) :
    Coherent (done ++ before.map f ++ [f x]) := by
  rw [List.map_append, List.map_cons, ← List.append_assoc, List.append_cons] at coherent
  exact coherent.left

theorem Coherent.upTo_flatMap {f : α → List Demand}
    (coherent : Coherent ((before ++ x :: later).flatMap f)) :
    Coherent (before.flatMap f ++ f x) := by
  rw [List.flatMap_append, List.flatMap_cons, ← List.append_assoc] at coherent
  exact coherent.left

end

namespace Engine

variable {e : Engine} {event : Event} {s : Store} {r q : Reaction} {d : Demand}

def demand (e : Engine) (event : Event) (assignments : List (String × Operand)) (key : RecordKey) :
    Demand where
  key
  updates := ((e.catalog.get? key.1).map fun schema =>
    updatesFor schema assignments (Scene.ofEvent event)).getD []

def targetKeys (e : Engine) (event : Event) (s : Store) (r : Reaction) :
    Except Failure (List RecordKey) :=
  (s.relatedTo e.catalog event.object r.scope
    (if r.scope = .self then .null else r.targetSchema)).map (List.map Record.key)

def demands (e : Engine) (event : Event) (s : Store) (r : Reaction) : List Demand :=
  match r.action, e.targetKeys event s r with
  | .set assignments, .ok keys => keys.map (e.demand event assignments)
  | _, _ => []

def Answers (e : Engine) (event : Event) (s : Store) (r : Reaction) : Prop :=
  ∃ keys, e.targetKeys event s r = .ok keys ∧ ∀ key ∈ keys, (e.catalog.get? key.1).isSome = true

theorem targetKeys_eq_ok {keys : List RecordKey} :
    e.targetKeys event s r = .ok keys ↔ ∃ targets, s.relatedTo e.catalog event.object r.scope
      (if r.scope = .self then .null else r.targetSchema) = .ok targets ∧
        targets.map Record.key = keys := by
  rw [targetKeys]
  cases s.relatedTo e.catalog event.object r.scope
      (if r.scope = .self then .null else r.targetSchema) with
  | error failure => exact ⟨nofun, nofun⟩
  | ok targets => simp [Except.map]

theorem targetKeys_congr (registered : e.catalog.Registered) {t : Store}
    (links : s.SameLinks e.catalog t) : e.targetKeys event s r = e.targetKeys event t r :=
  links.relatedTo_keys registered _ _ _

theorem demand_congr {assignments : List (String × Operand)} {key other : RecordKey}
    (same : (key == other) = true) :
    (e.demand event assignments key).updates = (e.demand event assignments other).updates := by
  rw [demand, demand, Catalog.get?, Catalog.get?,
    Keyed.find?_congr (Bool.and_eq_true_iff.mp same).1]

theorem nodup_demand (assignments : List (String × Operand)) (key : RecordKey) :
    (e.demand event assignments key).updates.names.Nodup := by
  rw [demand]
  cases e.catalog.get? key.1 with
  | none => exact .nil
  | some schema => exact updatesFor_nodup schema assignments _

theorem exists_of_mem_demands (listed : d ∈ e.demands event s r) :
    ∃ assignments targets target, r.action = .set assignments ∧
      s.relatedTo e.catalog event.object r.scope
        (if r.scope = .self then .null else r.targetSchema) = .ok targets ∧
      target ∈ targets ∧ d = e.demand event assignments target.key := by
  unfold demands at listed
  split at listed
  · rename_i assignments keys sets keyed
    obtain ⟨targets, found, rfl⟩ := targetKeys_eq_ok.mp keyed
    obtain ⟨key, inside, rfl⟩ := List.mem_map.mp listed
    obtain ⟨target, among, rfl⟩ := List.mem_map.mp inside
    exact ⟨assignments, targets, target, sets, found, among, rfl⟩
  · cases listed

section

variable (listed : d ∈ e.demands event s r) {field : String} {v : Value}
  (inside : (field, v) ∈ d.updates)

include listed inside

theorem assigns_or_resolved_of_mem_demands :
    r.Assigns field v ∨ r.Names field ∧ ∃ p : Path, p.resolve (Scene.ofEvent event) = some v := by
  obtain ⟨assignments, targets, target, sets, -, -, rfl⟩ := exists_of_mem_demands listed
  rw [demand] at inside
  dsimp only at inside
  cases known : e.catalog.get? target.key.1 with
  | none =>
    rw [known] at inside
    cases inside
  | some schema =>
    rw [known] at inside
    obtain ⟨-, literal | ⟨p, path, resolved⟩⟩ := mem_updatesFor inside
    · exact .inl ⟨assignments, sets, literal⟩
    · exact .inr ⟨⟨assignments, .path p, sets, path⟩, p, resolved⟩

theorem names_of_mem_demands : r.Names field := by
  rcases assigns_or_resolved_of_mem_demands listed inside with ⟨assignments, sets, literal⟩ | path
  · exact ⟨assignments, .value v, sets, literal⟩
  · exact path.1

end

theorem names_of_matching (matched : r ∈ (e.matching event).2) :
    r.schema.names event.object.schema = true := by
  have candidate := (List.mem_filter.mp (List.mem_filter.mp matched).1).2
  exact (Bool.and_eq_true_iff.mp candidate).1

theorem mayTarget_of_mem_demands (matched : r ∈ (e.matching event).2)
    (listed : d ∈ e.demands event s r) : RuleBook.MayTarget e.catalog r d.key.1 := by
  obtain ⟨assignments, targets, target, -, found, among, rfl⟩ := exists_of_mem_demands listed
  exact RuleBook.mayTarget_of_related (names_of_matching matched) found among

section

variable (independent : Independent e.catalog (e.matching event).2)

include independent

theorem fits_of_mem_demands (matched : r ∈ (e.matching event).2)
    (listed : d ∈ e.demands event s r) : d.Fits e.catalog s := by
  have named {field : String} (inside : field ∈ d.updates.names) : r.Names field := by
    obtain ⟨⟨field, v⟩, given, rfl⟩ := List.mem_map.mp inside
    exact names_of_mem_demands listed given
  have may := mayTarget_of_mem_demands matched listed
  obtain ⟨assignments, targets, target, -, found, among, rfl⟩ := exists_of_mem_demands listed
  constructor
  case stored => exact Store.isSome_row?_of_related found among
  case distinct => exact nodup_demand assignments target.key
  case proper => exact fun inside => independent.proper r matched (named inside)
  case spares =>
    intro schema known f declared inside
    exact independent.spares r matched _ schema may known f declared (named inside)

/-- No two values are asked of one field, neither by one rule nor by two. -/
theorem coherent_demands : Coherent ((e.matching event).2.flatMap (e.demands event s)) := by
  rintro key field v w ⟨d, listed, own, inside⟩ ⟨d', listed', own', inside'⟩
  obtain ⟨r, matched, asks⟩ := List.mem_flatMap.mp listed
  obtain ⟨q, matched', asks'⟩ := List.mem_flatMap.mp listed'
  have near : (d.key == d'.key) = true := BEq.trans own (BEq.symm own')
  by_cases same : r = q
  · subst same
    obtain ⟨assignments, _, target, sets, -, -, rfl⟩ := exists_of_mem_demands asks
    obtain ⟨others, _, target', also, -, -, rfl⟩ := exists_of_mem_demands asks'
    obtain rfl : assignments = others := Action.set.inj (sets.symm.trans also)
    have near : (target.key == target'.key) = true := near
    rw [← demand_congr near] at inside'
    have first := (Keyed.find?_eq_some_iff (nodup_demand _ _) field v).mpr inside
    have second := (Keyed.find?_eq_some_iff (nodup_demand _ _) field w).mpr inside'
    exact Option.some.inj (first.symm.trans second)
  · refine absurd ⟨mayTarget_of_mem_demands matched asks, ?_⟩
      (independent.apart.forall matched matched' same field d.key.1
        (names_of_mem_demands asks inside) (names_of_mem_demands asks' inside'))
    exact (mayTarget_of_mem_demands matched' asks').of_beq
      (BEq.symm (Bool.and_eq_true_iff.mp near).1)

end

theorem exec_targetsOf (r : Reaction) (event : Event) (turn : Turn) :
    exec (e.targetsOf r event) turn =
      (turn.store.relatedTo e.catalog event.object r.scope
        (if r.scope = .self then .null else r.targetSchema),
        { turn with store := { turn.store with
          trace := turn.store.trace ++ [(.related r.scope, event.object.schema)] } }) := rfl

theorem exec_dispatch_eq_ok {turn after : Turn} {d : Dispatched} :
    exec (e.dispatch event) turn = (.ok d, after) ↔
      exec ((e.matching event).2.forM (e.react event)) { turn with followUps := [] } =
          (.ok (), after) ∧
        d = ⟨event, (e.matching event).1.map Reaction.label,
          (e.matching event).2.map Reaction.label, after.followUps⟩ := by
  unfold dispatch
  rw [exec_bind, exec_modify]
  dsimp only
  rw [exec_bind_eq_ok]
  constructor
  · rintro ⟨_, turn, reacted, answered⟩
    rw [exec_bind, exec_get] at answered
    obtain ⟨outcome, rfl⟩ := Prod.mk.inj answered
    exact ⟨reacted, (Except.ok.inj outcome).symm⟩
  · rintro ⟨reacted, rfl⟩
    exact ⟨(), after, reacted, rfl⟩

theorem exists_applyWrite (unguarded : e.settings.enforceStateOnReactions = false)
    {target : Record} {updates : Entries} {turn : Turn} {data : Entries}
    (stored : turn.store.row? target.schema target.id = some data) :
    ∃ written after, exec (e.applyWrite target updates) turn = (.ok written, after) := by
  have looked : exec (Turn.onStore (Store.get target.schema target.id)) turn =
      (.ok (turn.store.peek? target.schema target.id), { turn with store := { turn.store with
        trace := turn.store.trace ++ [(.get, target.schema)] } }) := rfl
  have current : (turn.store.peek? target.schema target.id).getD target =
      ⟨target.schema, target.id, data⟩ := Turn.current_of_stored stored
  have passes (r : Record) (updates : Entries) : e.guardWrite r updates = pure () := by
    unfold guardWrite
    rw [unguarded]
    rfl
  let noted : Store :=
    { turn.store with trace := turn.store.trace ++ [(.get, target.schema)] }
  have wrote := Store.exec_write ⟨target.schema, target.id, data⟩
    (effective turn.chain ⟨target.schema, target.id, data⟩ updates) noted
  rw [show noted.row? target.schema target.id = some data from stored] at wrote
  unfold applyWrite
  simp only [exec_bind, looked, exec_get, current, passes]
  split
  · exact ⟨_, _, rfl⟩
  · simp only [exec_bind, Turn.exec_onStore, exec_pure, noted] at wrote ⊢
    rw [wrote]
    exact ⟨_, _, rfl⟩

section

variable {done : List Demand} {turn after : Turn} {assignments : List (String × Operand)}
  {target : Record}

theorem exec_setFields_eq_ok :
    exec (e.setFields assignments (Scene.ofEvent event) target) turn = (.ok (), after) ↔
      (e.catalog.get? target.schema).isSome = true ∧
        if (e.demand event assignments target.key).updates = [] then after = turn
        else ∃ written, exec (e.applyWrite target (e.demand event assignments target.key).updates)
          turn = (.ok written, after) := by
  have updates (schema : Schema) (known : e.catalog.get? target.schema = some schema) :
      (e.demand event assignments target.key).updates =
        updatesFor schema assignments (Scene.ofEvent event) := by
    rw [demand, show e.catalog.get? target.key.1 = some schema from known]
    rfl
  unfold setFields
  rw [exec_ofExcept_bind_eq_ok, Catalog.require]
  cases known : e.catalog.get? target.schema with
  | none => simp
  | some schema =>
    simp only [Except.ok.injEq, exists_eq_left', Option.isSome_some, true_and, updates schema known]
    by_cases nothing : updatesFor schema assignments (Scene.ofEvent event) = []
    · simp [nothing, eq_comm]
    · have something : (updatesFor schema assignments (Scene.ofEvent event)).isEmpty = false := by
        simpa using nothing
      simp only [something, Bool.not_false, ↓reduceIte, nothing, exec_bind_eq_ok, exec_pure,
        Prod.mk.injEq, true_and, exists_eq_right]

theorem met_setFields (met : Met e.catalog s done turn)
    (fits : (e.demand event assignments target.key).Fits e.catalog s)
    (coherent : Coherent (done ++ [e.demand event assignments target.key]))
    (ran : exec (e.setFields assignments (Scene.ofEvent event) target) turn = (.ok (), after)) :
    (e.catalog.get? target.schema).isSome = true ∧
      Met e.catalog s (done ++ [e.demand event assignments target.key]) after := by
  obtain ⟨known, ran⟩ := exec_setFields_eq_ok.mp ran
  refine ⟨known, ?_⟩
  split at ran
  · rename_i nothing
    subst ran
    refine met.grow fun key field v asked _ => ?_
    have inside := (Asked.singleton_iff.mp asked).2
    rw [nothing] at inside
    cases inside
  · obtain ⟨written, wrote⟩ := ran
    exact met.write fits coherent rfl wrote

theorem exists_setFields (unguarded : e.settings.enforceStateOnReactions = false)
    (met : Met e.catalog s done turn) (stored : (s.row? target.schema target.id).isSome = true)
    (known : (e.catalog.get? target.schema).isSome = true) :
    ∃ after, exec (e.setFields assignments (Scene.ofEvent event) target) turn =
      (.ok (), after) := by
  obtain ⟨data, row⟩ := met.exists_row stored
  simp only [exec_setFields_eq_ok, known, true_and]
  split
  · exact ⟨turn, rfl⟩
  · obtain ⟨written, after, wrote⟩ := exists_applyWrite unguarded row
    exact ⟨after, written, wrote⟩

section

variable {targets : List Record} (met : Met e.catalog s done turn)
  (fits : ∀ target ∈ targets, (e.demand event assignments target.key).Fits e.catalog s)
  (coherent : Coherent (done ++ targets.map fun target => e.demand event assignments target.key))

include met fits coherent

theorem met_targets
    (ran : exec (targets.forM (e.setFields assignments (Scene.ofEvent event))) turn =
      (.ok (), after)) :
    (∀ target ∈ targets, (e.catalog.get? target.schema).isSome = true) ∧
      Met e.catalog s (done ++ targets.map fun target => e.demand event assignments target.key)
        after := by
  refine forM_ok (I := fun before turn =>
    (∀ target ∈ before, (e.catalog.get? target.schema).isSome = true) ∧
      Met e.catalog s (done ++ before.map fun target => e.demand event assignments target.key) turn)
    (fun before target later turn after split holds ran => ?_)
    ⟨List.forall_mem_nil _, by simpa using met⟩ ran
  have here : target ∈ targets := split ▸ List.mem_append_right before List.mem_cons_self
  rw [split] at coherent
  obtain ⟨known, met⟩ := met_setFields holds.2 (fits target here) coherent.upTo ran
  refine ⟨List.forall_mem_append.mpr ⟨holds.1, List.forall_mem_singleton.mpr known⟩, ?_⟩
  simpa using met

theorem exists_targets (unguarded : e.settings.enforceStateOnReactions = false)
    (known : ∀ target ∈ targets, (e.catalog.get? target.schema).isSome = true) :
    ∃ after, exec (targets.forM (e.setFields assignments (Scene.ofEvent event))) turn =
      (.ok (), after) := by
  obtain ⟨after, ran, -⟩ := exists_forM (e.setFields assignments (Scene.ofEvent event)) targets
    (I := fun before turn => Met e.catalog s
      (done ++ before.map fun target => e.demand event assignments target.key) turn)
    (fun before target later turn split met => by
      have here : target ∈ targets := split ▸ List.mem_append_right before List.mem_cons_self
      obtain ⟨after, ran⟩ := exists_setFields unguarded met (fits target here).stored
        (known target here)
      refine ⟨after, ran, ?_⟩
      rw [split] at coherent
      simpa using (met_setFields met (fits target here) coherent.upTo ran).2)
    (by simpa using met)
  exact ⟨after, ran⟩

end

variable (registered : e.catalog.Registered) (met : Met e.catalog s done turn)
  (fits : ∀ d ∈ e.demands event s r, d.Fits e.catalog s)
  (coherent : Coherent (done ++ e.demands event s r))
  (sets : r.action = .set assignments)

theorem demands_eq_map {targets : List Record} (sets : r.action = .set assignments)
    (keyed : e.targetKeys event s r = .ok (targets.map Record.key)) :
    e.demands event s r = targets.map fun target => e.demand event assignments target.key := by
  rw [demands, sets, keyed]
  exact List.map_map

include registered met fits coherent sets

/-- A reaction that succeeds acts on what it would have acted on at first, and meets what it
asks. -/
theorem met_react (ran : exec (e.react event r) turn = (.ok (), after)) :
    e.Answers event s r ∧ Met e.catalog s (done ++ e.demands event s r) after := by
  unfold react at ran
  obtain ⟨targets, looked, found, ran⟩ := exec_bind_eq_ok.mp ran
  rw [exec_targetsOf] at found
  obtain ⟨related, noted⟩ := Prod.mk.inj found
  have still : Met e.catalog s done looked := noted ▸ met.of_sameRows rfl rfl
  rw [sets] at ran
  have keyed : e.targetKeys event s r = .ok (targets.map Record.key) :=
    (targetKeys_congr registered met.links).trans (targetKeys_eq_ok.mpr ⟨targets, related, rfl⟩)
  rw [demands_eq_map sets keyed] at fits coherent ⊢
  obtain ⟨known, met⟩ := met_targets still (List.forall_mem_map.mp fits) coherent ran
  exact ⟨⟨_, keyed, List.forall_mem_map.mpr known⟩, met⟩

theorem exists_react (unguarded : e.settings.enforceStateOnReactions = false)
    (answers : e.Answers event s r) : ∃ after, exec (e.react event r) turn = (.ok (), after) := by
  obtain ⟨keys, keyed, known⟩ := answers
  obtain ⟨targets, related, rfl⟩ :=
    targetKeys_eq_ok.mp ((targetKeys_congr registered met.links).symm.trans keyed)
  rw [demands_eq_map sets keyed] at fits coherent
  let noted : Turn := (exec (e.targetsOf r event) turn).2
  have looked : exec (e.targetsOf r event) turn = (.ok targets, noted) := Prod.ext related rfl
  have still : Met e.catalog s done noted := met.of_sameRows rfl rfl
  obtain ⟨after, ran⟩ := exists_targets still (List.forall_mem_map.mp fits) coherent unguarded
    (List.forall_mem_map.mp known)
  refine ⟨after, exec_bind_eq_ok.mpr ⟨targets, noted, looked, ?_⟩⟩
  rw [sets]
  exact ran

end

section

variable (registered : e.catalog.Registered)
  (independent : Independent e.catalog (e.matching event).2)

include registered independent

/-- A dispatch that succeeds meets what its rules ask of the records as they were, and does nothing
else. -/
theorem met_dispatch {after : Turn} {d : Dispatched}
    (ran : exec (e.dispatch event) { store := s } = (.ok d, after)) :
    (∀ r ∈ (e.matching event).2, e.Answers event s r) ∧
      Met e.catalog s ((e.matching event).2.flatMap (e.demands event s)) after := by
  -- What is kept from one reaction to the next: those before it have met what they ask.
  obtain ⟨reacted, -⟩ := exec_dispatch_eq_ok.mp ran
  refine forM_ok (I := fun before turn => (∀ r ∈ before, e.Answers event s r) ∧
      Met e.catalog s (before.flatMap (e.demands event s)) turn)
    (fun before r later turn after split holds ran => ?_)
    ⟨List.forall_mem_nil _, .start e.catalog s⟩ reacted
  have here : r ∈ (e.matching event).2 := split ▸ List.mem_append_right before List.mem_cons_self
  have coherent := coherent_demands (s := s) independent
  rw [split] at coherent
  obtain ⟨assignments, sets⟩ := independent.sets r here
  obtain ⟨answers, met⟩ := met_react registered holds.2
    (fun d => fits_of_mem_demands independent here)
    coherent.upTo_flatMap sets ran
  refine ⟨List.forall_mem_append.mpr ⟨holds.1, List.forall_mem_singleton.mpr answers⟩, ?_⟩
  simpa using met

theorem exists_dispatch (unguarded : e.settings.enforceStateOnReactions = false)
    (answers : ∀ r ∈ (e.matching event).2, e.Answers event s r) :
    ∃ d after, exec (e.dispatch event) { store := s } = (.ok d, after) := by
  obtain ⟨after, reacted, -⟩ := exists_forM (e.react event) (e.matching event).2
    (I := fun before turn => Met e.catalog s (before.flatMap (e.demands event s)) turn)
    (s := { store := s })
    (fun before r later turn split met => by
      have here : r ∈ (e.matching event).2 :=
        split ▸ List.mem_append_right before List.mem_cons_self
      have coherent := coherent_demands (s := s) independent
      rw [split] at coherent
      obtain ⟨assignments, sets⟩ := independent.sets r here
      obtain ⟨after, ran⟩ := exists_react registered met
        (fun d => fits_of_mem_demands independent here) coherent.upTo_flatMap sets unguarded
        (answers r here)
      refine ⟨after, ran, ?_⟩
      simpa using (met_react registered met (fun d => fits_of_mem_demands independent here)
        coherent.upTo_flatMap sets ran).2)
    (.start e.catalog s)
  exact ⟨_, after, exec_dispatch_eq_ok.mpr ⟨reacted, rfl⟩⟩

end

end Engine

end RecordRules
