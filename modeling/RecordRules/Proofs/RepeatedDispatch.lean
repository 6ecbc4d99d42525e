import RecordRules.Proofs.IndependentRules
import RecordRules.Proofs.RuleDefinitions

/-!
The same event once more. What rules that keep out of each other's way ask of the stored records is
there after their dispatch, also where a field was missing and nothing is asked of it. Main
statement: another dispatch of the same event writes nothing, unless it asks for what is no number.
-/
namespace RecordRules

open Step

namespace Value

theorem wellFormed_toValue (key : Key) : key.toValue.WellFormed := by
  cases key with
  | null => exact .null
  | bool b => exact .bool b
  | int n => exact .int n
  | float x => exact .float x
  | text s => exact .text s

theorem WellFormed.descend {v w : Value} (formed : v.WellFormed) {names : List String}
    (reached : Path.descend v names = some w) : w.WellFormed := by
  induction names generalizing v with
  | nil => cases v <;> cases reached <;> exact formed
  | cons name rest ih =>
    cases v with
    | object entries =>
      simp only [Path.descend] at reached
      cases found : Keyed.find? entries name with
      | none => simp [found] at reached
      | some inner =>
        rw [found] at reached
        exact ih (formed.find? found) reached
    | _ => cases reached

end Value

def Record.WellFormed (r : Record) : Prop := (Value.object r.data).WellFormed

namespace Record.WellFormed

variable {r : Record} (formed : r.WellFormed)

include formed

theorem get (name : String) : (r.get name).WellFormed := by
  rw [Record.get]
  split
  · exact Value.wellFormed_toValue r.id
  · exact Value.WellFormed.get formed name

theorem follow {names : List String} {v : Value} (reached : Path.follow r names = some v) :
    v.WellFormed := by
  cases names with
  | nil =>
    obtain rfl := Option.some.inj reached
    unfold Record.WellFormed at formed
    cases formed with
    | object names each => exact .record r.schema r.id names each
  | cons field rest => exact (formed.get field).descend reached

end Record.WellFormed

structure Event.WellFormed (event : Event) : Prop where
  object : event.object.WellFormed
  modified : (Value.set event.modified).WellFormed
  ancestry : ∀ r ∈ event.ancestry, r.WellFormed
  descendants : ∀ r ∈ event.descendants, r.WellFormed

theorem Event.WellFormed.resolve {event : Event} (formed : event.WellFormed) {p : Path} {v : Value}
    (resolved : p.resolve (Scene.ofEvent event) = some v) : v.WellFormed := by
  unfold Path.resolve at resolved
  split at resolved
  · obtain rfl := Option.some.inj resolved
    exact formed.modified
  · exact formed.object.follow resolved
  · obtain ⟨r, picked, followed⟩ := Option.bind_eq_some_iff.mp resolved
    exact (formed.ancestry r (Path.mem_of_pick picked)).follow followed
  · obtain ⟨r, picked, followed⟩ := Option.bind_eq_some_iff.mp resolved
    exact (formed.descendants r (Path.mem_of_pick picked)).follow followed

namespace Turn

/-- Records were looked up since, and that is all. -/
def OnlyReads (turn after : Turn) : Prop :=
  ∃ more : List (Access × Key),
    (∀ access ∈ more, access.1 = .get ∨ ∃ scope, access.1 = .related scope) ∧
    after = { turn with store := { turn.store with trace := turn.store.trace ++ more } }

namespace OnlyReads

variable {turn after later : Turn}

theorem refl (turn : Turn) : turn.OnlyReads turn :=
  ⟨[], List.forall_mem_nil _, by rw [List.append_nil]⟩

theorem trans (first : turn.OnlyReads after) (second : after.OnlyReads later) :
    turn.OnlyReads later := by
  obtain ⟨accesses, read, rfl⟩ := first
  obtain ⟨more, also, rfl⟩ := second
  exact ⟨accesses ++ more, List.forall_mem_append.mpr ⟨read, also⟩, by rw [List.append_assoc]⟩

theorem sameRows (reads : turn.OnlyReads after) : Store.SameRows turn.store after.store := by
  obtain ⟨more, -, rfl⟩ := reads
  rfl

theorem get (turn : Turn) (schema : Key) :
    turn.OnlyReads { turn with store := { turn.store with
      trace := turn.store.trace ++ [(.get, schema)] } } :=
  ⟨[(.get, schema)], List.forall_mem_singleton.mpr (.inl rfl), rfl⟩

theorem related (turn : Turn) (scope : Scope) (schema : Key) :
    turn.OnlyReads { turn with store := { turn.store with
      trace := turn.store.trace ++ [(.related scope, schema)] } } :=
  ⟨[(.related scope, schema)], List.forall_mem_singleton.mpr (.inr ⟨scope, rfl⟩), rfl⟩

end OnlyReads

end Turn

def Demand.Holds (d : Demand) (s : Store) : Prop :=
  ∀ field v, (field, v) ∈ d.updates → ((s.field? d.key field).getD .null).equals v = true

theorem Demand.Holds.of_sameRows {d : Demand} {s t : Store} (holds : d.Holds s)
    (rows : Store.SameRows s t) : d.Holds t := by
  intro field v inside
  rw [Store.field?, Store.row?_of_sameRows rows]
  exact holds field v inside

namespace Engine

variable {e : Engine} {event : Event} {s : Store} {r : Reaction}
  {assignments : List (String × Operand)}

theorem onlyReads_setFields {target : Record} {turn : Turn}
    (stored : (turn.store.row? target.schema target.id).isSome = true)
    (proper : "id" ∉ (e.demand event assignments target.key).updates.names)
    (holds : (e.demand event assignments target.key).Holds turn.store)
    (known : (e.catalog.get? target.schema).isSome = true) :
    ∃ after, exec (e.setFields assignments (Scene.ofEvent event) target) turn = (.ok (), after) ∧
      turn.OnlyReads after := by
  obtain ⟨data, stored⟩ := Option.isSome_iff_exists.mp stored
  have dropped : effective turn.chain (turn.current target)
      (e.demand event assignments target.key).updates = [] := by
    rw [Turn.current_of_stored stored]
    refine List.eq_nil_iff_forall_not_mem.mpr fun ⟨field, v⟩ left => ?_
    obtain ⟨inside, differs, -⟩ := mem_effective_iff.mp left
    have named : field ≠ "id" := fun same => proper (same ▸ List.mem_map_of_mem inside)
    rw [Store.get_of_stored stored named] at differs
    cases differs.symm.trans (holds field v inside)
  simp only [exec_setFields_eq_ok, known, true_and]
  split
  · exact ⟨turn, rfl, .refl turn⟩
  · exact ⟨_, ⟨_, e.exec_applyWrite_of_nothing dropped⟩, .get turn target.schema⟩

theorem onlyReads_react {turn : Turn} (sets : r.action = .set assignments)
    (answers : e.Answers event turn.store r)
    (fits : ∀ d ∈ e.demands event turn.store r, d.Fits e.catalog turn.store)
    (holds : ∀ d ∈ e.demands event turn.store r, d.Holds turn.store) :
    ∃ after, exec (e.react event r) turn = (.ok (), after) ∧ turn.OnlyReads after := by
  obtain ⟨keys, keyed, known⟩ := answers
  obtain ⟨targets, related, rfl⟩ := targetKeys_eq_ok.mp keyed
  rw [demands_eq_map sets keyed] at fits holds
  let noted : Turn := (exec (e.targetsOf r event) turn).2
  have looked : exec (e.targetsOf r event) turn = (.ok targets, noted) := Prod.ext related rfl
  obtain ⟨after, ran, reads⟩ := exists_forM (e.setFields assignments (Scene.ofEvent event))
    targets (I := fun _ after => turn.OnlyReads after)
    (fun before target later after split reads => by
      have here : target ∈ targets := split ▸ List.mem_append_right before List.mem_cons_self
      have listed := List.mem_map_of_mem (f := fun target : Record =>
        e.demand event assignments target.key) here
      have stored := (fits _ listed).stored
      rw [← Store.row?_of_sameRows reads.sameRows] at stored
      obtain ⟨last, ran, more⟩ := onlyReads_setFields stored (fits _ listed).proper
        ((holds _ listed).of_sameRows reads.sameRows) (known _ (List.mem_map_of_mem here))
      exact ⟨last, ran, reads.trans more⟩)
    (.related turn r.scope event.object.schema)
  unfold react
  refine ⟨after, exec_bind_eq_ok.mpr ⟨targets, noted, looked, ?_⟩, reads⟩
  rw [sets]
  exact ran

theorem wellFormed_of_mem_demands (formed : event.WellFormed)
    (literals : ∀ field v, r.Assigns field v → v.WellFormed) {d : Demand}
    (listed : d ∈ e.demands event s r) {field : String} {v : Value}
    (inside : (field, v) ∈ d.updates) : v.WellFormed := by
  rcases assigns_or_resolved_of_mem_demands listed inside with literal | ⟨-, p, resolved⟩
  · exact literals field v literal
  · exact formed.resolve resolved

def AsksForNaN (e : Engine) (event : Event) (s : Store) : Prop :=
  ∃ r ∈ (e.matching event).2, ∃ d ∈ e.demands event s r, ∃ entry ∈ d.updates, entry.2.isNaN = true

/-- Dispatching an event again does nothing more: where rules keep out of each other's way, and
their dispatch of an event succeeded, another dispatch of this event in a cascade of its own has the
same rules match, writes nothing, so that nothing follows, and leaves the store as it was. All that
it does is to look up records. This is so unless a rule asks for what is no number: then a dispatch
that succeeds writes again. -/
theorem dispatch_again (e : Engine) (registered : e.catalog.Registered) (event : Event)
    (formed : event.WellFormed) (s : Store)
    (independent : Independent e.catalog (e.matching event).2)
    (literals : ∀ r ∈ (e.matching event).2, ∀ field v, r.Assigns field v → v.WellFormed)
    {d : Dispatched} {first : Turn}
    (ran : exec (e.dispatch event) { store := s } = (.ok d, first)) :
    (¬ e.AsksForNaN event s → ∃ second, exec (e.dispatch event) { store := first.store } =
        (.ok { d with followUps := [] }, second) ∧
      ({ store := first.store } : Turn).OnlyReads second) ∧
    (e.AsksForNaN event s → ∀ again second,
      exec (e.dispatch event) { store := first.store } = (.ok again, second) →
      second.chain.writes ≠ []) := by
  obtain ⟨answers, met⟩ := met_dispatch registered independent ran
  have coherent := coherent_demands (s := s) independent
  -- the records that a rule acts on are told by what no write touches
  have same {t : Store} (rows : Store.SameRows first.store t) (r : Reaction) :
      e.targetKeys event s r = e.targetKeys event t r :=
    targetKeys_congr registered (met.links.of_sameRows rows)
  have demands {t : Store} (rows : Store.SameRows first.store t) (r : Reaction) :
      e.demands event t r = e.demands event s r := by
    rw [Engine.demands, Engine.demands, same rows]
  constructor
  case right =>
    rintro ⟨r, matched, q, listed, ⟨field, v⟩, inside, stray⟩ again second repeated
    obtain ⟨-, met'⟩ := met_dispatch registered independent repeated
    have asked : Asked ((e.matching event).2.flatMap (e.demands event first.store)) q.key field v :=
      ⟨q, List.mem_flatMap.mpr ⟨r, matched, by rwa [demands rfl]⟩, BEq.rfl, inside⟩
    obtain ⟨w, written, -⟩ :=
      (met'.changes q.key field v).mpr ⟨asked, Value.equals_of_isNaN stray⟩
    exact List.ne_nil_of_mem written
  case left =>
  intro numbers
  obtain ⟨-, rfl⟩ := exec_dispatch_eq_ok.mp ran
  have holds (r : Reaction) (matched : r ∈ (e.matching event).2) (d : Demand)
      (listed : d ∈ e.demands event s r) : d.Holds first.store := by
    intro field v inside
    have asked : Asked ((e.matching event).2.flatMap (e.demands event s)) d.key field v :=
      ⟨d, List.mem_flatMap.mpr ⟨r, matched, listed⟩, BEq.rfl, inside⟩
    refine met.holds coherent asked ?_
    rw [(wellFormed_of_mem_demands formed (literals r matched) listed inside).equals_self,
      Bool.not_eq_true', ← Bool.not_eq_true]
    exact fun stray => numbers ⟨r, matched, d, listed, (field, v), inside, stray⟩
  obtain ⟨second, reacted, reads⟩ := exists_forM (e.react event) (e.matching event).2
    (I := fun _ turn => ({ store := first.store } : Turn).OnlyReads turn)
    (s := { store := first.store })
    (fun before r later turn split reads => by
      have here : r ∈ (e.matching event).2 :=
        split ▸ List.mem_append_right before List.mem_cons_self
      obtain ⟨assignments, sets⟩ := independent.sets r here
      obtain ⟨keys, keyed, known⟩ := answers r here
      obtain ⟨after, ran, more⟩ := onlyReads_react sets
        ⟨keys, same reads.sameRows r ▸ keyed, known⟩
        (fun d listed => fits_of_mem_demands independent here listed)
        (fun d listed => by
          rw [demands reads.sameRows] at listed
          exact (holds r here d listed).of_sameRows reads.sameRows)
      exact ⟨after, ran, reads.trans more⟩)
    (.refl _)
  have silent : second.followUps = [] := by
    obtain ⟨more, -, rfl⟩ := reads
    rfl
  exact ⟨second, exec_dispatch_eq_ok.mpr ⟨reacted, by rw [silent]⟩, reads⟩

theorem dispatch_again_project :
    let state : Field := { name := "state", kind := .known .text }
    let note : Field := { name := "note", kind := .known .text }
    let within : Field := { name := "within", kind := .known .reference, refer := .text "Project" }
    let project : Schema := { name := .text "Project", fields := [note] }
    let task : Schema := { name := .text "Task", fields := [state, within] }
    let first := (exec (Catalog.register project) {}).2
    let c : Catalog := (exec (Catalog.register task) first).2
    let closes : Reaction :=
      { schema := .text "Task", event := .modified
        action := .set [("state", .value (.text "closed"))] }
    let clears : Reaction :=
      { schema := .text "Task", event := .modified, scope := .parent
        action := .set [("note", .value .null)] }
    let e : Engine := { catalog := c, rules := { reactions := [closes, clears] } }
    let written : Record :=
      ⟨.text "Task", .text "first", [("state", .text "done"), ("within", .text "house")]⟩
    let s : Store :=
      { tables := [(.text "Project", [(.text "house", [])]),
          (.text "Task", [(.text "first", written.data)])] }
    let event : Event := .modifiedOf written ["state"]
    ∃ d once twice, exec (e.dispatch event) { store := s } = (.ok d, once) ∧
      once.store.field? (.text "Task", .text "first") "state" = some (.text "closed") ∧
      exec (e.dispatch event) { store := once.store } = (.ok { d with followUps := [] }, twice) ∧
      ({ store := once.store } : Turn).OnlyReads twice := by
  intro state note within project task first c closes clears e written s event
  have registered : e.catalog.Registered := by
    refine .register (.register .empty ⟨rfl, ?_⟩) ⟨rfl, ?_⟩ <;>
      simp [project, task, state, note, within, Field.check, Field.isOf, GivenKind.isKind,
        Field.target?, Field.checkBounds, Value.isTrue, Value.isNull]
  have formed : event.WellFormed := by
    refine ⟨.object (by decide) ?_, .set (by decide) (List.pairwise_singleton _ _) ?_,
      List.forall_mem_nil _, List.forall_mem_nil _⟩
    · intro entry inside
      rcases List.mem_pair.mp inside with rfl | rfl <;> exact .text _
    · exact List.forall_mem_singleton.mpr (.text _)
  have named {r : Reaction} {field : String} (listed : r ∈ [closes, clears])
      (names : r.Names field) : field = "state" ∨ field = "note" := by
    rcases List.mem_pair.mp listed with rfl | rfl
    · exact .inl (names.eq_of_set rfl)
    · exact .inr (names.eq_of_set rfl)
  have independent : Independent e.catalog (e.matching event).2 := by
    change Independent c [closes, clears]
    constructor
    case sets =>
      intro r listed
      rcases List.mem_pair.mp listed with rfl | rfl <;> exact ⟨_, rfl⟩
    case apart =>
      refine List.pairwise_pair.mpr fun field schema closed cleared => ?_
      obtain rfl := closed.eq_of_set rfl
      exact absurd (cleared.eq_of_set rfl) (by decide)
    case proper =>
      exact fun r listed names => absurd (named listed names) (by decide)
    case spares =>
      intro r listed key schema _ known f declared names
      obtain ⟨_, _, among⟩ := Keyed.mem_of_find? known
      have refers : f.name = "within" := by
        rcases List.mem_pair.mp among with same | same <;> cases same
        · cases declared
        · rw [List.mem_singleton.mp declared]
      rw [refers] at names
      exact absurd (named listed names) (by decide)
  have literals (r : Reaction) (listed : r ∈ (e.matching event).2) (field : String) (v : Value)
      (assigns : r.Assigns field v) : v.WellFormed := by
    obtain ⟨assignments, sets, inside⟩ := assigns
    change r ∈ [closes, clears] at listed
    rcases List.mem_pair.mp listed with rfl | rfl <;> cases sets <;>
      obtain ⟨-, same⟩ := Prod.mk.inj (List.mem_singleton.mp inside) <;> cases same
    · exact .text _
    · exact .null
  have succeeds : (exec (e.dispatch event) { store := s }).1.isOk = true := by decide +kernel
  obtain ⟨d, once, ran⟩ := exists_exec_of_isOk succeeds
  have numbers : ¬ e.AsksForNaN event s := by
    unfold AsksForNaN
    decide +kernel
  obtain ⟨twice, again, reads⟩ :=
    (e.dispatch_again registered event formed s independent literals ran).1 numbers
  refine ⟨d, once, twice, ran, ?_, again, reads⟩
  rw [show once = (exec (e.dispatch event) { store := s }).2 from (congrArg Prod.snd ran).symm]
  rfl

/-- A reading that is no number is kept as the last one, and kept again when the same event is
dispatched again: what is kept is not equal to itself. -/
theorem stray_reading_kept_twice :
    let value : Field := { name := "value", kind := .known .float }
    let last : Field := { name := "last", kind := .known .float }
    let meter : Schema := { name := .text "Meter", fields := [value, last] }
    let c : Catalog := (exec (Catalog.register meter) {}).2
    let read : Path := { origin := .object, tail := ["value"], source := "value" }
    let keeps : Reaction :=
      { schema := .text "Meter", event := .modified, action := .set [("last", .path read)] }
    let e : Engine := { catalog := c, rules := { reactions := [keeps] } }
    let before : Record := ⟨.text "Meter", .text "hall", [("value", .nan 0)]⟩
    let after : Record := before.withUpdates [("last", .nan 0)]
    let s : Store := { tables := [(.text "Meter", [(.text "hall", before.data)])] }
    let event : Event := .modifiedOf before ["value"]
    e.catalog.Registered ∧ event.WellFormed ∧ Independent c (e.matching event).2 ∧
      ∃ d once again twice, exec (e.dispatch event) { store := s } = (.ok d, once) ∧
        once.store.tables = [(.text "Meter", [(.text "hall", after.data)])] ∧
        exec (e.dispatch event) { store := once.store } = (.ok again, twice) ∧
        again.followUps = [.modifiedOf after ["last"]] ∧
        twice.chain.writes = [⟨after, ["last"]⟩] := by
  intro value last meter c read keeps e before after s event
  have registered : e.catalog.Registered := by
    refine .register .empty ⟨rfl, ?_⟩
    simp [meter, value, last, Field.check, Field.isOf, GivenKind.isKind, Field.target?,
      Field.checkBounds, Value.isTrue, Value.isNull]
  have formed : event.WellFormed := by
    refine ⟨.object (by decide) ?_, .set (by decide) (List.pairwise_singleton _ _) ?_,
      List.forall_mem_nil _, List.forall_mem_nil _⟩
    · exact List.forall_mem_singleton.mpr (.nan 0)
    · exact List.forall_mem_singleton.mpr (.text _)
  have independent : Independent c (e.matching event).2 := by
    change Independent c [keeps]
    have named {r : Reaction} (listed : r ∈ [keeps]) {field : String} (names : r.Names field) :
        field = "last" := by
      obtain rfl := List.mem_singleton.mp listed
      exact names.eq_of_set rfl
    constructor
    case sets =>
      intro r listed
      obtain rfl := List.mem_singleton.mp listed
      exact ⟨_, rfl⟩
    case apart => exact List.pairwise_singleton _ _
    case proper => exact fun r listed names => absurd (named listed names) (by decide)
    case spares =>
      intro r listed key schema _ known f declared names
      obtain ⟨_, _, among⟩ := Keyed.mem_of_find? known
      obtain ⟨-, rfl⟩ := Prod.mk.inj (List.mem_singleton.mp among)
      cases declared
  have succeeds : (exec (e.dispatch event) { store := s }).1.isOk = true := by decide +kernel
  obtain ⟨d, once, ran⟩ := exists_exec_of_isOk succeeds
  obtain rfl : (exec (e.dispatch event) { store := s }).2 = once := congrArg Prod.snd ran
  let kept : Turn := (exec (e.dispatch event) { store := s }).2
  have succeeds : (exec (e.dispatch event) { store := kept.store }).1.isOk = true := by
    decide +kernel
  obtain ⟨again, twice, repeated⟩ := exists_exec_of_isOk succeeds
  obtain rfl : (exec (e.dispatch event) { store := kept.store }).2 = twice :=
    congrArg Prod.snd repeated
  obtain ⟨-, answered⟩ := exec_dispatch_eq_ok.mp repeated
  exact ⟨registered, formed, independent, d, _, again, _, ran, rfl, repeated, by rw [answered]; rfl,
    rfl⟩

end Engine

end RecordRules
