import RecordRules.Proofs.DispatchFailures
import RecordRules.Proofs.SettledWrites
import RecordRules.Proofs.TargetSchemas

/-!
Rules that agree on what they set. What a cascade settles then stays settled, so that it writes
every field of every record at most once, however the records refer to each other. There are only so
many fields to write, and nothing follows from a dispatch that writes none, so the cascade cannot go
deeper than their number.
-/
namespace RecordRules

open Step

abbrev Cell := Key × Key × String

def Write.cells (w : Write) : List Cell :=
  w.changed.map fun field => (w.record.schema, w.record.id, field)

theorem Write.pairwise_cells {w : Write} (distinct : w.changed.Nodup) :
    w.cells.Pairwise fun a b => (a == b) = false := by
  rw [cells, List.pairwise_map]
  refine distinct.imp fun different => ?_
  rw [← Bool.not_eq_true]
  intro same
  obtain ⟨-, others⟩ := Bool.and_eq_true_iff.mp same
  exact different (eq_of_beq (Bool.and_eq_true_iff.mp others).2)

section

variable (turn : Turn) (store : Store) (r : Record) (changes : Entries)

theorem Turn.cells_wrote :
    (turn.wrote store r changes).chain.writes.flatMap Write.cells =
      turn.chain.writes.flatMap Write.cells ++ (⟨r, changes.names⟩ : Write).cells := by
  change (turn.chain.writes ++ [(⟨r, changes.names⟩ : Write)]).flatMap Write.cells = _
  rw [List.flatMap_append, List.flatMap_singleton]

theorem Turn.isSome_settled_wrote {cell : Cell}
    (present : (turn.chain.settled.find? cell).isSome = true ∨
      cell ∈ (⟨r, changes.names⟩ : Write).cells) :
    ((turn.wrote store r changes).chain.settled.find? cell).isSome = true := by
  obtain ⟨schema, id, field⟩ := cell
  have settles := turn.chain.settled_settle r changes schema id field
  rw [show (turn.wrote store r changes).chain.settled.find? _ = _ from settles,
    Option.isSome_or, Bool.or_eq_true]
  rcases present with before | changed
  · exact .inr before
  · left
    obtain ⟨name, inside, same⟩ := List.mem_map.mp changed
    cases same
    have own : (r.key == (r.schema, r.id)) = true := BEq.refl (r.schema, r.id)
    rw [if_pos own, Keyed.isSome_find?_reverse]
    exact List.contains_iff_mem.mpr inside

end

def Store.cells (c : Catalog) (s : Store) : List Cell :=
  s.ids.flatMap fun (schema, ids) => ids.flatMap fun id =>
    (((c.get? schema).map Schema.fieldNames).getD []).map fun field => (schema, id, field)

def Reaction.Assigns (r : Reaction) (field : String) (v : Value) : Prop :=
  ∃ assignments, r.action = .set assignments ∧ (field, .value v) ∈ assignments

/-- All reactions set fields to given values, and where two of them may act on records of one
schema, they give the same value to the same field. -/
structure Engine.Agreeing (e : Engine) : Prop where
  sets : ∀ r ∈ e.rules.reactions, ∃ assignments, r.action = .set assignments ∧
    ∀ entry ∈ assignments, ∃ v, entry.2 = .value v
  agree : ∀ r ∈ e.rules.reactions, ∀ q ∈ e.rules.reactions, ∀ field v w,
    r.Assigns field v → q.Assigns field w →
    (∃ schema, RuleBook.MayTarget e.catalog r schema ∧ RuleBook.MayTarget e.catalog q schema) →
    v.equals w = true

theorem length_le_of_pairwise {α : Type} [BEq α] [EquivBEq α] {xs ys : List α}
    (apart : xs.Pairwise fun a b => (a == b) = false)
    (among : ∀ x ∈ xs, ∃ y ∈ ys, (y == x) = true) : xs.length ≤ ys.length := by
  -- Each member on the left takes its equal away on the right, and the others keep theirs.
  induction xs generalizing ys with
  | nil => exact Nat.zero_le _
  | cons x rest ih =>
    obtain ⟨others, apart⟩ := List.pairwise_cons.mp apart
    obtain ⟨y, present, same⟩ := among x List.mem_cons_self
    have left : rest.length ≤ (ys.eraseP fun z => z == x).length := by
      refine ih apart fun other later => ?_
      obtain ⟨z, inside, equal⟩ := among other (List.mem_cons_of_mem x later)
      have elsewhere : ¬(z == x) = true := by
        intro also
        have near := BEq.trans (BEq.symm also) equal
        rw [others other later] at near
        cases near
      have kept : z ∈ ys.eraseP fun z => z == x :=
        (List.mem_eraseP_of_neg (p := fun z => z == x) elsewhere).mpr inside
      exact ⟨z, kept, equal⟩
    have removed := List.length_eraseP_of_mem (p := fun z => z == x) present same
    have some := List.length_pos_of_mem present
    rw [List.length_cons]
    omega

theorem Store.exists_cell {c : Catalog} {s : Store} {schema id : Key} {data : Entries}
    {sch : Schema} (stored : s.row? schema id = some data) (known : c.get? schema = some sch)
    {field : String} (declared : sch.declares field = true) :
    ∃ cell ∈ s.cells c, (cell == (schema, id, field)) = true := by
  rw [row?, table] at stored
  cases found : s.tables.find? schema with
  | none =>
    rw [found] at stored
    cases stored
  | some rows =>
    rw [found] at stored
    obtain ⟨given, named, table⟩ := Keyed.mem_of_find? found
    obtain ⟨rowId, same, row⟩ := Keyed.mem_of_find? stored
    have listed : field ∈ sch.fieldNames := List.mem_map.mpr (Schema.declares_iff.mp declared)
    refine ⟨(given, rowId, field), ?_, ?_⟩
    · refine List.mem_flatMap.mpr ⟨(given, rows.names), List.mem_map_of_mem table, ?_⟩
      refine List.mem_flatMap.mpr ⟨rowId, List.mem_map_of_mem row, ?_⟩
      rw [Catalog.get?, Keyed.find?_congr named]
      rw [Catalog.get?] at known
      rw [known]
      exact List.mem_map_of_mem listed
    · exact Bool.and_eq_true_iff.mpr ⟨named, Bool.and_eq_true_iff.mpr ⟨same, BEq.rfl⟩⟩

namespace Engine

variable {e : Engine} {s : Store} {roots : List Event} {turn : Turn}

theorem mem_updatesFor {schema : Schema} {assignments : List (String × Operand)} {scene : Scene}
    {field : String} {v : Value} (member : (field, v) ∈ updatesFor schema assignments scene) :
    schema.declares field = true ∧ ((field, .value v) ∈ assignments ∨
      ∃ p, (field, .path p) ∈ assignments ∧ p.resolve scene = some v) := by
  rcases Keyed.mem_merge member with before | given
  · cases before
  · obtain ⟨⟨name, operand⟩, listed, given⟩ := List.mem_filterMap.mp given
    dsimp only at given
    split at given
    · cases given
    · rename_i declared
      rw [Bool.not_eq_true, Bool.not_eq_false'] at declared
      split at given
      · cases given
        exact ⟨declared, .inl listed⟩
      · obtain ⟨_, resolved, same⟩ := Option.map_eq_some_iff.mp given
        cases same
        exact ⟨declared, .inr ⟨_, listed, resolved⟩⟩

/-- What a cascade has written so far, it has written once, among the declared fields of the records
that were there: it is all settled, by reactions that may act on these records. -/
structure Once (e : Engine) (s : Store) (turn : Turn) : Prop where
  ids : turn.store.ids = s.ids
  something : ∀ w ∈ turn.chain.writes, w.changed ≠ []
  origin : ∀ schema id field v, turn.chain.settled.find? (schema, id, field) = some v →
    ∃ r ∈ e.rules.reactions, r.Assigns field v ∧ RuleBook.MayTarget e.catalog r schema
  settled : ∀ cell ∈ turn.chain.writes.flatMap Write.cells,
    (turn.chain.settled.find? cell).isSome = true
  once : (turn.chain.writes.flatMap Write.cells).Pairwise fun a b => (a == b) = false
  stored : ∀ cell ∈ turn.chain.writes.flatMap Write.cells,
    ∃ known ∈ s.cells e.catalog, (known == cell) = true

namespace Once

theorem start (e : Engine) (s : Store) : e.Once s { store := s } where
  ids := rfl
  something _ member := by cases member
  origin _ _ _ _ found := by cases found
  settled _ member := by cases member
  once := .nil
  stored _ member := by cases member

theorem of_ids (once : e.Once s turn) {later : Turn} (ids : later.store.ids = turn.store.ids)
    (chain : later.chain = turn.chain) : e.Once s later := by
  obtain ⟨_, _⟩ := later
  obtain rfl := chain
  exact { once with ids := ids.trans once.ids }

theorem apart (agreeing : e.Agreeing) (once : e.Once s turn) {r : Reaction}
    (listed : r ∈ e.rules.reactions) {schema id : Key}
    (may : RuleBook.MayTarget e.catalog r schema) {data updates : Entries} {field : String}
    {v : Value} (assigns : r.Assigns field v)
    (left : (field, v) ∈ effective turn.chain ⟨schema, id, data⟩ updates) {cell : Cell}
    (written : cell ∈ turn.chain.writes.flatMap Write.cells) :
    (cell == (schema, id, field)) = false := by
  rw [← Bool.not_eq_true]
  intro same
  have known := once.settled cell written
  rw [Keyed.find?_congr same, Option.isSome_iff_exists] at known
  obtain ⟨old, found⟩ := known
  obtain ⟨q, also, gave, might⟩ := once.origin schema id field old found
  have agreed : old.equals v = true :=
    agreeing.agree q also r listed field old v gave assigns ⟨schema, might, may⟩
  have unsettled := (of_mem_effective left).2.2
  rw [Chain.isSettled, found] at unsettled
  cases unsettled.symm.trans agreed

theorem wrote (agreeing : e.Agreeing) (once : e.Once s turn) {r : Reaction}
    (listed : r ∈ e.rules.reactions) {schema id : Key}
    (may : RuleBook.MayTarget e.catalog r schema) {sch : Schema}
    (known : e.catalog.get? schema = some sch) {data updates changes : Entries}
    (distinct : changes.names.Nodup)
    (assigns : ∀ field v, (field, v) ∈ changes → r.Assigns field v ∧ sch.declares field = true)
    (present : turn.store.row? schema id = some data)
    (left : changes = effective turn.chain ⟨schema, id, data⟩ updates) (something : changes ≠ []) :
    e.Once s (turn.wrote turn.store ⟨schema, id, data.merge changes⟩ changes) := by
  let written : Record := ⟨schema, id, data.merge changes⟩
  have cells := turn.cells_wrote turn.store written changes
  constructor
  case ids => exact (Store.ids_putRow _ present).trans once.ids
  case something =>
    intro w member
    rcases List.mem_append.mp member with before | last
    · exact once.something w before
    · rw [List.mem_singleton.mp last]
      exact fun none => something (List.map_eq_nil_iff.mp none)
  case origin =>
    intro other otherId field v found
    have settles := turn.chain.settled_settle written changes other otherId field
    rcases Option.or_eq_some_iff.mp (settles.symm.trans found) with new | ⟨-, old⟩
    · split at new
      · rename_i same
        obtain ⟨name, equal, inside⟩ := Keyed.mem_of_find? new
        obtain rfl := eq_of_beq equal
        obtain ⟨sets, -⟩ := assigns name v (List.mem_reverse.mp inside)
        exact ⟨r, listed, sets, may.of_beq (Bool.and_eq_true_iff.mp same).1⟩
      · cases new
    · exact once.origin other otherId field v old
  case settled =>
    rw [cells]
    intro cell member
    apply turn.isSome_settled_wrote
    exact (List.mem_append.mp member).imp_left (once.settled cell)
  case once =>
    rw [cells, List.pairwise_append]
    refine ⟨once.once, Write.pairwise_cells distinct, ?_⟩
    intro cell before new member
    obtain ⟨name, changed, rfl⟩ := List.mem_map.mp member
    obtain ⟨⟨field, v⟩, inside, rfl⟩ := List.mem_map.mp changed
    obtain ⟨sets, -⟩ := assigns field v inside
    rw [left] at inside
    exact once.apart agreeing listed may sets inside before
  case stored =>
    rw [cells]
    intro cell member
    rcases List.mem_append.mp member with before | new
    · exact once.stored cell before
    · obtain ⟨name, changed, rfl⟩ := List.mem_map.mp new
      obtain ⟨⟨field, v⟩, inside, rfl⟩ := List.mem_map.mp changed
      obtain ⟨-, declared⟩ := assigns field v inside
      have among := Store.exists_cell present known declared
      rwa [Store.cells, once.ids] at among

theorem write (agreeing : e.Agreeing) (once : e.Once s turn) {r : Reaction}
    (listed : r ∈ e.rules.reactions) {target : Record}
    (may : RuleBook.MayTarget e.catalog r target.schema) {sch : Schema}
    (known : e.catalog.require target.schema = .ok sch) {updates : Entries}
    (distinct : updates.names.Nodup)
    (assigns : ∀ field v, (field, v) ∈ updates → r.Assigns field v ∧ sch.declares field = true) :
    e.Once s (exec (e.applyWrite target updates) turn).2 := by
  have written := e.applyWrite_written target updates turn
  generalize exec (e.applyWrite target updates) turn = outcome at written
  cases written with
  | dropped looked nothing =>
    obtain ⟨_, rfl⟩ := looked
    exact once.of_ids rfl rfl
  | refused looked =>
    obtain ⟨_, rfl⟩ := looked
    exact once.of_ids rfl rfl
  | @changed store data changes looked stored left something =>
    obtain ⟨trace, rfl⟩ := looked
    have within : changes.names.Sublist updates.names := by
      rw [left]
      exact effective_names_sublist _ _ _
    have given (field : String) (v : Value) (inside : (field, v) ∈ changes) :
        r.Assigns field v ∧ sch.declares field = true := by
      rw [left] at inside
      exact assigns field v (of_mem_effective inside).1
    have wrote := once.wrote agreeing listed may (Catalog.get?_of_require known)
      (distinct.sublist within) given stored left something
    exact wrote.of_ids rfl rfl

theorem length_le (once : e.Once s turn) :
    turn.chain.writes.length ≤ (s.cells e.catalog).length := by
  have each (writes : List Write) (some : ∀ w ∈ writes, w.changed ≠ []) :
      writes.length ≤ (writes.flatMap Write.cells).length := by
    induction writes with
    | nil => exact Nat.zero_le _
    | cons w rest ih =>
      have later := ih fun other member => some other (List.mem_cons_of_mem w member)
      have first := List.length_pos_iff.mpr (some w List.mem_cons_self)
      rw [List.flatMap_cons, List.length_append, Write.cells, List.length_map, List.length_cons]
      omega
  exact (each _ once.something).trans (length_le_of_pairwise once.once once.stored)

end Once

namespace Agreeing

variable (agreeing : e.Agreeing)

include agreeing

theorem not_custom {r : Reaction} (listed : r ∈ e.rules.reactions) {name : Value} :
    r.action ≠ .custom name := by
  intro custom
  obtain ⟨assignments, sets, -⟩ := agreeing.sets r listed
  rw [custom] at sets
  cases sets

theorem no_calls {name : Value} {call : ActionCall} : ¬e.Calls s roots name call turn := by
  intro calls
  obtain ⟨r, listed, custom⟩ := calls.exists_custom
  exact agreeing.not_custom listed custom

theorem no_acts {p : Procedure} : ¬e.Acts s roots p turn := by
  intro acts
  obtain ⟨r, listed, name, custom⟩ := acts.exists_custom
  exact agreeing.not_custom listed custom

theorem silent : e.Silent s roots where
  emit _ _ _ acts := agreeing.no_acts acts
  answer _ _ _ _ _ calls _ := (agreeing.no_calls calls).elim

theorem keeps_once (s : Store) (roots : List Event) :
    e.Keeps s roots (Stays (e.Once s)) where
  look _ _ _ once := once.of_ids rfl rfl
  write target updates turn asked once := by
    cases asked with
    | custom acts => exact (agreeing.no_acts acts).elim
    | @set event r before later _ first _ assignments sch found sets done known something =>
      obtain ⟨reacting, reacts, ran⟩ := found
      obtain ⟨listed, matched⟩ := reacts.mem
      have may : RuleBook.MayTarget e.catalog r target.schema := by
        refine RuleBook.mayTarget_of_related matched (congrArg Prod.fst ran) ?_
        exact List.mem_append_right before List.mem_cons_self
      refine once.write agreeing listed may known (updatesFor_nodup _ _ _) fun field v inside => ?_
      obtain ⟨declared, given⟩ := mem_updatesFor inside
      refine ⟨⟨assignments, sets, ?_⟩, declared⟩
      rcases given with literal | ⟨p, path, -⟩
      · exact literal
      · obtain ⟨others, also, literals⟩ := agreeing.sets r listed
        cases sets.symm.trans also
        obtain ⟨w, value⟩ := literals _ path
        cases value
  change _ _ _ acts _ := (agreeing.no_acts acts).elim
  emit _ _ _ acts := (agreeing.no_acts acts).elim
  enter turn once := once.of_ids (Store.sameRows_enter turn.store).ids rfl
  leave _ _ _ acts := (agreeing.no_acts acts).elim
  answer _ _ _ _ _ calls _ := (agreeing.no_calls calls).elim

theorem dispatched {course : Course} {event : Event} {depth : Nat} {rest : Waiting}
    (reached : e.Reaches s roots course) (waiting : course.queue = (event, depth) :: rest)
    {d : Dispatched} {after : Turn}
    (ran : exec (e.dispatchLoaded (course.place event)) course.turn = (.ok d, after)) :
    ∃ writes, after.chain.writes = course.turn.chain.writes ++ writes ∧
      writes.map Write.event = d.followUps := by
  obtain ⟨store, -, -, each⟩ := (e.hears_keeps s roots).dispatchLoaded reached waiting
  obtain ⟨⟨writes, events, wrote, followed, heard⟩, answered⟩ := each d after ran
  refine ⟨writes, wrote, ?_⟩
  rw [answered, followed, List.nil_append]
  exact heard.2 agreeing.silent

theorem succ_depth_le {course : Course} {event : Event} {depth : Nat} {rest : Waiting}
    (reached : e.Reaches s roots course) (waiting : course.queue = (event, depth) :: rest)
    (before : depth ≤ course.turn.chain.writes.length) {d : Dispatched} {after : Turn}
    (ran : exec (e.dispatchLoaded (course.place event)) course.turn = (.ok d, after))
    (follows : d.followUps ≠ []) : depth + 1 ≤ after.chain.writes.length := by
  obtain ⟨writes, wrote, events⟩ := agreeing.dispatched reached waiting ran
  have some : 0 < writes.length := by
    refine List.length_pos_iff.mpr fun none => follows ?_
    rw [← events, none]
    rfl
  rw [wrote, List.length_append]
  omega

theorem depth_le {course : Course} (reached : e.Reaches s roots course) :
    ∀ item ∈ course.queue, item.2 ≤ course.turn.chain.writes.length := by
  induction reached with
  | refl =>
    intro item member
    obtain ⟨event, -, rfl⟩ := List.mem_map.mp member
    exact Nat.zero_le _
  | tail before goes ih =>
    obtain ⟨waiting, went⟩ := goes
    obtain ⟨d, after, ran, -, rfl⟩ := advance_ok went
    rename_i course event depth rest
    obtain ⟨writes, wrote, -⟩ := agreeing.dispatched before waiting ran
    rw [waiting] at ih
    intro item member
    rcases List.mem_append.mp member with waits | behind
    · have earlier := ih item (List.mem_cons_of_mem _ waits)
      change item.2 ≤ after.chain.writes.length
      rw [wrote, List.length_append]
      omega
    · obtain ⟨follow, among, rfl⟩ := List.mem_map.mp behind
      exact agreeing.succ_depth_le before waiting (ih _ List.mem_cons_self) ran
        (List.ne_nil_of_mem among)

theorem once_reaches {course : Course} (reached : e.Reaches s roots course) :
    e.Once s course.turn :=
  (agreeing.keeps_once s roots).reaches (fun _ once => once.of_ids rfl rfl) reached (.start e s)

end Agreeing

/-- Where all reactions set given values and agree on them, a cascade writes every field of every
record at most once, whether it fails in the end or not; and if the depth limit is at least the
number of declared fields of all stored records, it does not fail at that limit. -/
theorem propagate_agreeing (agreeing : e.Agreeing) (roots : List Event) (s : Store) :
    ((e.drain (.start s roots)).2.turn.chain.writes.flatMap Write.cells).Pairwise
        (fun a b => (a == b) = false) ∧
      ((s.cells e.catalog).length ≤ e.depthLimit → ∀ depth limit,
        (exec (e.propagate roots) s).1 ≠ .error (.cascadeLimit depth limit)) := by
  have keeps := agreeing.keeps_once s roots
  have fresh (turn : Turn) : Stays (e.Once s) turn { turn with followUps := [] } :=
    fun once => once.of_ids rfl rfl
  refine ⟨(keeps.drain fresh (.start e s)).once, fun wide depth limit failed => ?_⟩
  obtain ⟨last, stopped, reached, stops⟩ := propagate_error_iff.mp failed
  obtain ⟨event, level, rest, waiting, went⟩ := stops.waits
  rcases advance_error went with refused | ⟨d, after, ran, follows, beyond, -⟩
  · exact e.dispatchLoaded_fails _ _ _ refused depth limit rfl
  · have before : level ≤ last.turn.chain.writes.length := by
      refine agreeing.depth_le reached (event, level) ?_
      rw [waiting]
      exact List.mem_cons_self
    have deeper := agreeing.succ_depth_le reached waiting before ran follows
    have once : e.Once s after := by
      have kept := keeps.dispatchLoaded_fresh fresh reached waiting (agreeing.once_reaches reached)
      rwa [show exec (e.dispatchLoaded (last.place event)) last.turn = _ from ran] at kept
    have bounded := once.length_le
    omega

theorem propagate_mark :
    let mark : Reaction :=
      { schema := .text "Node", event := .modified, scope := .parent
        action := .set [("mark", .value (.text "seen"))] }
    let node : Schema :=
      { name := .text "Node"
        fields := [{ name := "peer", kind := .known .reference, refer := .text "Node" },
          { name := "mark", kind := .known .text }] }
    let e : Engine :=
      { catalog := { schemas := [(.text "Node", node)] }, rules := { reactions := [mark] } }
    let s : Store := { tables := [(.text "Node", [(.text "a", [("peer", .text "b")]),
      (.text "b", [("peer", .text "a")])])] }
    e.Agreeing ∧ (s.cells e.catalog).length ≤ e.depthLimit ∧
      ∀ roots depth limit, (exec (e.propagate roots) s).1 ≠ .error (.cascadeLimit depth limit) := by
  intro mark node e s
  have only (r : Reaction) (listed : r ∈ e.rules.reactions) (field : String) (v : Value)
      (assigns : r.Assigns field v) : v = .text "seen" := by
    obtain ⟨assignments, sets, inside⟩ := assigns
    rw [List.mem_singleton.mp listed] at sets
    obtain rfl := Action.set.inj sets
    cases List.mem_singleton.mp inside
    rfl
  have agreeing : e.Agreeing := by
    constructor
    case sets =>
      intro r listed
      rw [List.mem_singleton.mp listed]
      refine ⟨_, rfl, fun entry inside => ?_⟩
      rw [List.mem_singleton.mp inside]
      exact ⟨_, rfl⟩
    case agree =>
      intro r listed q also field v w assigns assigned _
      rw [only r listed field v assigns, only q also field w assigned]
      decide
  have wide : (s.cells e.catalog).length ≤ e.depthLimit := by decide
  exact ⟨agreeing, wide, fun roots => (propagate_agreeing agreeing roots s).2 wide⟩

end Engine

end RecordRules
