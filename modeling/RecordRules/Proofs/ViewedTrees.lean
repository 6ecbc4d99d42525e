import RecordRules.Proofs.ShownRecords

/-!
Viewing what was created. The children of a record are found again by the ids in the rows. Main
statement: if nothing else mentions these ids, then each record finds its own children, in their
order, and so a payload is viewed as it was created.
-/
namespace RecordRules

open Step

namespace Engine

variable {e : Engine} {k v : Contract} {r : Record} {s t : Store}

/-- Records have been added to the rows, and neither older rows nor defaults mention their ids. -/
structure Secluded (e : Engine) (s t : Store) (records : List Record) : Prop where
  adds : s.Adds t records
  known : ∀ q ∈ records, ∃ definition, (q.schema, definition) ∈ e.catalog.schemas
  rows : ∀ q ∈ records, e.SparesRows s q.id
  defaults : ∀ q ∈ records, e.SparesDefaults q.id

structure Sealed (e : Engine) (all before records after : List Record) : Prop where
  split : all = before ++ records ++ after
  apart : ∀ q ∈ before ++ after, ∀ x ∈ records, e.points q x = false

/-- Among all records, those that hang on a parent refer to it and to each other only, and what
refers to the parent is of such a kind. -/
def Hangs (e : Engine) (all : List Record) (p : Record) (kind : Record → Prop)
    (records : List Record) : Prop :=
  ∀ x ∈ all, ∀ q ∈ records, e.points q x = true →
    ((p.key == x.key) = true ∧ kind q) ∨ ∃ y ∈ records, (y.key == x.key) = true

variable {all before after here later : List Record}

theorem keys_apart {xs ys : List Record} (adds : s.Adds t all) (split : all = xs ++ ys)
    {x y : Record} (hx : x ∈ xs) (hy : y ∈ ys) :
    (x.key == y.key) = false ∧ (y.key == x.key) = false := by
  have apart := adds.apart
  rw [split] at apart
  have different := (List.pairwise_append.mp apart).2.2 x hx y hy
  exact ⟨different, BEq.comm.trans different⟩

theorem filter_of_split {α : Type} {keep : α → Bool} {xs before here after : List α}
    (split : xs = before ++ here ++ after) (others : ∀ q ∈ before ++ after, keep q = false) :
    xs.filter keep = here.filter keep := by
  have none (ys : List α) (part : ∀ q ∈ ys, q ∈ before ++ after) : ys.filter keep = [] :=
    List.filter_eq_nil_iff.mpr fun q listed => Bool.eq_false_iff.mp (others q (part q listed))
  rw [split, List.filter_append, List.filter_append,
    none before fun _ => List.mem_append_left _, none after fun _ => List.mem_append_right _,
    List.nil_append, List.append_nil]

namespace Hangs

variable {p : Record} {kind : Record → Prop} {records : List Record}

theorem points_eq_false (hangs : e.Hangs all p kind records) {x : Record} (inside : x ∈ all)
    (parent : (p.key == x.key) = false) (others : ∀ y ∈ records, (y.key == x.key) = false) :
    ∀ q ∈ records, e.points q x = false := by
  intro q listed
  rw [← Bool.not_eq_true]
  intro points
  rcases hangs x inside q listed points with ⟨same, -⟩ | ⟨y, among, same⟩
  · rw [parent] at same
    cases same
  · rw [others y among] at same
    cases same

theorem isChild_eq_false (hangs : e.Hangs all p kind records) (inside : p ∈ all)
    (others : ∀ y ∈ records, (y.key == p.key) = false) {child : ChildRequirement}
    (unlike : ∀ q, kind q → child.schema.names q.schema = false) :
    ∀ q ∈ records, e.isChild child p q = false := by
  intro q listed
  cases points : e.points q p with
  | false => rw [isChild, points, Bool.and_false]
  | true =>
    rcases hangs p inside q listed points with ⟨-, kind⟩ | ⟨y, among, same⟩
    · rw [isChild, unlike q kind, Bool.false_and]
    · rw [others y among] at same
      cases same

end Hangs

namespace Sealed

variable {records : List Record} {p x : Record}

theorem mem (closed : e.Sealed all before records after) (among : x ∈ records) : x ∈ all := by
  rw [closed.split]
  exact List.mem_append_left _ (List.mem_append_right _ among)

theorem mem_of_before (closed : e.Sealed all before records after) (inside : p ∈ before) :
    p ∈ all := by
  rw [closed.split]
  exact List.mem_append_left _ (List.mem_append_left _ inside)

theorem unlike (closed : e.Sealed all before records after) (adds : s.Adds t all)
    (inside : p ∈ before) (among : x ∈ records) :
    (p.key == x.key) = false ∧ (x.key == p.key) = false :=
  keys_apart adds (closed.split.trans (List.append_assoc ..)) inside (List.mem_append_left _ among)

/-- Of two groups of records that hang on the same parent, each stands for itself. -/
theorem divide (closed : e.Sealed all before (here ++ later) after) (adds : s.Adds t all)
    (inside : p ∈ before) {kind other : Record → Prop} (first : e.Hangs all p kind here)
    (second : e.Hangs all p other later) :
    e.Sealed all before here (later ++ after) ∧ e.Sealed all (before ++ here) later after := by
  have middle : all = before ++ here ++ (later ++ after) := by
    rw [closed.split]
    simp only [List.append_assoc]
  have right : all = before ++ here ++ later ++ after := by
    rw [closed.split]
    simp only [List.append_assoc]
  have between (x : Record) (hx : x ∈ here) (y : Record) (hy : y ∈ later) :=
    keys_apart adds middle (List.mem_append_right _ hx) (List.mem_append_left _ hy)
  constructor
  · refine ⟨middle, fun q among x listed => ?_⟩
    have both := List.mem_append_left later listed
    rcases List.mem_append.mp among with early | late
    · exact closed.apart q (List.mem_append_left _ early) x both
    · rcases List.mem_append.mp late with sibling | last
      · exact second.points_eq_false (closed.mem both) (closed.unlike adds inside both).1
          (fun y here => (between x listed y here).2) q sibling
      · exact closed.apart q (List.mem_append_right _ last) x both
  · refine ⟨right, fun q among x listed => ?_⟩
    have both := List.mem_append_right here listed
    rcases List.mem_append.mp among with early | late
    · rcases List.mem_append.mp early with earlier | sibling
      · exact closed.apart q (List.mem_append_left _ earlier) x both
      · exact first.points_eq_false (closed.mem both) (closed.unlike adds inside both).1
          (fun y here => (between y here x listed).1) q sibling
    · exact closed.apart q (List.mem_append_right _ late) x both

end Sealed

theorem not_names_of_apart (plain : e.Plain) (composes : e.Composes k)
    {child other : ChildRequirement} (here : child ∈ k.children) (there : other ∈ k.children)
    (apart : child.schema.same other.schema = false) {schema : Key}
    (names : child.schema.names schema = true) : other.schema.names schema = false := by
  obtain ⟨key, -, given, -⟩ := composes.nested plain.fits here
  obtain ⟨another, -, named, -⟩ := composes.nested plain.fits there
  rw [Key.eq_of_ofValue given, Key.eq_of_ofValue named, Value.same_toValue] at apart
  rw [Value.names_of_key given] at names
  rw [Value.names_of_key named, ← Bool.not_eq_true]
  intro also
  rw [PartialEquivBEq.trans names (BEq.symm also)] at apart
  cases apart

theorem names_of_showsBelow {entries under : Entries} {requirements : List ChildRequirement}
    {records : List Record} : e.ShowsBelow k entries r requirements records under →
      under.names = requirements.map fun child => child.key.embedded
  | .nil => rfl
  | .cons _ _ others => congrArg (_ :: ·) (names_of_showsBelow others)

theorem hangs_of_createsEach (plain : e.Plain) (secluded : e.Secluded s t all) {p : Record}
    {items : List Value} {records : List Record} (creates : e.CreatesEach k p items records)
    (composes : e.Composes k) (under : k.Under (some p))
    (payload : ∀ x ∈ all, ∀ item ∈ items, ∀ w, e.Gives k item w → w.names x.id = false) :
    e.Hangs all p (fun q => k.schema.name.names q.schema = true) records :=
  fun x inside => points_of_createsEach plain.fits plain.references (secluded.defaults x inside)
    creates composes under (payload x inside)

theorem hangs_of_createsBelow (plain : e.Plain) (secluded : e.Secluded s t all)
    {entries : Entries} {requirements : List ChildRequirement} {records : List Record}
    (creates : e.CreatesBelow k entries r requirements records) (composes : e.Composes k)
    (named : Key.ofValue k.schema.name = .ok r.schema)
    (listed : ∀ child ∈ requirements, child ∈ k.children)
    (payload : ∀ x ∈ all, ∀ w, e.Gives k (.object entries) w → w.names x.id = false) :
    e.Hangs all r (fun q => ∃ child ∈ requirements, child.schema.names q.schema = true) records :=
  fun x inside => points_of_createsBelow plain.fits plain.references (secluded.defaults x inside)
    creates composes named listed (payload x inside)

theorem hangs_of_creates (plain : e.Plain) (secluded : e.Secluded s t all) {p : Record}
    {item : Value} {records : List Record} (creates : e.Creates k (some p) item records)
    (composes : e.Composes k) (under : k.Under (some p))
    (payload : ∀ x ∈ all, ∀ w, e.Gives k item w → w.names x.id = false) :
    e.Hangs all p (fun q => k.schema.name.names q.schema = true) records := by
  intro x inside q listed points
  have refers := points_of_creates plain.fits plain.references (secluded.defaults x inside) creates
    composes under (payload x inside) q listed points
  rcases refers with ⟨parent, given, same⟩ | own
  · obtain rfl := Option.some.inj given
    exact .inl same
  · exact .inr own

theorem filter_isChild (plain : e.Plain) (secluded : e.Secluded s t all) {p : Record}
    {item : Value} {records : List Record} {child : ChildRequirement}
    (creates : e.Creates k (some p) item records) (composes : e.Composes k)
    (named : ∀ key, k.schema.name.names key = true → child.schema.names key = true)
    (payload : ∀ x ∈ all, ∀ w, e.Gives k item w → w.names x.id = false) (inside : p ∈ all)
    (apart : ∀ x ∈ records, (x.key == p.key) = false) :
    records.filter (e.isChild child p) = records.head?.toList := by
  cases creates with
  | @object _ _ entries r below _ row children =>
    obtain ⟨found, present⟩ := composes.get?_of_named plain.fits row.schema
    have first : e.isChild child p r = true := by
      obtain ⟨f, declared, refers, -, value⟩ := row.referBack p rfl
      refine Bool.and_eq_true_iff.mpr ⟨named _ ?_, ?_⟩
      · rw [Value.names_of_key row.schema]
        exact BEq.rfl
      · rw [points, found]
        refine List.any_eq_true.mpr ⟨f, declared, Bool.and_eq_true_iff.mpr ⟨refers, ?_⟩⟩
        rw [Entries.get, value]
        exact (Value.same_toValue p.id p.id).trans BEq.rfl
    have others : below.filter (e.isChild child p) = [] := by
      rw [List.filter_eq_nil_iff]
      intro q later isChild
      have hangs := hangs_of_createsBelow plain secluded children composes row.schema
        (fun child listed => listed) payload
      have elsewhere := hangs.points_eq_false inside (apart r List.mem_cons_self)
        (fun x among => apart x (List.mem_cons_of_mem r among)) q later
      rw [(Bool.and_eq_true_iff.mp isChild).2] at elsewhere
      cases elsewhere
    rw [List.filter_cons_of_pos first, others]
    rfl

theorem related_yields_here (plain : e.Plain) (secluded : e.Secluded s t all) (reads : e.Reads k v)
    {child : ChildRequirement} (listed : child ∈ k.children)
    (named : Key.ofValue k.schema.name = .ok r.schema) (inside : r ∈ all)
    (split : all = before ++ here ++ after)
    (foreign : ∀ q ∈ before ++ after, e.isChild child r q = false) :
    Yields (Store.SameRows t) (Store.related e.catalog r .child child.schema)
      (.ok (here.filter (e.isChild child r))) := by
  have among : child ∈ v.children := (reads.mirrored plain).children ▸ listed
  have called : Key.ofValue v.schema.name = .ok r.schema := by rw [reads.schema, named]
  have found : t.children e.catalog r child.schema = all.filter (e.isChild child r) :=
    children_eq_filter plain.mirrors plain.fits plain.references (reads.views plain named) called
      among secluded.adds (secluded.rows r inside) secluded.known
  rw [← filter_of_split split foreign, ← found]
  exact Store.related_yields t e.catalog r .child child.schema

mutual

/-- A created record is viewed as its payload says, with any number of levels from the number of its
records on. -/
theorem views_of_creates (plain : e.Plain) (secluded : e.Secluded s t all) {k : Contract}
    {parent : Option Record} {item : Value} {records : List Record} :
    e.Creates k parent item records → ∀ {before after : List Record} {v : Contract} {levels : Nat},
      e.Sealed all before records after → e.Reads k v → k.Under parent →
        (∀ p, parent = some p → p ∈ before) →
          (∀ x ∈ all, ∀ w, e.Gives k item w → w.names x.id = false) → records.length ≤ levels →
            ∃ r w, records.head? = some r ∧
              Yields (Store.SameRows t) (e.viewWithin levels v r) (.ok w) ∧
                e.Shows k parent item records w
  | @Creates.object _ _ _ entries r below allowed row children, before, after, v, levels, closed,
      reads, under, above, payload, enough => by
    obtain ⟨levels, rfl⟩ : ∃ n, levels = n + 1 :=
      Nat.exists_eq_succ_of_ne_zero (Nat.pos_iff_ne_zero.mp (Nat.zero_lt_of_lt enough))
    have fits := plain.fits
    -- The record itself refers to its parent only, which stands before it.
    have upwards (x : Record) (among : x ∈ r :: below) : e.points r x = false := by
      rw [← Bool.not_eq_true]
      intro points
      obtain ⟨p, given, same⟩ := points_of_fills fits plain.references reads.creates under row
        (secluded.defaults x (closed.mem among)) (payload x (closed.mem among)) points
      rw [(closed.unlike secluded.adds (above p given) among).1] at same
      cases same
    have outside (q : Record) (among : q ∈ before ++ [r] ++ after) (x : Record)
        (inside : x ∈ r :: below) : e.points q x = false := by
      rcases List.mem_append.mp among with early | late
      · rcases List.mem_append.mp early with earlier | self
        · exact closed.apart q (List.mem_append_left _ earlier) x inside
        · rw [List.mem_singleton.mp self]
          exact upwards x inside
      · exact closed.apart q (List.mem_append_right _ late) x inside
    have closedBelow : e.Sealed all (before ++ [r]) below after :=
      ⟨by rw [closed.split, List.append_assoc before [r], List.singleton_append],
        fun q among x inside => outside q among x (List.mem_cons_of_mem r inside)⟩
    have foreign (child : ChildRequirement) (_ : child ∈ k.children) (q : Record)
        (among : q ∈ before ++ [r] ++ after) : e.isChild child r q = false := by
      rw [isChild, outside q among r List.mem_cons_self, Bool.and_false]
    obtain ⟨shown, collected, shows⟩ := views_of_createsBelow plain secluded children closedBelow
      reads (List.mem_append_right _ List.mem_cons_self) row.schema (fun child given => given)
      (plain.mirrors.children_apart fits reads.creates reads.viewing).2.2 payload foreign
      (Nat.le_of_succ_le_succ enough)
    refine ⟨r, _, rfl, ?_, .object allowed shows⟩
    have mirrored := reads.mirrored plain
    have known : (e.catalog.get? r.schema).isSome = true := by
      rw [(reads.creates.get?_of_named fits row.schema).1]
      rfl
    rw [← mirrored.children] at collected
    have ordered := entries_of_view plain.mirrors fits reads.creates reads.create mirrored under row
      (names_of_showsBelow shows)
    rw [← ordered]
    refine yields_ok_bind (stateOf_yields fits plain.quiet known) (yields_ok_bind collected ?_)
    exact yields_ok_bind (yields_ofExcept (.ok (Value.object [("fields", .object [])])))
      (yields_pure _)

theorem views_of_createsBelow (plain : e.Plain) (secluded : e.Secluded s t all) {k : Contract}
    {entries : Entries} {r : Record} {requirements : List ChildRequirement}
    {records : List Record} :
    e.CreatesBelow k entries r requirements records →
      ∀ {before after : List Record} {v : Contract} {levels : Nat},
        e.Sealed all before records after → e.Reads k v → r ∈ before →
          Key.ofValue k.schema.name = .ok r.schema → (∀ child ∈ requirements, child ∈ k.children) →
            requirements.Pairwise (fun child other => child.schema.same other.schema = false) →
              (∀ x ∈ all, ∀ w, e.Gives k (.object entries) w → w.names x.id = false) →
                (∀ child ∈ requirements, ∀ q ∈ before ++ after, e.isChild child r q = false) →
                  records.length ≤ levels →
                    ∃ under, Yields (Store.SameRows t)
                        (collectAll (e.shownUnder (e.viewWithin levels) v r) requirements)
                        (.ok under) ∧
                      e.ShowsBelow k entries r requirements records under
  | .nil, _, _, _, _, _, _, _, _, _, _, _, _, _ => ⟨[], yields_pure _, .nil⟩
  | @CreatesBelow.cons _ _ _ _ child rest here later single items others, before, after, v, levels,
      closed, reads, inside, named, listed, different, payload, foreign, enough => by
    rw [List.forall_mem_cons] at listed foreign
    rw [List.length_append] at enough
    obtain ⟨apart, different⟩ := List.pairwise_cons.mp different
    have fits := plain.fits
    have nested := reads.nested plain listed.1
    have under := (reads.creates.below fits listed.1 named).2
    have within : ∀ x ∈ all, ∀ item ∈ child.items entries, ∀ w,
        e.Gives (e.contracts.nested e.catalog k child) item w → w.names x.id = false :=
      fun x among item given w gives => payload x among w (.nested listed.1 given gives)
    have hangs := hangs_of_createsEach plain secluded items nested.creates under within
    have more := hangs_of_createsBelow plain secluded others reads.creates named listed.2 payload
    obtain ⟨closedHere, closedLater⟩ := closed.divide secluded.adds inside hangs more
    have inAll := closed.mem_of_before inside
    -- The other children of the record are of other schemas.
    have unlike (q : Record) (other : ChildRequirement) (given : other ∈ rest)
        (names : child.schema.names q.schema = true) : other.schema.names q.schema = false :=
      not_names_of_apart plain reads.creates listed.1 (listed.2 other given) (apart other given)
        names
    have foreignHere : ∀ q ∈ before ++ (later ++ after), e.isChild child r q = false := by
      intro q elsewhere
      rcases List.mem_append.mp elsewhere with early | late
      · exact foreign.1 q (List.mem_append_left _ early)
      · rcases List.mem_append.mp late with sibling | last
        · refine more.isChild_eq_false inAll
            (fun y among => (closedLater.unlike secluded.adds (List.mem_append_left _ inside)
              among).2) ?_ q sibling
          rintro x ⟨other, given, names⟩
          rw [← Bool.not_eq_true]
          intro also
          rw [unlike x other given also] at names
          cases names
        · exact foreign.1 q (List.mem_append_right _ last)
    have foreignLater : ∀ other ∈ rest, ∀ q ∈ before ++ here ++ after,
        e.isChild other r q = false := by
      intro other given q elsewhere
      rcases List.mem_append.mp elsewhere with early | late
      · rcases List.mem_append.mp early with earlier | sibling
        · exact foreign.2 other given q (List.mem_append_left _ earlier)
        · exact hangs.isChild_eq_false inAll
            (fun y among => (closedHere.unlike secluded.adds inside among).2)
            (fun x names =>
              unlike x other given (reads.creates.names_of_nested fits listed.1 names)) q sibling
      · exact foreign.2 other given q (List.mem_append_right _ late)
    obtain ⟨views, viewed, each⟩ := views_of_createsEach plain secluded items closedHere nested
      under inside (fun key => reads.creates.names_of_nested fits listed.1) within
      (Nat.le_of_add_right_le enough)
    obtain ⟨shown, collected, shows⟩ := views_of_createsBelow plain secluded others closedLater
      reads (List.mem_append_left _ inside) named listed.2 different payload foreignLater
      (Nat.le_of_add_left_le enough)
    have related := related_yields_here plain secluded reads listed.1 named inAll closedHere.split
      foreignHere
    exact ⟨_, yields_collectAll (yields_ok_bind related (yields_ok_bind viewed (yields_pure _)))
      collected, .cons single each shows⟩

theorem views_of_createsEach (plain : e.Plain) (secluded : e.Secluded s t all) {k : Contract}
    {p : Record} {items : List Value} {records : List Record} :
    e.CreatesEach k p items records →
      ∀ {before after : List Record} {v : Contract} {levels : Nat} {child : ChildRequirement},
        e.Sealed all before records after → e.Reads k v → k.Under (some p) → p ∈ before →
          (∀ key, k.schema.name.names key = true → child.schema.names key = true) →
            (∀ x ∈ all, ∀ item ∈ items, ∀ w, e.Gives k item w → w.names x.id = false) →
              records.length ≤ levels →
                ∃ views, Yields (Store.SameRows t)
                    (collectAll (e.viewWithin levels v) (records.filter (e.isChild child p)))
                    (.ok views) ∧
                  e.ShowsEach k p items records views
  | .nil, _, _, _, _, _, _, _, _, _, _, _, _ => ⟨[], yields_pure _, .nil⟩
  | @CreatesEach.cons _ _ _ item rest here later first others, before, after, v, levels, child,
      closed, reads, under, inside, named, payload, enough => by
    rw [List.length_append] at enough
    have here_payload (x : Record) (among : x ∈ all) := payload x among item List.mem_cons_self
    have later_payload (x : Record) (among : x ∈ all) (other : Value) (given : other ∈ rest) :=
      payload x among other (List.mem_cons_of_mem _ given)
    have hangs := hangs_of_creates plain secluded first reads.creates under here_payload
    have more := hangs_of_createsEach plain secluded others reads.creates under later_payload
    obtain ⟨closedHere, closedLater⟩ := closed.divide secluded.adds inside hangs more
    obtain ⟨r, w, head, viewed, shows⟩ := views_of_creates plain secluded first closedHere reads
      under (by rintro q ⟨⟩; exact inside) here_payload (Nat.le_of_add_right_le enough)
    obtain ⟨views, collected, each⟩ := views_of_createsEach plain secluded others closedLater reads
      under (List.mem_append_left _ inside) named later_payload (Nat.le_of_add_left_le enough)
    refine ⟨w :: views, ?_, .cons shows each⟩
    have found := filter_isChild plain secluded first reads.creates named here_payload
      (closed.mem_of_before inside) fun y among => (closedHere.unlike secluded.adds inside among).2
    rw [List.filter_append, found, head]
    exact yields_collectAll viewed collected

end

end Engine

end RecordRules
