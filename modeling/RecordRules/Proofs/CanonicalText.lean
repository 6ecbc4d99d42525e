import RecordRules.Proofs.NameOrder
import RecordRules.Proofs.WrittenTexts

/-!
The canonical text of values without rounded numbers. What is written for a value can be told from
what follows it; the entries of an object are written in the order of their names, in whatever
order they were given. Main statement: two values have the same canonical text if and only if they
are equivalent, that is, the same up to the order of entries, with truth values and whole numbers
kept apart.
-/
namespace RecordRules

namespace Value

/-- Plain data whose numbers are whole. No object in it has two entries of one name. -/
inductive Exact : Value → Prop where
  | null : Exact .null
  | bool (b : Bool) : Exact (.bool b)
  | int (n : Int) : Exact (.int n)
  | text (s : String) : Exact (.text s)
  | list {items : List Value} (each : ∀ v ∈ items, Exact v) : Exact (.list items)
  | object {entries : Entries} (distinct : entries.names.Nodup)
      (each : ∀ entry ∈ entries, Exact entry.2) : Exact (.object entries)

/-- Sameness of plain data that keeps the kinds apart and ignores the order of entries. -/
inductive Equivalent : Value → Value → Prop where
  | null : Equivalent .null .null
  | bool (b : Bool) : Equivalent (.bool b) (.bool b)
  | int (n : Int) : Equivalent (.int n) (.int n)
  | text (s : String) : Equivalent (.text s) (.text s)
  | list {as bs : List Value} (each : List.Forall₂ Equivalent as bs) :
      Equivalent (.list as) (.list bs)
  | object {as bs : Entries}
      (each : ∀ name, Option.Rel Equivalent (as.find? name) (bs.find? name)) :
      Equivalent (.object as) (.object bs)

end Value

namespace Canonical

variable {v w : Value} {rest rest' : List Char}

theorem writeItems_eq_map (items : List Value) : writeItems items = items.map write := by
  induction items with
  | nil => rfl
  | cons v rest ih => rw [writeItems, ih, List.map_cons]

theorem writeEntries_eq_map (entries : Entries) :
    writeEntries entries = entries.map fun entry => (entry.1, write entry.2) := by
  induction entries with
  | nil => rfl
  | cons entry rest ih => rw [writeEntries, ih, List.map_cons]

theorem join_cons (member : List Char) (rest : List (List Char)) :
    join (member :: rest) = member ++ rest.flatMap (',' :: ·) := by
  induction rest generalizing member with
  | nil => simp [join]
  | cons next rest ih =>
    change member ++ ',' :: join (next :: rest) = _
    rw [ih, List.flatMap_cons, List.cons_append]

def writeEntry (entry : String × Value) : List Char := writeText entry.1 ++ ':' :: write entry.2

theorem write_object (entries : Entries) : write (.object entries) =
    '\x7b' :: join (entries.inOrder.map writeEntry) ++ ['\x7d'] := by
  have sorted : entries.inOrder.map (fun entry => (entry.1, write entry.2)) =
      (writeEntries entries).insertionSort fun a b => a.1 ≤ b.1 := by
    rw [writeEntries_eq_map]
    exact List.map_insertionSort _ _ _ _ fun _ _ _ _ => Iff.rfl
  rw [write, writeObject, Text.sortBy_eq_insertionSort, ← sorted, List.map_map]
  rfl

theorem write_list (items : List Value) :
    write (.list items) = '[' :: join (items.map write) ++ [']'] := by
  rw [write, writeItems_eq_map]

section

variable {α : Type} {part : α → List Char} {related : α → α → Prop} {close : Char}

/-- Two parts are told from what is written, wherever a number would end. -/
def Reads (part : α → List Char) (related : α → α → Prop) (x y : α) : Prop :=
  ∀ rest rest', Ends rest → Ends rest' → part x ++ rest = part y ++ rest' →
    related x y ∧ rest = rest'

theorem ends_cons {c : Char} (other : isNumeral c = false) (rest : List Char) :
    Ends (c :: rest) := by
  intro d first
  rwa [← Option.some.inj first]

theorem ends_tails (closes : isNumeral close = false) (xs : List α) (rest : List Char) :
    Ends (xs.flatMap (fun x => ',' :: part x) ++ close :: rest) := by
  cases xs with
  | nil => exact ends_cons closes rest
  | cons x xs => exact ends_cons rfl _

theorem tails_read (closes : isNumeral close = false) (apart : close ≠ ',') {xs ys : List α}
    (reads : ∀ x ∈ xs, ∀ y ∈ ys, Reads part related x y)
    (same : xs.flatMap (fun x => ',' :: part x) ++ close :: rest =
      ys.flatMap (fun y => ',' :: part y) ++ close :: rest') :
    List.Forall₂ related xs ys ∧ rest = rest' := by
  induction xs generalizing ys with
  | nil =>
    cases ys with
    | nil => exact ⟨.nil, (List.cons.inj same).2⟩
    | cons y ys => exact absurd (List.cons.inj same).1 apart
  | cons x xs ih =>
    cases ys with
    | nil => exact absurd (List.cons.inj same).1.symm apart
    | cons y ys =>
      simp only [List.flatMap_cons, List.cons_append, List.append_assoc, List.cons.injEq,
        true_and] at same
      obtain ⟨first, later⟩ := reads x List.mem_cons_self y List.mem_cons_self _ _
        (ends_tails closes xs rest) (ends_tails closes ys rest') same
      obtain ⟨others, ended⟩ := ih (fun x hx y hy =>
        reads x (List.mem_cons_of_mem _ hx) y (List.mem_cons_of_mem _ hy)) later
      exact ⟨.cons first others, ended⟩

def Opens (part : α → List Char) (close : Char) (x : α) : Prop :=
  ∃ c cs, part x = c :: cs ∧ c ≠ close

theorem close_ne_part {x : α} (opens : Opens part close x) (rest more : List Char) :
    close :: rest ≠ part x ++ more := by
  obtain ⟨c, cs, written, other⟩ := opens
  rw [written]
  exact fun same => other (List.cons.inj same).1.symm

theorem joined_read (closes : isNumeral close = false) (apart : close ≠ ',') {xs ys : List α}
    (opens : ∀ x ∈ xs, Opens part close x) (opens' : ∀ y ∈ ys, Opens part close y)
    (reads : ∀ x ∈ xs, ∀ y ∈ ys, Reads part related x y)
    (same : join (xs.map part) ++ close :: rest = join (ys.map part) ++ close :: rest') :
    List.Forall₂ related xs ys ∧ rest = rest' := by
  have tails (z : α) (zs : List α) :
      (z :: zs).flatMap (fun z => ',' :: part z) = ',' :: join ((z :: zs).map part) := by
    rw [List.map_cons, join_cons, List.flatMap_cons, List.flatMap_map]
    rfl
  cases xs with
  | nil =>
    cases ys with
    | nil => exact ⟨.nil, (List.cons.inj same).2⟩
    | cons y ys =>
      rw [List.map_cons, join_cons, List.append_assoc] at same
      exact absurd same (close_ne_part (opens' y List.mem_cons_self) _ _)
  | cons x xs =>
    cases ys with
    | nil =>
      rw [List.map_cons, join_cons, List.append_assoc] at same
      exact absurd same.symm (close_ne_part (opens x List.mem_cons_self) _ _)
    | cons y ys =>
      refine tails_read closes apart reads ?_
      rw [tails, tails, List.cons_append, List.cons_append, same]

end

def kindAt : List Char → String
  | 'n' :: _ => "NoneType"
  | 't' :: _ | 'f' :: _ => "bool"
  | '"' :: _ => "str"
  | '[' :: _ => "list"
  | '\x7b' :: _ => "dict"
  | _ => "int"

theorem kindAt_write (exact : v.Exact) (rest : List Char) :
    kindAt (write v ++ rest) = v.kindName := by
  cases exact with
  | null | text _ => rfl
  | bool b => cases b <;> rfl
  | int n =>
    obtain ⟨c, cs, written, numeral⟩ := writeInt_cons n
    rw [write, written, List.cons_append]
    unfold kindAt
    split
    case h_7 => rfl
    all_goals
      rename_i same
      rw [(List.cons.inj same).1] at numeral
      cases numeral
  | list each => rfl
  | object distinct each => rfl

theorem reads_of_kind (hv : v.Exact) (hw : w.Exact)
    (level : v.kindName = w.kindName → Reads write Value.Equivalent v w) :
    Reads write Value.Equivalent v w := by
  intro rest rest' ends ends' same
  have kinds : v.kindName = w.kindName := by
    rw [← kindAt_write hv rest, same, kindAt_write hw rest']
  exact level kinds rest rest' ends ends' same

theorem opens_write (exact : v.Exact) : Opens write ']' v := by
  cases exact with
  | null => exact ⟨'n', _, rfl, by decide⟩
  | bool b => cases b <;> exact ⟨_, _, rfl, by decide⟩
  | int n =>
    obtain ⟨c, cs, written, numeral⟩ := writeInt_cons n
    refine ⟨c, cs, written, ?_⟩
    rintro rfl
    cases numeral
  | text _ => exact ⟨'"', _, rfl, by decide⟩
  | list each => exact ⟨'[', _, rfl, by decide⟩
  | object distinct each => exact ⟨'\x7b', _, rfl, by decide⟩

theorem opens_writeEntry (entry : String × Value) : Opens writeEntry '\x7d' entry :=
  ⟨'"', _, rfl, by decide⟩

theorem reads_writeEntry {entry other : String × Value}
    (reads : Reads write Value.Equivalent entry.2 other.2) :
    Reads writeEntry (Keyed.Matches Value.Equivalent) entry other := by
  intro rest rest' ends ends' same
  rw [writeEntry, writeEntry, List.append_assoc, List.append_assoc] at same
  obtain ⟨names, values⟩ := writeText_reads same
  obtain ⟨alike, ended⟩ := reads rest rest' ends ends' (List.cons.inj values).2
  exact ⟨⟨names, alike⟩, ended⟩

theorem reads_write (hv : v.Exact) (hw : w.Exact) : Reads write Value.Equivalent v w := by
  refine reads_of_kind hv hw fun kinds => ?_
  induction hv generalizing w with
  | null =>
    cases hw with
    | null => exact fun _ _ _ _ same => ⟨.null, List.append_cancel_left same⟩
    | _ => simp [Value.kindName] at kinds
  | bool b =>
    cases hw with
    | bool c =>
      intro rest rest' ends ends' same
      cases b <;> cases c
      · exact ⟨.bool false, List.append_cancel_left same⟩
      · cases (List.cons.inj same).1
      · cases (List.cons.inj same).1
      · exact ⟨.bool true, List.append_cancel_left same⟩
    | _ => simp [Value.kindName] at kinds
  | int m =>
    cases hw with
    | int n =>
      intro rest rest' ends ends' same
      obtain ⟨rfl, ended⟩ := writeInt_reads ends ends' same
      exact ⟨.int m, ended⟩
    | _ => simp [Value.kindName] at kinds
  | text s =>
    cases hw with
    | text t =>
      intro rest rest' ends ends' same
      obtain ⟨rfl, ended⟩ := writeText_reads same
      exact ⟨.text s, ended⟩
    | _ => simp [Value.kindName] at kinds
  | @list items each ih =>
    cases hw with
    | @list others each' =>
      intro rest rest' ends ends' same
      have reads : ∀ v ∈ items, ∀ w ∈ others, Reads write Value.Equivalent v w := fun v hv w hw =>
        reads_of_kind (each v hv) (each' w hw) (ih v hv (each' w hw))
      simp only [write_list, List.cons_append, List.append_assoc, List.nil_append] at same
      obtain ⟨members, ended⟩ := joined_read (by decide) (by decide)
        (fun v member => opens_write (each v member)) (fun w member => opens_write (each' w member))
        reads (List.cons.inj same).2
      exact ⟨.list members, ended⟩
    | _ => simp [Value.kindName] at kinds
  | @object entries distinct each ih =>
    cases hw with
    | @object others distinct' each' =>
      intro rest rest' ends ends' same
      have reads : ∀ entry ∈ entries.inOrder, ∀ other ∈ others.inOrder,
          Reads writeEntry (Keyed.Matches Value.Equivalent) entry other := by
        intro entry here other there
        rw [Keyed.mem_inOrder] at here there
        exact reads_writeEntry (reads_of_kind (each entry here) (each' other there)
          (ih entry here (each' other there)))
      simp only [write_object, List.cons_append, List.append_assoc, List.nil_append] at same
      obtain ⟨members, ended⟩ := joined_read (by decide) (by decide)
        (fun entry _ => opens_writeEntry entry) (fun other _ => opens_writeEntry other)
        reads (List.cons.inj same).2
      exact ⟨.object ((Keyed.forall₂_inOrder_iff distinct distinct').mp members), ended⟩
    | _ => simp [Value.kindName] at kinds

theorem write_eq_of_equivalent (hv : v.Exact) (hw : w.Exact) (same : v.Equivalent w) :
    write v = write w := by
  induction hv generalizing w with
  | null | bool _ | int _ | text _ =>
    cases same
    rfl
  | @list items each ih =>
    cases same with
    | list members =>
      cases hw with
      | list each' =>
        have texts : items.map write = _ := forall₂_eq_iff.mp
          (forall₂_imp_of_mem members fun v here w there => ih v here (each' w there))
        rw [write_list, write_list, texts]
  | @object entries distinct each ih =>
    cases same with
    | @object _ others values =>
      cases hw with
      | object distinct' each' =>
        have members := (Keyed.forall₂_inOrder_iff distinct distinct').mpr values
        have texts : entries.inOrder.map writeEntry = others.inOrder.map writeEntry := by
          refine forall₂_eq_iff.mp
            (forall₂_imp_of_mem members fun entry here other there same => ?_)
          rw [Keyed.mem_inOrder] at here there
          rw [writeEntry, writeEntry, same.1, ih entry here (each' other there) same.2]
        rw [write_object, write_object, texts]

end Canonical

/-- The canonical text says what a value is, up to the order of entries, and nothing else. -/
theorem Value.canonical_eq_iff {v w : Value} (hv : v.Exact) (hw : w.Exact) :
    v.canonical = w.canonical ↔ v.Equivalent w := by
  constructor
  · intro same
    have written : Canonical.write v ++ [] = Canonical.write w ++ [] := by
      rw [List.append_nil, List.append_nil]
      exact String.ofList_injective same
    have ends : Canonical.Ends [] := fun _ none => nomatch none
    exact (Canonical.reads_write hv hw [] [] ends ends written).1
  · intro equivalent
    rw [canonical, canonical, Canonical.write_eq_of_equivalent hv hw equivalent]

end RecordRules
