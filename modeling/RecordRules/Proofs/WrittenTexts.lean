import Mathlib
import RecordRules.Value.Canonical

/-!
Written texts and whole numbers. Each character can be read back from what is written for it,
whatever comes after; so a written text ends where it has to. A whole number ends before what
belongs to no number. Main statements: what begins with two written texts, or with two whole
numbers, begins with the same one.
-/
namespace RecordRules

namespace Text

def ofHexDigit (c : Char) : Nat := if c.toNat < 97 then c.toNat - 48 else c.toNat - 87

def ofHex (cs : List Char) : Nat := cs.foldl (fun n c => 16 * n + ofHexDigit c) 0

theorem ofHexDigit_hexDigit : ∀ n < 16, ofHexDigit (hexDigit n) = n := by decide

theorem ofHex_hex {width n : Nat} (fits : n < 16 ^ width) : ofHex (hex width n) = n := by
  induction width generalizing n with
  | zero =>
    obtain rfl : n = 0 := by simpa using fits
    rfl
  | succ width ih =>
    have earlier : ofHex (hex width (n / 16)) = n / 16 :=
      ih ((Nat.div_lt_iff_lt_mul (by decide)).mpr fits)
    have last : ofHexDigit (hexDigit (n % 16)) = n % 16 :=
      ofHexDigit_hexDigit _ (Nat.mod_lt _ (by decide))
    rw [ofHex] at earlier
    rw [hex, ofHex, List.foldl_append, earlier, List.foldl_cons, List.foldl_nil, last]
    omega

end Text

namespace Canonical

def readUnit (cs : List Char) : Nat × List Char := (Text.ofHex (cs.take 4), cs.drop 4)

/-- A character, read from its units. Units that stand for no character come in pairs; the second
one has a mark of its own. -/
def readUnits (cs : List Char) : Char × List Char :=
  let (first, rest) := readUnit cs
  if 0xD800 ≤ first ∧ first < 0xDC00 then
    let (second, rest) := readUnit (rest.drop 2)
    (Char.ofNat (0x10000 + (first - 0xD800) * 0x400 + (second - 0xDC00)), rest)
  else (Char.ofNat first, rest)

/-- A character, read from what stands behind the mark of an escape. -/
def readEscape : List Char → Option (Char × List Char)
  | 'n' :: rest => some ('\n', rest)
  | 'r' :: rest => some ('\r', rest)
  | 't' :: rest => some ('\t', rest)
  | 'b' :: rest => some ('\x08', rest)
  | 'f' :: rest => some ('\x0c', rest)
  | 'u' :: rest => some (readUnits rest)
  | c :: rest => some (c, rest)
  | [] => none

def readChar : List Char → Option (Char × List Char)
  | '\\' :: rest => readEscape rest
  | c :: rest => some (c, rest)
  | [] => none

variable {rest rest' : List Char}

theorem readUnit_hex {n : Nat} (fits : n < 0x10000) (rest : List Char) :
    readUnit (Text.hex 4 n ++ rest) = (n, rest) := by
  have width := Text.length_hex 4 n
  rw [readUnit, List.take_left' width, List.drop_left' width, Text.ofHex_hex fits]

theorem toNat_valid (c : Char) : c.toNat < 0xD800 ∨ 0xDFFF < c.toNat ∧ c.toNat < 0x110000 := c.valid

theorem readChar_escapeCode (c : Char) (rest : List Char) :
    readChar (escapeCode c.toNat ++ rest) = some (c, rest) := by
  have valid := toNat_valid c
  unfold escapeCode
  split
  · rename_i single
    have unpaired : ¬(0xD800 ≤ c.toNat ∧ c.toNat < 0xDC00) := by omega
    simp only [escapeUnit, List.cons_append, readChar, readEscape, readUnits,
      readUnit_hex single, if_neg unpaired, Char.ofNat_toNat]
  · rename_i pair
    have high : 0xD800 + (c.toNat - 0x10000) / 0x400 < 0xDC00 := by omega
    have low : 0xDC00 + (c.toNat - 0x10000) % 0x400 < 0x10000 := by omega
    have whole : 0x10000 + (0xD800 + (c.toNat - 0x10000) / 0x400 - 0xD800) * 0x400 +
        (0xDC00 + (c.toNat - 0x10000) % 0x400 - 0xDC00) = c.toNat := by omega
    have paired : 0xD800 ≤ 0xD800 + (c.toNat - 0x10000) / 0x400 ∧
        0xD800 + (c.toNat - 0x10000) / 0x400 < 0xDC00 := ⟨by omega, high⟩
    simp only [escapeUnit, List.cons_append, List.append_assoc, readChar, readEscape, readUnits,
      readUnit_hex (Nat.lt_trans high (by decide)), if_pos paired, List.drop_succ_cons,
      List.drop_zero, readUnit_hex low, whole, Char.ofNat_toNat]

theorem readChar_writeChar (c : Char) (rest : List Char) :
    readChar (writeChar c ++ rest) = some (c, rest) := by
  unfold writeChar
  split
  · rename_i marked
    rcases (by simpa using marked : c = '"' ∨ c = '\\') with rfl | rfl <;> rfl
  · rename_i plain
    iterate 5
      split
      · rename_i named
        rw [named]
        rfl
    split
    · have unmarked : c ≠ '\\' := by
        rintro rfl
        exact plain rfl
      rw [List.singleton_append, readChar]
      exact unmarked
    · exact readChar_escapeCode c rest

theorem writeChar_cons (c : Char) : ∃ first more, writeChar c = first :: more ∧ first ≠ '"' := by
  unfold writeChar
  split
  · exact ⟨_, _, rfl, by decide⟩
  · rename_i plain
    iterate 5
      split
      · exact ⟨_, _, rfl, by decide⟩
    split
    · refine ⟨_, _, rfl, ?_⟩
      rintro rfl
      exact plain rfl
    · unfold escapeCode
      split <;> exact ⟨_, _, rfl, by decide⟩

theorem quote_ne_writeChar (c : Char) (rest rest' : List Char) :
    '"' :: rest ≠ writeChar c ++ rest' := by
  obtain ⟨first, more, written, unquoted⟩ := writeChar_cons c
  rw [written]
  exact fun same => unquoted (List.cons.inj same).1.symm

theorem writeChars_reads {cs ds : List Char}
    (same : cs.flatMap writeChar ++ '"' :: rest = ds.flatMap writeChar ++ '"' :: rest') :
    cs = ds ∧ rest = rest' := by
  induction cs generalizing ds with
  | nil =>
    cases ds with
    | nil => exact ⟨rfl, (List.cons.inj same).2⟩
    | cons d ds =>
      rw [List.flatMap_cons, List.append_assoc] at same
      exact absurd same (quote_ne_writeChar d _ _)
  | cons c cs ih =>
    cases ds with
    | nil =>
      rw [List.flatMap_cons, List.append_assoc] at same
      exact absurd same.symm (quote_ne_writeChar c _ _)
    | cons d ds =>
      simp only [List.flatMap_cons, List.append_assoc] at same
      have read := congrArg readChar same
      rw [readChar_writeChar, readChar_writeChar, Option.some.injEq, Prod.mk.injEq] at read
      obtain ⟨rfl, others⟩ := read
      obtain ⟨rfl, ended⟩ := ih others
      exact ⟨rfl, ended⟩

theorem writeText_reads {s t : String} (same : writeText s ++ rest = writeText t ++ rest') :
    s = t ∧ rest = rest' := by
  simp only [writeText, List.cons_append, List.append_assoc, List.nil_append] at same
  obtain ⟨chars, ended⟩ := writeChars_reads (List.cons.inj same).2
  exact ⟨String.toList_injective chars, ended⟩

def isNumeral (c : Char) : Bool := c.isDigit || c == '-'

/-- A number that was written before does not go on here. -/
def Ends (rest : List Char) : Prop := ∀ c ∈ rest.head?, isNumeral c = false

theorem isNumeral_of_mem {n : Int} : ∀ c ∈ (toString n).toList, isNumeral c = true := by
  have digits (m : Nat) : ∀ c ∈ m.repr.toList, isNumeral c = true := by
    intro c member
    rw [Nat.repr_eq_ofList_toDigits, String.toList_ofList] at member
    rw [isNumeral, Nat.isDigit_of_mem_toDigits (by decide) (by decide) member, Bool.true_or]
  intro c member
  rw [show toString n = n.repr from rfl, Int.repr_eq_if] at member
  split at member
  · exact digits _ c member
  · rw [String.toList_append] at member
    rcases List.mem_append.mp member with sign | later
    · rw [List.mem_singleton.mp sign]
      rfl
    · exact digits _ c later

theorem writeInt_cons (n : Int) :
    ∃ c cs, (toString n).toList = c :: cs ∧ isNumeral c = true := by
  cases written : (toString n).toList with
  | cons c cs => exact ⟨c, cs, rfl, isNumeral_of_mem c (written ▸ List.mem_cons_self)⟩
  | nil =>
    rw [show toString n = n.repr from rfl, Int.repr_eq_if] at written
    split at written
    · rw [Nat.repr_eq_ofList_toDigits, String.toList_ofList] at written
      exact absurd written Nat.toDigits_ne_nil
    · rw [String.toList_append] at written
      cases written

theorem takeWhile_of_ends {cs : List Char} (numeral : ∀ c ∈ cs, isNumeral c = true)
    (ends : Ends rest) : (cs ++ rest).takeWhile isNumeral = cs := by
  rw [List.takeWhile_append_of_pos numeral]
  cases rest with
  | nil => simp
  | cons c others => simp [ends c rfl]

theorem writeInt_reads {m n : Int} (ends : Ends rest) (ends' : Ends rest')
    (same : (toString m).toList ++ rest = (toString n).toList ++ rest') : m = n ∧ rest = rest' := by
  have taken := congrArg (List.takeWhile isNumeral) same
  rw [takeWhile_of_ends isNumeral_of_mem ends, takeWhile_of_ends isNumeral_of_mem ends'] at taken
  rw [taken] at same
  exact ⟨Int.repr_injective (String.toList_injective taken), List.append_cancel_left same⟩

end Canonical

end RecordRules
