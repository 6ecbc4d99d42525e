import RecordRules.Text.Lowercase
import RecordRules.Text.Sorted

/-!
Similar texts, to answer a misspelt name with the names that were probably meant. Two texts are
compared by their matching blocks: the longest block that both share, then the blocks shared on
either side of it. The similarity is the share of characters that lie in matching blocks.
-/
namespace RecordRules.Text

/-- Characters so frequent in a long text that no block may start from them: in a text of at
least 200 characters, those which make up more than a hundredth of it. -/
def frequent (word : List Char) : List Char :=
  if word.length < 200 then []
  else (distinct word).filter fun c => word.length / 100 + 1 < word.count c

def commonRun (usable : Char → Bool) : List Char → List Char → Nat
  | a :: as, b :: bs => if a = b && usable a then commonRun usable as bs + 1 else 0
  | _, _ => 0

structure Block where
  left : Nat
  right : Nat
  size : Nat
deriving DecidableEq, Repr

def longestAt (usable : Char → Bool) (as : List Char) (left : Nat) :
    List Char → Nat → Block → Block
  | [], _, best => best
  | b :: bs, right, best =>
    let size := commonRun usable as (b :: bs)
    longestAt usable as left bs (right + 1) (if best.size < size then ⟨left, right, size⟩ else best)

/-- The longest of `best` and all blocks of `as` and `bs`; the earliest one wins a tie. -/
def longestFrom (usable : Char → Bool) (bs : List Char) : List Char → Nat → Block → Block
  | [], _, best => best
  | a :: as, left, best =>
    longestFrom usable bs as (left + 1) (longestAt usable (a :: as) left bs 0 best)

def Block.grow (block : Block) (as bs : List Char) : Block :=
  let back := commonRun (fun _ => true) (as.take block.left).reverse (bs.take block.right).reverse
  let ahead := commonRun (fun _ => true) (as.drop (block.left + block.size))
    (bs.drop (block.right + block.size))
  ⟨block.left - back, block.right - back, block.size + back + ahead⟩

def longestBlock (usable : Char → Bool) (as bs : List Char) : Block :=
  (longestFrom usable bs as 0 ⟨0, 0, 0⟩).grow as bs

/-- Number of characters in matching blocks. The first argument bounds the depth of the search:
each block shortens both sides, so the length of a text suffices. -/
def matchedWithin (usable : Char → Bool) : Nat → List Char → List Char → Nat
  | 0, _, _ => 0
  | depth + 1, as, bs =>
    let block := longestBlock usable as bs
    if block.size = 0 then 0
    else block.size
      + matchedWithin usable depth (as.take block.left) (bs.take block.right)
      + matchedWithin usable depth (as.drop (block.left + block.size))
          (bs.drop (block.right + block.size))

def matched (candidate word : List Char) : Nat :=
  let common := frequent word
  matchedWithin (fun c => !common.contains c) candidate.length candidate word

structure Candidate where
  text : String
  hits : Nat
  total : Nat
deriving DecidableEq, Repr

def Candidate.of (word candidate : String) : Candidate :=
  let total := candidate.length + word.length
  if total = 0 then ⟨candidate, 1, 2⟩
  else ⟨candidate, matched candidate.toList word.toList, total⟩

/-- A candidate is close when its similarity is at least three fifths. -/
def Candidate.isClose (c : Candidate) : Bool := 3 * c.total ≤ 10 * c.hits

/-- More similar candidates come first; among equals, larger texts. -/
def Candidate.precedes (a b : Candidate) : Bool :=
  if a.hits * b.total = b.hits * a.total then decide (b.text ≤ a.text)
  else b.hits * a.total < a.hits * b.total

/-- At most `limit` close candidates, the most similar first. -/
def closest (word : String) (candidates : List String) (limit : Nat) : List String :=
  let close := (candidates.map (Candidate.of word)).filter Candidate.isClose
  ((sortBy Candidate.precedes close).take limit).map Candidate.text

def beginsLike (start name : String) : Bool :=
  (lowercase start).toList.isPrefixOf (lowercase name).toList

def suggestions (word : String) (names : List String) (limit : Nat) : List String :=
  (distinct (closest word names limit ++ names.filter (beginsLike word))).take limit

end RecordRules.Text
