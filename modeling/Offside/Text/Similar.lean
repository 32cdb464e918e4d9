/-!
# Similar words

- `common`: how much two words have in common, block by block.
- `similar`: the words that resemble a given one most.
-/
namespace Offside.Text

set_option autoImplicit false

def commonStart : List Char → List Char → Nat
  | a :: as, b :: bs => if a = b then 1 + commonStart as bs else 0
  | _, _ => 0

/-- A block that two words share: where it starts in each, and its length. -/
structure Block where
  left : Nat
  right : Nat
  length : Nat

def blocksAt (left : Nat) (as bs : List Char) : List Block :=
  (List.range bs.length).map fun j => ⟨left, j, commonStart (as.drop left) (bs.drop j)⟩

/-- The longest block that two words share; of several the one that starts first in the first
word, then in the second. -/
def longestBlock (as bs : List Char) : Block :=
  ((List.range as.length).flatMap fun i => blocksAt i as bs).foldl
    (fun best block => if best.length < block.length then block else best) ⟨0, 0, 0⟩

/-- How many characters two words share: those of the longest block, and what the parts before it
and the parts behind it share, in at most so many rounds. -/
def commonWithin : Nat → List Char → List Char → Nat
  | 0, _, _ => 0
  | fuel + 1, as, bs =>
    let block := longestBlock as bs
    if block.length = 0 then 0
    else
      commonWithin fuel (as.take block.left) (bs.take block.right) + block.length +
        commonWithin fuel (as.drop (block.left + block.length))
          (bs.drop (block.right + block.length))

def common (as bs : List Char) : Nat := commonWithin (as.length + 1) as bs

def isSimilar (a b : String) : Bool :=
  let shared := common a.toList b.toList
  3 * (a.length + b.length) ≤ 5 * (2 * shared) && 0 < a.length + b.length

def sharesMore (word a b : String) : Bool :=
  common b.toList word.toList * (a.length + word.length) <
    common a.toList word.toList * (b.length + word.length)

/-- The three words that resemble a given one most, of those that resemble it at all, in the order
of the characters. -/
def similar (word : String) (words : List String) : List String :=
  let ranked := (words.filter (isSimilar · word)).mergeSort fun a b =>
    sharesMore word a b || (!sharesMore word b a && decide (b ≤ a))
  (ranked.take 3).mergeSort fun a b => decide (a ≤ b)

end Offside.Text
