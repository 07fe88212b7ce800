/-!
Similarity of two texts: twice the number of characters in common blocks over both lengths, where
the longest common block comes first and the parts before and after it are compared in turn.
-/

namespace AppSpec.Text

/-- A common block: where it starts in either text, and its size. -/
structure Block where
  left : Nat
  right : Nat
  size : Nat
  deriving DecidableEq, Repr

/-- In long texts the frequent characters start no block. -/
def frequent (bs : List Char) (c : Char) : Bool :=
  decide (200 ≤ bs.length) && decide (bs.length / 100 + 1 < bs.count c)

/-- Sizes of the blocks that end at `a` and at each of `bs`, from those that end one place before
in either text. -/
def blockSizes (skip : Char → Bool) (a : Char) : List Char → List Nat → List Nat
  | [], _ => []
  | b :: bs, sizes =>
      (if a == b && !skip b then sizes.headD 0 + 1 else 0) :: blockSizes skip a bs (sizes.drop 1)

def betterBlock (i : Nat) : Nat → List Nat → Block → Block
  | _, [], best => best
  | j, size :: sizes, best =>
      betterBlock i (j + 1) sizes
        (if best.size < size then ⟨i + 1 - size, j + 1 - size, size⟩ else best)

def longestFrom (skip : Char → Bool) (bs : List Char) :
    Nat → List Char → List Nat → Block → Block
  | _, [], _, best => best
  | i, a :: as, sizes, best =>
      let next := blockSizes skip a bs (0 :: sizes)
      longestFrom skip bs (i + 1) as next (betterBlock i 0 next best)

def commonLength : List Char → List Char → Nat
  | a :: as, b :: bs => if a == b then commonLength as bs + 1 else 0
  | _, _ => 0

/-- The longest common block, the leftmost of equally long ones, grown over frequent characters. -/
def longestBlock (skip : Char → Bool) (as bs : List Char) : Block :=
  let best := longestFrom skip bs 0 as [] ⟨0, 0, 0⟩
  let before := commonLength (as.take best.left).reverse (bs.take best.right).reverse
  let after := commonLength (as.drop (best.left + best.size)) (bs.drop (best.right + best.size))
  ⟨best.left - before, best.right - before, best.size + before + after⟩

def commonSize (skip : Char → Bool) : Nat → List Char → List Char → Nat
  | 0, _, _ => 0
  | fuel + 1, as, bs =>
      let block := longestBlock skip as bs
      if block.size = 0 then 0
      else
        block.size + commonSize skip fuel (as.take block.left) (bs.take block.right) +
          commonSize skip fuel (as.drop (block.left + block.size))
            (bs.drop (block.right + block.size))

structure Ratio where
  common : Nat
  total : Nat
  deriving DecidableEq, Repr

def similarity (candidate name : List Char) : Ratio :=
  if candidate.isEmpty && name.isEmpty then ⟨1, 1⟩
  else
    ⟨2 * commonSize (frequent name) (candidate.length + 1) candidate name,
      candidate.length + name.length⟩

namespace Ratio

def lt (a b : Ratio) : Bool := decide (a.common * b.total < b.common * a.total)

def isClose (a : Ratio) : Bool := decide (3 * a.total ≤ 5 * a.common)

end Ratio

def closer (best : Option (Ratio × String)) (found : Ratio × String) : Option (Ratio × String) :=
  match best with
  | none => some found
  | some old =>
      if old.1.lt found.1 then some found
      else if found.1.lt old.1 then some old
      else if old.2 < found.2 then some found
      else some old

/-- The most similar candidate that is similar enough; of equally similar ones the last in order. -/
def closest? (name : String) (candidates : List String) : Option String :=
  let scored := candidates.map fun c => (similarity c.toList name.toList, c)
  ((scored.filter fun s => s.1.isClose).foldl closer none).map (·.2)

end AppSpec.Text
