/-!
# Longest common subsequences

How alike two sequences are is measured by the longest subsequence they have in common,
where any relation may say which elements correspond. The relation takes its left argument
from the longer sequence, and from the first one if they are equally long.

The length is computed row by row. A row belongs to a beginning of the longer sequence and
holds, for every beginning of the shorter one, the length of the longest common subsequence
of the two.
-/

namespace ErrorReturns.CommonSubsequence

/-- The entries of a row after its first. `above` is the row above from the diagonal
neighbour on, `left` is the entry to the left, and `matched` says which elements of the
shorter sequence correspond to the new element. -/
def extendRow (left : Nat) : (above : List Nat) → (matched : List Bool) → List Nat
  | diagonal :: up :: above, m :: matched =>
    let here := if m then diagonal + 1 else max left up
    here :: extendRow here (up :: above) matched
  | _, _ => []

/-- The row below `above`. -/
def nextRow (above : List Nat) (matched : List Bool) : List Nat := 0 :: extendRow 0 above matched

/-- The length of the longest common subsequence, from the table of which elements of the
longer sequence correspond to which of the shorter one, whose length is `width`. -/
def lengthOfTable (width : Nat) (table : List (List Bool)) : Nat :=
  (table.foldl nextRow (List.replicate (width + 1) 0)).getLast?.getD 0

/-- The two sequences, the longer one first. -/
def arrange {α : Type} (a b : List α) : List α × List α :=
  if a.length < b.length then (b, a) else (a, b)

/-- **The length of the longest common subsequence** under a relation. -/
def length {α : Type} (rel : α → α → Bool) (a b : List α) : Nat :=
  let (long, short) := arrange a b
  lengthOfTable short.length (long.map fun x => short.map (rel x))

/-- The share that a common subsequence of length `common` has of the shorter of two sequences;
nothing is shared with an empty one. -/
def ratio (common lengthA lengthB : Nat) : Float32 :=
  match min lengthA lengthB with
  | 0 => 0
  | shortest => Float32.ofNat common / Float32.ofNat shortest

end ErrorReturns.CommonSubsequence
