import ErrorReturns.Predicate
import ErrorReturns.Word

/-!
# Sets of 32-bit integers as unions of ranges

What a function returns on error, which values a branch lets through, and the evidence
attached to a report are all sets of 32-bit integers. Such a set is a list of inclusive
ranges, sorted, disjoint and with a gap between every two neighbours. In this form a set
has exactly one list, so that equality and inclusion of sets are read off the lists.

Sets are built by `RangeSet.ofRanges`, which sorts any list of ranges and coalesces the ones
that overlap or touch; the other operations keep the form. A set is the bare list that is
stored, compared and written out; that every list so built has the form is proved of the
operations (`RangeSet.Canonical`). Bounds are unbounded integers throughout, so that a bound
just outside the word is an ordinary number.
-/

namespace ErrorReturns

/-- The inclusive range of the integers from `low` to `high`. -/
structure Range where
  low : Int
  high : Int
deriving DecidableEq, Repr

namespace Range

/-- Whether the range contains a value. -/
def contains (r : Range) (v : Int) : Bool := r.low ≤ v && v ≤ r.high

/-- Ranges are ordered by their lower ends, then by their upper ends. -/
instance : Ord Range where
  compare a b := (compare a.low b.low).then (compare a.high b.high)

instance : Std.TransOrd Range :=
  inferInstanceAs (Std.TransCmp (compareLex (compareOn Range.low) (compareOn Range.high)))

/-- Every 32-bit integer. -/
def full : Range := ⟨Word.lowest 32, Word.highest 32⟩

/-- How many integers the range holds. -/
def size (r : Range) : Nat := (r.high - r.low + 1).toNat

/-- The common part of two ranges, if there is one. -/
def overlap? (a b : Range) : Option Range :=
  let low := max a.low b.low
  let high := min a.high b.high
  if low ≤ high then some ⟨low, high⟩ else none

/-- The written form, `[low, high]`. -/
def render (r : Range) : String := s!"[{r.low}, {r.high}]"

end Range

/-- A pair of bounds in the wrong order. -/
structure InvertedRange where
  low : Int
  high : Int
deriving DecidableEq, Repr

/-- The text that describes a pair of bounds in the wrong order. -/
def InvertedRange.message (e : InvertedRange) : String :=
  s!"range [{e.low}, {e.high}] has its bounds inverted"

/-- The range between two bounds, if they are in order. -/
def Range.ofBounds (low high : Int) : Except InvertedRange Range :=
  if low ≤ high then .ok ⟨low, high⟩ else .error ⟨low, high⟩

/-- A set of 32-bit integers, as the list of its maximal ranges. -/
structure RangeSet where
  ranges : List Range
deriving DecidableEq, Repr

namespace RangeSet

/-! ## Building sets -/

/-- Extend the range `current` by every range of the list that overlaps or touches what has
been gathered so far. The list is sorted by lower ends, and none lies below `current`. -/
def absorb (current : Range) : List Range → List Range
  | [] => [current]
  | r :: rest =>
    if r.low ≤ current.high + 1 then absorb ⟨current.low, max current.high r.high⟩ rest
    else current :: absorb r rest

/-- Coalesce the overlapping and touching ranges of a sorted list. -/
def coalesce : List Range → List Range
  | [] => []
  | r :: rest => absorb r rest

/-- The union of any ranges, in any order. -/
def ofRanges (ranges : List Range) : RangeSet :=
  ⟨coalesce (ranges.mergeSort fun a b => (compare a b).isLE)⟩

/-- The set without values. -/
def empty : RangeSet := ⟨[]⟩

/-- The set of every 32-bit integer. -/
def full : RangeSet := ⟨[Range.full]⟩

/-- The set of the integers from `low` to `high`, for bounds in order. -/
def ofRange (low high : Int) : RangeSet := ⟨[⟨low, high⟩]⟩

/-- The set of one value. -/
def singleton (v : Int) : RangeSet := ofRange v v

instance : EmptyCollection RangeSet := ⟨empty⟩
instance : Inhabited RangeSet := ⟨empty⟩

/-! ## Observing sets -/

/-- Whether the set has no value. -/
def isEmpty (s : RangeSet) : Bool := s.ranges.isEmpty

/-- Whether the set has every value. -/
def isFull (s : RangeSet) : Bool := s == full

/-- Whether the set has a value. -/
def contains (s : RangeSet) (v : Int) : Bool := s.ranges.any (·.contains v)

instance : Membership Int RangeSet := ⟨fun s v => s.contains v = true⟩

instance (v : Int) (s : RangeSet) : Decidable (v ∈ s) :=
  inferInstanceAs (Decidable (s.contains v = true))

/-- The least value. -/
def lowest? (s : RangeSet) : Option Int := s.ranges.head?.map (·.low)

/-- The greatest value. -/
def highest? (s : RangeSet) : Option Int := s.ranges.getLast?.map (·.high)

/-- How many values the set has. -/
def size (s : RangeSet) : Nat := s.ranges.foldr (fun r n => r.size + n) 0

/-- Sets are ordered by their lists of ranges, lexicographically. -/
instance : Ord RangeSet where
  compare a b := a.ranges.compareLex compare b.ranges

instance : Std.TransOrd RangeSet := inferInstanceAs (Std.TransCmp (compareOn RangeSet.ranges))

/-- The written form: the ranges joined by ` U `, or `empty`. -/
def render (s : RangeSet) : String :=
  if s.isEmpty then "empty" else " U ".intercalate (s.ranges.map Range.render)

/-! ## Operations -/

/-- The values of the set between `low` and `high`. -/
def clip (s : RangeSet) (low high : Int) : RangeSet :=
  ⟨s.ranges.filterMap (Range.overlap? · ⟨low, high⟩)⟩

/-- The parts of a range on either side of a value. -/
def remove (v : Int) (r : Range) : List Range :=
  if r.contains v then
    (if r.low < v then [⟨r.low, v - 1⟩] else []) ++ (if v < r.high then [⟨v + 1, r.high⟩] else [])
  else [r]

/-- **Narrowing by a comparison.** The values `v` of the set with `v p rhs`, where the
unsigned orders are read as the signed ones. -/
def narrow (s : RangeSet) (p : Predicate) (rhs : Int) : RangeSet :=
  match p with
  | .eq => if s.contains rhs then singleton rhs else empty
  | .ne => ⟨s.ranges.flatMap (remove rhs)⟩
  | .slt | .ult => s.clip (Word.lowest 32) (rhs - 1)
  | .sle | .ule => s.clip (Word.lowest 32) rhs
  | .sgt | .ugt => s.clip (rhs + 1) (Word.highest 32)
  | .sge | .uge => s.clip rhs (Word.highest 32)

/-- The values of either set. -/
def union (a b : RangeSet) : RangeSet := ofRanges (a.ranges ++ b.ranges)

/-- The common values of two sets: every overlap of a range of the one with a range of the
other, which come out in order because both lists are sorted. -/
def inter (a b : RangeSet) : RangeSet :=
  ⟨a.ranges.flatMap fun r => b.ranges.filterMap r.overlap?⟩

instance : Union RangeSet := ⟨union⟩
instance : Inter RangeSet := ⟨inter⟩

/-- The gaps that a sorted list of ranges leaves from `start` up to the greatest word. -/
def gaps (start : Int) : List Range → List Range
  | [] => if start ≤ Word.highest 32 then [⟨start, Word.highest 32⟩] else []
  | r :: rest =>
    (if start < r.low then [⟨start, r.low - 1⟩] else []) ++ gaps (r.high + 1) rest

/-- Every word that the set does not have. -/
def compl (s : RangeSet) : RangeSet := ⟨gaps (Word.lowest 32) s.ranges⟩

/-- Whether every value of `a` is one of `b`. -/
def isSubset (a b : RangeSet) : Bool := a ∩ b == a

/-- **Sign convention.** `-1` for a set of values at most zero, `1` for a set of values at least
zero, and `0` for the set of zero alone, the empty set and sets of mixed signs. -/
def sign (s : RangeSet) : Int :=
  if s.isEmpty || s == singleton 0 then 0
  else if s.ranges.all (·.high ≤ 0) then -1
  else if s.ranges.all (0 ≤ ·.low) then 1
  else 0

end RangeSet

end ErrorReturns
