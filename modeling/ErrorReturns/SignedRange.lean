import ErrorReturns.Word

/-!
# Ranges of signed words

What a function may return is bounded by one range of signed integers of a given width:
nothing, everything, or the span between two bounds. A span that covers the width is
everything. Widths outside 1 to 64 have the bounds of the nearest width inside.
-/

namespace ErrorReturns

/-- The values between two bounds, none of them, or all. -/
inductive Extent where
  | empty
  | full
  | span (low high : Int)
deriving DecidableEq, Repr

/-- A range of signed integers of a given width. -/
structure SignedRange where
  bits : Nat
  extent : Extent
deriving DecidableEq, Repr

namespace SignedRange

/-- The width whose bounds count. -/
def effectiveBits (bits : Nat) : Nat := max 1 (min bits 64)

/-- The least integer of a width. -/
def least (bits : Nat) : Int := Word.lowest (effectiveBits bits)

/-- The greatest integer of a width. -/
def greatest (bits : Nat) : Int := Word.highest (effectiveBits bits)

/-- No value. -/
def empty (bits : Nat) : SignedRange := ⟨bits, .empty⟩

/-- Every value. -/
def full (bits : Nat) : SignedRange := ⟨bits, .full⟩

/-- The values from `low` to `high`. -/
def ofBounds (low high : Int) (bits : Nat) : SignedRange where
  bits := bits
  extent :=
    if high < low then .empty
    else if low ≤ least bits ∧ greatest bits ≤ high then .full
    else .span low high

/-- One value. -/
def singleton (v : Int) (bits : Nat) : SignedRange := ofBounds v v bits

/-- Whether the range has no value. -/
def isEmpty (r : SignedRange) : Bool := r.extent == .empty

/-- Whether the range has every value. -/
def isFull (r : SignedRange) : Bool := r.extent == .full

/-- The least and the greatest value. -/
def bounds? (r : SignedRange) : Option (Int × Int) :=
  match r.extent with
  | .empty => none
  | .full => some (least r.bits, greatest r.bits)
  | .span low high => some (low, high)

/-- The smallest range that contains both, of the width of the first. -/
def union (a b : SignedRange) : SignedRange :=
  match a.bounds?, b.bounds? with
  | none, _ => { b with bits := a.bits }
  | _, none => a
  | some (lowA, highA), some (lowB, highB) => ofBounds (min lowA lowB) (max highA highB) a.bits

/-- The common values, of the width of the first. -/
def inter (a b : SignedRange) : SignedRange :=
  match a.bounds?, b.bounds? with
  | some (lowA, highA), some (lowB, highB) => ofBounds (max lowA lowB) (min highA highB) a.bits
  | _, _ => empty a.bits

/-- The low bits of the values. Unless the range fits the width, nothing is known. -/
def truncate (r : SignedRange) (bits : Nat) : SignedRange :=
  match r.bounds? with
  | none => empty bits
  | some (low, high) =>
    if least bits ≤ low ∧ high ≤ greatest bits then ofBounds low high bits else full bits

/-- The values read as unsigned words. -/
def zeroExtend (r : SignedRange) (bits : Nat) : SignedRange :=
  match r.bounds? with
  | none => empty bits
  | some (low, high) =>
    if bits ≤ r.bits then r.truncate bits
    else
      let modulus : Int := Word.count (effectiveBits r.bits)
      if 0 ≤ low then ofBounds low high bits
      else if high < 0 then ofBounds (low + modulus) (high + modulus) bits
      else ofBounds 0 (modulus - 1) bits

/-- The values at a greater width, or their low bits at a smaller one. -/
def signExtend (r : SignedRange) (bits : Nat) : SignedRange :=
  match r.bounds? with
  | none => empty bits
  | some (low, high) => if r.bits ≤ bits then ofBounds low high bits else r.truncate bits

/-- The values at another width. -/
def resize (r : SignedRange) (bits : Nat) : SignedRange :=
  if r.bits ≤ bits then r.signExtend bits else r.truncate bits

end SignedRange

end ErrorReturns
