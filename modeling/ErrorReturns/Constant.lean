import ErrorReturns.Predicate
import ErrorReturns.Word

/-!
# Integer constants

A constant carries its width and the integer that its bits mean when read as signed. Two
widths fall outside this reading: a constant of no bits, and one of 64 bits or more, keep
the integer they were given.
-/

namespace ErrorReturns

/-- An integer constant of a given width, in its signed reading. -/
structure Constant where
  value : Int
  bits : Nat
deriving DecidableEq, Repr

namespace Constant

/-- The constant whose bits are the low `bits` bits of `value`. -/
def ofInt (value : Int) (bits : Nat) : Constant where
  value := if bits = 0 ∨ 64 ≤ bits then value else Word.wrapSigned bits value
  bits := bits

/-- A truth value as a constant of one bit. -/
def ofBool (b : Bool) : Constant := ofInt (if b then 1 else 0) 1

/-- Whether every bit is zero. -/
def isZero (c : Constant) : Bool := c.value == 0

/-- The constant as a signed word of 32 bits; wider constants lose their high bits. -/
def toWord32 (c : Constant) : Int := Word.wrapSigned 32 c.value

/-- The unsigned reading of the constant at its own width. -/
def unsigned (c : Constant) : Int := Word.wrapUnsigned (min c.bits 64) c.value

/-- Constants are ordered by value, then by width. -/
instance : Ord Constant where
  compare a b := (compare a.value b.value).then (compare a.bits b.bits)

end Constant

/-- **Comparison of constants.** Unsigned orders compare the unsigned readings; every other
predicate compares the signed ones. -/
def Predicate.evaluate (p : Predicate) (l r : Constant) : Bool :=
  if p.isUnsigned then p.onInts l.unsigned r.unsigned else p.onInts l.value r.value

end ErrorReturns
