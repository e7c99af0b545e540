/-!
# Machine words

Constants and error returns are two's-complement words. They are computed with as
unbounded integers, and a word of some width is the integer that its bits mean when the
top bit carries the sign.
-/

namespace ErrorReturns.Word

/-- How many words of a width there are, `2 ^ bits`. -/
def count (bits : Nat) : Nat := Nat.pow 2 bits

/-- The least value of a signed word. -/
def lowest (bits : Nat) : Int := -(count (bits - 1))

/-- The greatest value of a signed word. -/
def highest (bits : Nat) : Int := count (bits - 1) - 1

/-- **Signed reading.** The signed word that keeps the low bits of `v`. -/
def wrapSigned (bits : Nat) (v : Int) : Int := v.bmod (count bits)

/-- **Unsigned reading.** The unsigned word that keeps the low bits of `v`. -/
def wrapUnsigned (bits : Nat) (v : Int) : Int := v % count bits

end ErrorReturns.Word
