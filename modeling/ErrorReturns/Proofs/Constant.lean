import ErrorReturns.Proofs.Comparison
import ErrorReturns.Proofs.Word

/-!
# Constants as patterns of bits

A constant keeps an integer and a width, and is meant to be a pattern of so many bits. The pattern
behind `Constant.ofInt a w` is `BitVec.ofInt w a`, the low bits of any integer, in range or not. Its
signed reading is what the constant keeps (`Constant.value_ofInt`) and its unsigned reading is what
the constant gives back (`Constant.unsigned_ofInt`), although the second is computed from the first.
Comparing constants is therefore comparing patterns (`Predicate.evaluate_ofInt`).

A machine finds the two readings in a register of 64 bits without any division. It shifts the bits
up to the top and back down with copies of the sign (`Register.extend`), and it cuts off what is
above them with a mask (`Register.cut`). Both are defined here as registers compute them, and are
the remainders that constants are defined with.
-/

namespace ErrorReturns

/-! ## Registers -/

namespace Register

/-- **Sign extension by shifts**: the low bits go up to the top of the register, and come back down
with copies of the sign before them. -/
def extend (bits : Nat) (v : Int) : Int :=
  if bits = 0 ∨ 64 ≤ bits then v
  else ((BitVec.ofInt 64 v <<< (64 - bits)).sshiftRight (64 - bits)).toInt

/-- **Unsigned reading by a mask**: ones in the low bits, zeros above them. -/
def cut (bits : Nat) (v : Int) : Int :=
  if 64 ≤ bits then (BitVec.ofInt 64 v).toNat
  else (BitVec.ofInt 64 v &&& ((1#64 <<< bits) - 1#64)).toNat

variable {bits : Nat} {v : Int}

theorem natCast_toNat_ofInt (w : Nat) (v : Int) :
    ((BitVec.ofInt w v).toNat : Int) = Word.wrapUnsigned w v := by
  rw [BitVec.toNat_ofInt]
  exact Int.toNat_of_nonneg (Word.wrapUnsigned_nonneg w v)

theorem toInt_ofInt_shiftLeft (v : Int) (k : Nat) :
    (BitVec.ofInt 64 v <<< k).toInt = (v * Word.count k).bmod (Word.count 64) := by
  rw [BitVec.toInt_shiftLeft, Nat.shiftLeft_eq, Int.natCast_mul, natCast_toNat_ofInt]
  exact Int.emod_mul_bmod v (Word.count 64)

/-- **Shifting up and down extends the sign.** -/
theorem extend_eq (hpos : 1 ≤ bits) (hle : bits ≤ 64) (hv : Word.Fits 64 v) :
    extend bits v = Word.wrapSigned bits v := by
  unfold extend
  split
  case isTrue h =>
    obtain rfl : bits = 64 := by omega
    exact (Word.wrapSigned_eq_self hpos hv).symm
  case isFalse h =>
    have hk := Word.count_pos (64 - bits)
    rw [BitVec.toInt_sshiftRight, toInt_ofInt_shiftLeft, Word.count_eq_mul hle,
      Word.bmod_mul_right hpos hk, Int.shiftRight_eq_div_pow]
    exact Int.mul_ediv_cancel _ (Int.natCast_ne_zero.mpr (Nat.ne_of_gt hk))

/-- The mask has as many ones as there are bits to keep. -/
theorem toNat_mask (h : bits < 64) :
    ((1#64 <<< bits) - 1#64).toNat = Word.count bits - 1 := by
  have hlt : Word.count bits < Word.count 64 := Nat.pow_lt_pow_right (by decide) h
  have hpos := Word.count_pos bits
  have hone : (1#64 <<< bits).toNat = Word.count bits := by
    rw [BitVec.toNat_shiftLeft, Nat.shiftLeft_eq]
    show 1 * Word.count bits % Word.count 64 = Word.count bits
    rw [Nat.one_mul, Nat.mod_eq_of_lt hlt]
  have hle : 1#64 ≤ 1#64 <<< bits := by
    rw [BitVec.le_def, hone]
    exact hpos
  rw [BitVec.toNat_sub_of_le hle, hone]
  rfl

/-- **A mask keeps the remainder.** -/
theorem cut_eq (hle : bits ≤ 64) : cut bits v = Word.wrapUnsigned bits v := by
  unfold cut
  split
  case isTrue h =>
    obtain rfl : bits = 64 := by omega
    exact natCast_toNat_ofInt 64 v
  case isFalse h =>
    have hdvd : (Word.count bits : Int) ∣ (Word.count 64 : Int) :=
      Int.natCast_dvd_natCast.mpr (Nat.pow_dvd_pow 2 hle)
    have hand : ∀ n : Nat, n &&& (Word.count bits - 1) = n % Word.count bits := fun n =>
      Nat.and_two_pow_sub_one_eq_mod n bits
    rw [BitVec.toNat_and, toNat_mask (by omega), hand, Int.natCast_emod, natCast_toNat_ofInt]
    exact Int.emod_emod_of_dvd v hdvd

end Register

/-! ## The pattern behind a constant -/

namespace Constant

variable {w : Nat} {a : Int}

/-- The signed reading is that of the low bits, at every width up to 64. -/
theorem value_ofInt_eq_wrapSigned (hpos : 1 ≤ w) (hle : w ≤ 64) (ha : Word.Fits 64 a) :
    (ofInt a w).value = Word.wrapSigned w a := by
  unfold ofInt
  dsimp only
  split
  case isTrue h =>
    obtain rfl : w = 64 := by omega
    exact (Word.wrapSigned_eq_self hpos ha).symm
  case isFalse => rfl

/-- **What a constant keeps** is the signed reading of its pattern. -/
theorem value_ofInt (hpos : 1 ≤ w) (hle : w ≤ 64) (ha : Word.Fits 64 a) :
    (ofInt a w).value = (BitVec.ofInt w a).toInt :=
  (value_ofInt_eq_wrapSigned hpos hle ha).trans (BitVec.toInt_ofInt a).symm

theorem unsigned_ofInt_eq_emod (hpos : 1 ≤ w) (hle : w ≤ 64) (ha : Word.Fits 64 a) :
    (ofInt a w).unsigned = a % Word.count w := by
  rw [unsigned, value_ofInt_eq_wrapSigned hpos hle ha]
  show Word.wrapSigned w a % (Word.count (min w 64) : Int) = a % Word.count w
  rw [Nat.min_eq_left hle]
  exact Int.bmod_emod

/-- **What a constant gives back** is the unsigned reading of its pattern. -/
theorem unsigned_ofInt (hpos : 1 ≤ w) (hle : w ≤ 64) (ha : Word.Fits 64 a) :
    (ofInt a w).unsigned = (BitVec.ofInt w a).toNat :=
  (unsigned_ofInt_eq_emod hpos hle ha).trans (Register.natCast_toNat_ofInt w a).symm

/-- **A constant of a width**: its value is a signed word of this width. -/
structure OfWidth (c : Constant) (w : Nat) : Prop where
  bits_eq : c.bits = w
  fits : Word.Fits w c.value

theorem ofWidth_ofInt (hpos : 1 ≤ w) (hle : w ≤ 64) (ha : Word.Fits 64 a) :
    (ofInt a w).OfWidth w :=
  ⟨rfl, value_ofInt_eq_wrapSigned hpos hle ha ▸ Word.fits_wrapSigned_of_pos hpos a⟩

/-- A constant of a width is made from its own value. -/
theorem OfWidth.ofInt_value {c : Constant} (h : c.OfWidth w) (hpos : 1 ≤ w) (hle : w ≤ 64) :
    ofInt c.value w = c := by
  obtain ⟨rfl, hfits⟩ := h
  have hvalue := value_ofInt_eq_wrapSigned hpos hle (hfits.of_le hle)
  rw [Word.wrapSigned_eq_self hpos hfits] at hvalue
  rw [Constant.mk.injEq]
  exact ⟨hvalue, rfl⟩

end Constant

/-! ## Comparing patterns -/

namespace Predicate

/-- **Comparison of patterns** of one width: whether their bits agree, or the order of their
unsigned or signed readings. -/
def onBits {w : Nat} (p : Predicate) (x y : BitVec w) : Bool :=
  match p with
  | eq => x == y
  | ne => x != y
  | ugt => y.ult x
  | uge => y.ule x
  | ult => x.ult y
  | ule => x.ule y
  | sgt => y.slt x
  | sge => y.sle x
  | slt => x.slt y
  | sle => x.sle y

/-- Patterns are compared by their readings; the signed ones tell them apart. -/
theorem onBits_eq {w : Nat} (p : Predicate) (x y : BitVec w) :
    p.onBits x y =
      if p.isUnsigned then p.onInts x.toNat y.toNat else p.onInts x.toInt y.toInt := by
  have heq : (x == y) = (x.toInt == y.toInt) := by
    rw [Bool.eq_iff_iff, beq_iff_eq, beq_iff_eq, BitVec.toInt_inj]
  cases p with
  | eq => exact heq
  | ne => exact congrArg (!·) heq
  | ugt | uge | ult | ule => simp [onBits, isUnsigned, onInts, BitVec.ult, BitVec.ule]
  | sgt | sge | slt | sle => rfl

theorem evaluate_ofInt {w : Nat} (hpos : 1 ≤ w) (hle : w ≤ 64) {a b : Int} (ha : Word.Fits 64 a)
    (hb : Word.Fits 64 b) (p : Predicate) :
    p.evaluate (.ofInt a w) (.ofInt b w) = p.onBits (BitVec.ofInt w a) (BitVec.ofInt w b) := by
  rw [evaluate, onBits_eq, Constant.unsigned_ofInt hpos hle ha, Constant.unsigned_ofInt hpos hle hb,
    Constant.value_ofInt hpos hle ha, Constant.value_ofInt hpos hle hb]

/-- **Comparing constants is comparing their bits.** At every width from 1 to 64 and for all words
of 64 bits, a comparison of two constants is the comparison of the low bits that they were made
from. Making a constant from its own value changes nothing; its unsigned reading is the remainder of
the integer that it was made from; a register finds its value by shifts and its unsigned reading by
a mask. The inverse of a comparison is its negation. -/
theorem evaluate_is_on_bits {w : Nat} (hpos : 1 ≤ w) (hle : w ≤ 64) {a b : Int}
    (ha : Word.Fits 64 a) (hb : Word.Fits 64 b) (p : Predicate) :
    p.evaluate (.ofInt a w) (.ofInt b w) = p.onBits (BitVec.ofInt w a) (BitVec.ofInt w b) ∧
    Constant.ofInt (Constant.ofInt a w).value w = .ofInt a w ∧
    (Constant.ofInt a w).unsigned = a % Word.count w ∧
    (Constant.ofInt a w).value = Register.extend w a ∧
    (Constant.ofInt a w).unsigned = Register.cut w (Constant.ofInt a w).value ∧
    ∀ l r : Constant, p.inverse.evaluate l r = !p.evaluate l r := by
  refine ⟨evaluate_ofInt hpos hle ha hb p,
    (Constant.ofWidth_ofInt hpos hle ha).ofInt_value hpos hle,
    Constant.unsigned_ofInt_eq_emod hpos hle ha, ?_, ?_, evaluate_inverse p⟩
  · rw [Register.extend_eq hpos hle ha, Constant.value_ofInt_eq_wrapSigned hpos hle ha]
  · rw [Register.cut_eq hle, Constant.unsigned]
    show Word.wrapUnsigned (min w 64) _ = _
    rw [Nat.min_eq_left hle]

/-- Neither 200 nor -312 is a signed byte, and both have the same low bits. Without a sign the
pattern of -1 is the greatest of 64 bits. -/
theorem evaluate_is_on_bits_out_of_range :
    Word.Fits 64 200 ∧ Word.Fits 64 (-312) ∧
    eq.evaluate (.ofInt (-312) 8) (.ofInt 200 8) = true ∧ (Constant.ofInt (-312) 8).unsigned = 200 ∧
    Register.extend 8 (-312) = -56 ∧ Register.cut 8 (-56) = 200 ∧
    slt.evaluate (.ofInt (-1) 64) (.ofInt 9223372036854775807 64) = true ∧
    ugt.evaluate (.ofInt (-1) 64) (.ofInt 9223372036854775807 64) = true := by
  obtain ⟨heq, -, hmod, hextend, hcut, -⟩ := evaluate_is_on_bits (w := 8) (a := -312) (b := 200)
    (by decide) (by decide) (by decide) (by decide) eq
  have hwide := evaluate_is_on_bits (w := 64) (a := -1) (b := 9223372036854775807)
    (by decide) (by decide) (by decide) (by decide)
  exact ⟨by decide, by decide, heq, hmod, hextend.symm, hcut.symm, (hwide slt).1, (hwide ugt).1⟩

end Predicate

end ErrorReturns
