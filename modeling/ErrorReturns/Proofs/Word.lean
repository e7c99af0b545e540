import ErrorReturns.Proofs.RangeSet.Canonical

/-!
# Signed words of any width

The integers that fit a width are those that it leaves as they are (`Word.wrapSigned_eq_self`), and
whatever is cut to a width fits it (`Word.fits_wrapSigned_of_pos`). Read as unsigned, a word that is
not negative stays as it is, and a negative one moves up by the number of words.
-/

namespace ErrorReturns.Word

variable {bits : Nat} {v : Int}

/-- Half of the words of a width are negative. -/
theorem count_eq_two_mul (h : 1 ≤ bits) : count bits = 2 * count (bits - 1) := by
  obtain ⟨n, rfl⟩ := Nat.exists_eq_add_of_le' h
  exact Nat.pow_succ'

theorem count_pos (bits : Nat) : 0 < count bits := Nat.two_pow_pos bits

theorem count_le_count {m n : Nat} (h : m ≤ n) : count m ≤ count n :=
  Nat.pow_le_pow_right Nat.two_pos h

theorem count_eq_mul {m n : Nat} (h : m ≤ n) : count n = count m * count (n - m) :=
  (congrArg count (Nat.add_sub_of_le h)).symm.trans (Nat.pow_add 2 m (n - m))

theorem fits_wrapSigned_of_pos (h : 1 ≤ bits) (v : Int) : Fits bits (wrapSigned bits v) := by
  have hcount := count_eq_two_mul h
  have hlow : -((count bits : Int) / 2) ≤ v.bmod (count bits) := Int.le_bmod (count_pos bits)
  have hhigh : v.bmod (count bits) < ((count bits : Int) + 1) / 2 := Int.bmod_lt (count_pos bits)
  rw [Fits, lowest, highest, wrapSigned]
  omega

/-- Multiplying shifts the signed reading of a word. -/
theorem bmod_mul_right (h : 1 ≤ bits) {k : Nat} (hk : 0 < k) :
    (v * k).bmod (count bits * k) = wrapSigned bits v * k := by
  have hcount := count_eq_two_mul h
  have hfits := fits_wrapSigned_of_pos h v
  rw [Fits, lowest, highest] at hfits
  have hhalf : ((count bits * k : Nat) : Int) = 2 * (count (bits - 1) * k) := by
    rw [hcount]
    push_cast
    rw [Int.mul_assoc]
  have hlow : -(count (bits - 1) * k : Int) ≤ wrapSigned bits v * k := by
    rw [← Int.neg_mul]
    exact Int.mul_le_mul_of_nonneg_right hfits.1 (Int.natCast_nonneg k)
  have hhigh : wrapSigned bits v * k < (count (bits - 1) * k : Int) :=
    Int.mul_lt_mul_of_pos_right (by omega) (Int.natCast_pos.mpr hk)
  refine (Int.bmod_eq_iff (Nat.mul_pos (count_pos bits) hk)).mpr ⟨by omega, by omega, ?_⟩
  rw [← Int.sub_mul, Int.natCast_mul]
  exact Int.mul_dvd_mul_right _ Int.dvd_bmod_sub_self

theorem wrapSigned_eq_self (h : 1 ≤ bits) (hv : Fits bits v) : wrapSigned bits v = v := by
  have hcount := count_eq_two_mul h
  rw [Fits, lowest, highest] at hv
  exact Int.bmod_eq_of_le (by omega) (by omega)

theorem wrapSigned_eq_self_iff (h : 1 ≤ bits) : wrapSigned bits v = v ↔ Fits bits v :=
  ⟨fun heq => heq ▸ fits_wrapSigned_of_pos h v, wrapSigned_eq_self h⟩

/-- What fits a width fits every greater one. -/
theorem Fits.of_le {m n : Nat} (hv : Fits m v) (h : m ≤ n) : Fits n v := by
  have hcount := count_le_count (Nat.sub_le_sub_right h 1)
  rw [Fits, lowest, highest] at hv ⊢
  omega

theorem wrapUnsigned_of_nonneg (h : 1 ≤ bits) (hv : Fits bits v) (hnonneg : 0 ≤ v) :
    wrapUnsigned bits v = v := by
  have hcount := count_eq_two_mul h
  rw [Fits, highest] at hv
  exact Int.emod_eq_of_lt hnonneg (by omega)

theorem wrapUnsigned_of_neg (h : 1 ≤ bits) (hv : Fits bits v) (hneg : v < 0) :
    wrapUnsigned bits v = v + count bits := by
  have hcount := count_eq_two_mul h
  rw [Fits, lowest] at hv
  rw [wrapUnsigned, ← Int.add_emod_right]
  exact Int.emod_eq_of_lt (by omega) (by omega)

theorem wrapUnsigned_nonneg (bits : Nat) (v : Int) : 0 ≤ wrapUnsigned bits v :=
  Int.emod_nonneg v (Int.natCast_ne_zero.mpr (Nat.ne_of_gt (count_pos bits)))

theorem wrapUnsigned_lt (bits : Nat) (v : Int) : wrapUnsigned bits v < count bits :=
  Int.emod_lt_of_pos v (Int.natCast_pos.mpr (count_pos bits))

theorem lowest_le_zero (bits : Nat) : lowest bits ≤ 0 := by
  rw [lowest]
  omega

theorem lowest_lt_highest (bits : Nat) : lowest bits < highest bits := by
  have hpos := count_pos (bits - 1)
  rw [lowest, highest]
  omega

/-- At a greater width every unsigned word is one that is not negative. -/
theorem count_le_highest {m n : Nat} (h : m < n) : (count m : Int) - 1 ≤ highest n := by
  have hcount := count_le_count (Nat.le_sub_one_of_lt h)
  rw [highest]
  omega

end ErrorReturns.Word
