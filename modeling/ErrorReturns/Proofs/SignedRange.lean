import ErrorReturns.Proofs.Word
import ErrorReturns.SignedRange
import Mathlib.Data.Set.Basic

/-!
# Ranges as sets of signed words

A range is read as the set of its values: none, all words of its width, or those between two bounds.
It is *well formed* at a width if its bounds are words of the width, in order, and a range with all
words is written as one (`SignedRange.WellFormed`). There is then one range for each set of values
that has a range at all.

Nothing below looks at the three ways of writing a range. A well-formed range is either empty or
made from two bounds (`SignedRange.WellFormed.cases`), and a range made from bounds has the values
between them (`SignedRange.Within.mem_ofBounds`), so that each operation comes down to what it does
with the bounds. The union of two ranges is more than their values together: it is the smallest
range with these values (`SignedRange.IsHull`). The intersection is exact, and a conversion keeps,
of every value in the range, the word that the conversion makes of it.
-/

namespace ErrorReturns.SignedRange

/-! ## Values of a range -/

/-- The values of a range. -/
instance : Membership Int SignedRange where
  mem r v :=
    match r.extent with
    | .empty => False
    | .full => Word.Fits r.bits v
    | .span low high => low ≤ v ∧ v ≤ high

/-- Whether all values of a range are values of another. -/
instance : HasSubset SignedRange where
  Subset r s := ∀ v ∈ r, v ∈ s

instance (r : SignedRange) (v : Int) : Decidable (v ∈ r) :=
  match r with
  | ⟨_, .empty⟩ => inferInstanceAs (Decidable False)
  | ⟨bits, .full⟩ => inferInstanceAs (Decidable (Word.Fits bits v))
  | ⟨_, .span low high⟩ => inferInstanceAs (Decidable (low ≤ v ∧ v ≤ high))

variable {r s : SignedRange} {bits : Nat} {low high v : Int}

theorem not_mem_empty : v ∉ empty bits := id

@[simp] theorem mem_full : v ∈ full bits ↔ Word.Fits bits v := Iff.rfl

/-- **Bounds of a width**: two words of a width from 1 to 64, in order. -/
structure Within (bits : Nat) (low high : Int) : Prop where
  one_le : 1 ≤ bits
  le_64 : bits ≤ 64
  lowest_le : Word.lowest bits ≤ low
  ordered : low ≤ high
  le_highest : high ≤ Word.highest bits

/-- **Well-formed ranges** of a width from 1 to 64: those without values, with all words of the
width, or with the words between two bounds that leave some word out. -/
structure WellFormed (r : SignedRange) (bits : Nat) : Prop where
  bits_eq : r.bits = bits
  one_le : 1 ≤ bits
  le_64 : bits ≤ 64
  span : ∀ low high, r.extent = .span low high →
    Within bits low high ∧ ¬ (low = Word.lowest bits ∧ high = Word.highest bits)

/-! ## Ranges between bounds -/

theorem effectiveBits_eq (h : 1 ≤ bits) (h' : bits ≤ 64) : effectiveBits bits = bits := by
  unfold effectiveBits
  omega

theorem wellFormed_empty (h : 1 ≤ bits) (h' : bits ≤ 64) : (empty bits).WellFormed bits :=
  ⟨rfl, h, h', nofun⟩

theorem within_all (h : 1 ≤ bits) (h' : bits ≤ 64) :
    Within bits (Word.lowest bits) (Word.highest bits) :=
  ⟨h, h', Int.le_refl _, Int.le_of_lt (Word.lowest_lt_highest bits), Int.le_refl _⟩

namespace Within

variable (h : Within bits low high)
include h

/-- A range between bounds is written as full if it has all words. -/
theorem ofBounds_eq : ofBounds low high bits =
    if low = Word.lowest bits ∧ high = Word.highest bits then full bits
    else ⟨bits, .span low high⟩ := by
  obtain ⟨hone, h64, hlow, hle, hhigh⟩ := h
  have hall : low ≤ least bits ∧ greatest bits ≤ high ↔
      low = Word.lowest bits ∧ high = Word.highest bits := by
    rw [least, greatest, effectiveBits_eq hone h64]
    omega
  rw [ofBounds, if_neg (Int.not_lt.mpr hle)]
  by_cases hfull : low = Word.lowest bits ∧ high = Word.highest bits
  · rw [if_pos (hall.mpr hfull), if_pos hfull]
    rfl
  · rw [if_neg (hall.not.mpr hfull), if_neg hfull]

@[simp] theorem mem_ofBounds : v ∈ ofBounds low high bits ↔ low ≤ v ∧ v ≤ high := by
  rw [h.ofBounds_eq]
  split
  case isTrue heq =>
    rw [heq.1, heq.2]
    exact mem_full
  case isFalse => exact Iff.rfl

@[simp] theorem bounds?_ofBounds : (ofBounds low high bits).bounds? = some (low, high) := by
  rw [h.ofBounds_eq]
  split
  case isTrue heq =>
    rw [heq.1, heq.2, full, bounds?]
    dsimp only
    rw [least, greatest, effectiveBits_eq h.one_le h.le_64]
  case isFalse => rfl

theorem wellFormed_ofBounds : (ofBounds low high bits).WellFormed bits := by
  refine ⟨rfl, h.one_le, h.le_64, fun low' high' hspan => ?_⟩
  rw [h.ofBounds_eq] at hspan
  split at hspan
  case isTrue => cases hspan
  case isFalse hsome =>
    obtain ⟨rfl, rfl⟩ := Extent.span.inj hspan
    exact ⟨h, hsome⟩

theorem fits_low : Word.Fits bits low := ⟨h.lowest_le, Int.le_trans h.ordered h.le_highest⟩

theorem fits_high : Word.Fits bits high := ⟨Int.le_trans h.lowest_le h.ordered, h.le_highest⟩

end Within

theorem ofBounds_all (h : 1 ≤ bits) (h' : bits ≤ 64) :
    ofBounds (Word.lowest bits) (Word.highest bits) bits = full bits := by
  rw [(within_all h h').ofBounds_eq, if_pos ⟨rfl, rfl⟩]

theorem wellFormed_full (h : 1 ≤ bits) (h' : bits ≤ 64) : (full bits).WellFormed bits :=
  ofBounds_all h h' ▸ (within_all h h').wellFormed_ofBounds

/-- Bounds out of order have nothing between them. -/
theorem ofBounds_of_lt (h : high < low) : ofBounds low high bits = empty bits := by
  rw [ofBounds, if_pos h]
  rfl

namespace WellFormed

/-- **A well-formed range** is empty or made from its bounds. -/
theorem cases (h : r.WellFormed bits) :
    r = empty bits ∨ ∃ low high, Within bits low high ∧ r = ofBounds low high bits := by
  obtain ⟨bits', extent⟩ := r
  obtain ⟨rfl, hone, h64, hspan⟩ := h
  cases extent with
  | empty => exact Or.inl rfl
  | full => exact Or.inr ⟨_, _, within_all hone h64, (ofBounds_all hone h64).symm⟩
  | span low high =>
    obtain ⟨hwithin, hsome⟩ := hspan low high rfl
    exact Or.inr ⟨low, high, hwithin, by rw [hwithin.ofBounds_eq, if_neg hsome]⟩

theorem fits_of_mem (h : r.WellFormed bits) (hv : v ∈ r) : Word.Fits bits v := by
  obtain rfl | ⟨low, high, hwithin, rfl⟩ := h.cases
  · exact absurd hv not_mem_empty
  · obtain ⟨hlow, hhigh⟩ := hwithin.mem_ofBounds.mp hv
    exact ⟨Int.le_trans hwithin.lowest_le hlow, Int.le_trans hhigh hwithin.le_highest⟩

/-- A range has every word between two of its values. -/
theorem mem_of_between (h : r.WellFormed bits) {u w : Int} (hu : u ∈ r) (hw : w ∈ r) (huv : u ≤ v)
    (hvw : v ≤ w) : v ∈ r := by
  obtain rfl | ⟨low, high, hwithin, rfl⟩ := h.cases
  · exact absurd hu not_mem_empty
  · rw [hwithin.mem_ofBounds] at hu hw ⊢
    exact ⟨Int.le_trans hu.1 huv, Int.le_trans hvw hw.2⟩

/-- Well-formed ranges with the same values are the same. -/
theorem ext (hr : r.WellFormed bits) (hs : s.WellFormed bits) (h : ∀ v, v ∈ r ↔ v ∈ s) : r = s := by
  obtain rfl | ⟨low, high, hlow, rfl⟩ := hr.cases <;>
    obtain rfl | ⟨low', high', hlow', rfl⟩ := hs.cases
  · rfl
  · exact absurd ((h low').mpr (hlow'.mem_ofBounds.mpr ⟨Int.le_refl _, hlow'.ordered⟩))
      not_mem_empty
  · exact absurd ((h low).mp (hlow.mem_ofBounds.mpr ⟨Int.le_refl _, hlow.ordered⟩)) not_mem_empty
  · have hle := hlow.ordered
    have hle' := hlow'.ordered
    have hends := fun v => (hlow.mem_ofBounds (v := v)).symm.trans
      ((h v).trans (hlow'.mem_ofBounds (v := v)))
    obtain rfl : low = low' := by
      have := (hends low).mp ⟨Int.le_refl _, hle⟩
      have := (hends low').mpr ⟨Int.le_refl _, hle'⟩
      omega
    obtain rfl : high = high' := by
      have := (hends high).mp ⟨hle, Int.le_refl _⟩
      have := (hends high').mpr ⟨hle', Int.le_refl _⟩
      omega
    rfl

theorem isFull_iff (h : r.WellFormed bits) : r.isFull = true ↔ r = full bits := by
  rw [isFull, beq_iff_eq]
  constructor
  · intro hfull
    rw [← h.bits_eq, full, ← hfull]
  · rintro rfl
    rfl

/-- A range that has all values of a full one is full. -/
theorem isFull_of_subset (hr : r.WellFormed bits) (hs : s.WellFormed bits) (hsub : r ⊆ s)
    (hfull : r.isFull = true) : s.isFull = true := by
  obtain rfl := hr.isFull_iff.mp hfull
  exact hs.isFull_iff.mpr (hs.ext hr fun v => ⟨hs.fits_of_mem, hsub v⟩)

end WellFormed

/-! ## Hulls -/

/-- **The hull of some integers**: the smallest well-formed range that has them all. -/
structure IsHull (r : SignedRange) (bits : Nat) (S : Set Int) : Prop where
  wellFormed : r.WellFormed bits
  contains : ∀ v ∈ S, v ∈ r
  least : ∀ s : SignedRange, s.WellFormed bits → (∀ v ∈ S, v ∈ s) → r ⊆ s

/-- A range whose bounds are among some integers, and no other of them is outside, is their hull. -/
theorem Within.isHull_ofBounds (h : Within bits low high) {S : Set Int} (hlow : low ∈ S)
    (hhigh : high ∈ S) (hS : ∀ v ∈ S, low ≤ v ∧ v ≤ high) :
    (ofBounds low high bits).IsHull bits S where
  wellFormed := h.wellFormed_ofBounds
  contains v hv := h.mem_ofBounds.mpr (hS v hv)
  least s hs hsub v hv := by
    obtain ⟨hle, hle'⟩ := h.mem_ofBounds.mp hv
    exact hs.mem_of_between (hsub low hlow) (hsub high hhigh) hle hle'

theorem isHull_empty (h : 1 ≤ bits) (h' : bits ≤ 64) : (empty bits).IsHull bits ∅ :=
  ⟨wellFormed_empty h h', nofun, fun _ _ _ _ hv => absurd hv not_mem_empty⟩

theorem isHull_full (h : 1 ≤ bits) (h' : bits ≤ 64) :
    (full bits).IsHull bits {v | Word.Fits bits v} := by
  have hall := within_all h h'
  rw [← ofBounds_all h h']
  exact hall.isHull_ofBounds hall.fits_low hall.fits_high fun _ hv => hv

theorem isHull_singleton (h : 1 ≤ bits) (h' : bits ≤ 64) (hv : Word.Fits bits v) :
    (singleton v bits).IsHull bits {v} :=
  Within.isHull_ofBounds ⟨h, h', hv.1, Int.le_refl v, hv.2⟩ rfl rfl
    fun _ hu => ⟨Int.le_of_eq hu.symm, Int.le_of_eq hu⟩

/-- **The union of two ranges** is the hull of their values. -/
theorem WellFormed.isHull_union (hr : r.WellFormed bits) (hs : s.WellFormed bits) :
    (r.union s).IsHull bits {v | v ∈ r ∨ v ∈ s} := by
  obtain rfl | ⟨low, high, h, rfl⟩ := hr.cases
  · have hunion : (empty bits).union s = s := by
      rw [← hs.bits_eq]
      rfl
    rw [hunion]
    exact ⟨hs, fun v hv => hv.resolve_left not_mem_empty, fun t _ ht v hv => ht v (Or.inr hv)⟩
  · obtain rfl | ⟨low', high', h', rfl⟩ := hs.cases
    · have hunion : (ofBounds low high bits).union (empty bits) = ofBounds low high bits := by
        rw [union, h.bounds?_ofBounds]
        rfl
      rw [hunion]
      exact ⟨hr, fun v hv => hv.resolve_right not_mem_empty, fun t _ ht v hv => ht v (Or.inl hv)⟩
    · have hunion : (ofBounds low high bits).union (ofBounds low' high' bits) =
          ofBounds (min low low') (max high high') bits := by
        rw [union, h.bounds?_ofBounds, h'.bounds?_ofBounds]
        rfl
      rw [hunion]
      have hle := h.ordered
      have hle' := h'.ordered
      -- with two ranges that hold something, the bounds of the union are themselves members, so no
      -- smaller range holds both
      have hboth : Within bits (min low low') (max high high') :=
        ⟨h.one_le, h.le_64, le_min h.lowest_le h'.lowest_le, by omega,
          max_le h.le_highest h'.le_highest⟩
      refine hboth.isHull_ofBounds ?_ ?_ fun v hv => ?_
      · show _ ∨ _
        rw [h.mem_ofBounds, h'.mem_ofBounds]
        omega
      · show _ ∨ _
        rw [h.mem_ofBounds, h'.mem_ofBounds]
        omega
      · have hv : _ ∨ _ := hv
        rw [h.mem_ofBounds, h'.mem_ofBounds] at hv
        omega

namespace IsHull

variable {S T : Set Int}

/-- The union of two hulls is the hull of both. -/
theorem union (hr : r.IsHull bits S) (hs : s.IsHull bits T) : (r.union s).IsHull bits (S ∪ T) := by
  have hunion := hr.wellFormed.isHull_union hs.wellFormed
  refine ⟨hunion.wellFormed, fun v hv => hunion.contains v ?_,
    fun t ht hsub => hunion.least t ht ?_⟩
  · exact hv.imp (hr.contains v) (hs.contains v)
  · rintro v (hv | hv)
    · exact hr.least t ht (fun u hu => hsub u (Or.inl hu)) v hv
    · exact hs.least t ht (fun u hu => hsub u (Or.inr hu)) v hv

/-- Nothing has an empty hull but nothing. -/
theorem eq_empty_iff (h : r.IsHull bits S) : r = empty bits ↔ S = ∅ := by
  constructor
  · rintro rfl
    exact Set.eq_empty_iff_forall_notMem.mpr fun v hv => not_mem_empty (h.contains v hv)
  · rintro rfl
    have hempty := wellFormed_empty h.wellFormed.one_le h.wellFormed.le_64
    refine h.wellFormed.ext hempty fun v => ⟨h.least _ hempty nofun v, fun hv => ?_⟩
    exact absurd hv not_mem_empty

/-- A hull is full if the least and the greatest word are in it, and for no other reason. -/
theorem eq_full_iff (h : r.IsHull bits S) (hS : ∀ v ∈ S, Word.Fits bits v) :
    r = full bits ↔ Word.lowest bits ∈ S ∧ Word.highest bits ∈ S := by
  have hone := h.wellFormed.one_le
  have h64 := h.wellFormed.le_64
  have hlt := Word.lowest_lt_highest bits
  have hall := within_all hone h64
  constructor
  · rintro rfl
    -- if an end were missing, the range without this end would be smaller
    constructor
    · by_contra hnone
      have hrest : Within bits (Word.lowest bits + 1) (Word.highest bits) :=
        ⟨hone, h64, by omega, by omega, by omega⟩
      have hsub := h.least _ hrest.wellFormed_ofBounds fun v hv => hrest.mem_ofBounds.mpr ?_
      · have := hrest.mem_ofBounds.mp (hsub _ (mem_full.mpr hall.fits_low))
        omega
      · obtain ⟨hle, hle'⟩ := hS v hv
        have hne : v ≠ Word.lowest bits := fun heq => hnone (heq ▸ hv)
        omega
    · by_contra hnone
      have hrest : Within bits (Word.lowest bits) (Word.highest bits - 1) :=
        ⟨hone, h64, by omega, by omega, by omega⟩
      have hsub := h.least _ hrest.wellFormed_ofBounds fun v hv => hrest.mem_ofBounds.mpr ?_
      · have := hrest.mem_ofBounds.mp (hsub _ (mem_full.mpr hall.fits_high))
        omega
      · obtain ⟨hle, hle'⟩ := hS v hv
        have hne : v ≠ Word.highest bits := fun heq => hnone (heq ▸ hv)
        omega
  · rintro ⟨hlow, hhigh⟩
    refine h.wellFormed.ext (wellFormed_full hone h64) fun v => ⟨h.wellFormed.fits_of_mem, ?_⟩
    exact fun hv => h.wellFormed.mem_of_between (h.contains _ hlow) (h.contains _ hhigh) hv.1 hv.2

end IsHull

/-! ## Common values -/

/-- **The intersection of two ranges** has their common values. -/
theorem WellFormed.inter (hr : r.WellFormed bits) (hs : s.WellFormed bits) :
    (r.inter s).WellFormed bits ∧ ∀ v, v ∈ r.inter s ↔ v ∈ r ∧ v ∈ s := by
  have hnone := wellFormed_empty hr.one_le hr.le_64
  obtain rfl | ⟨low, high, h, rfl⟩ := hr.cases
  · exact ⟨hnone, fun v => iff_of_false not_mem_empty fun hv => not_mem_empty hv.1⟩
  · obtain rfl | ⟨low', high', h', rfl⟩ := hs.cases
    · have hinter : (ofBounds low high bits).inter (empty bits) = empty bits := by
        rw [SignedRange.inter, h.bounds?_ofBounds]
        rfl
      rw [hinter]
      exact ⟨hnone, fun v => iff_of_false not_mem_empty fun hv => not_mem_empty hv.2⟩
    · have hinter : (ofBounds low high bits).inter (ofBounds low' high' bits) =
          ofBounds (max low low') (min high high') bits := by
        rw [SignedRange.inter, h.bounds?_ofBounds, h'.bounds?_ofBounds]
        rfl
      rw [hinter]
      have hlow := h.lowest_le
      have hhigh := h.le_highest
      simp only [h.mem_ofBounds, h'.mem_ofBounds]
      -- bounds that cross stand for the empty range, which is how disjoint ranges come out
      by_cases hle : max low low' ≤ min high high'
      · have hboth : Within bits (max low low') (min high high') :=
          ⟨h.one_le, h.le_64, by omega, hle, by omega⟩
        refine ⟨hboth.wellFormed_ofBounds, fun v => hboth.mem_ofBounds.trans ?_⟩
        omega
      · rw [ofBounds_of_lt (Int.not_le.mp hle)]
        exact ⟨hnone, fun v => iff_of_false not_mem_empty (by omega)⟩

/-! ## Conversions -/

/-- **Conversions keep what they make of each value.** A conversion of ranges of one width to
another that gives a well-formed range, in which every value of the first range is found as `cut`
makes it. -/
def Converts (r : SignedRange) (bits : Nat) (cut : Int → Int) (s : SignedRange) : Prop :=
  s.WellFormed bits ∧ ∀ v ∈ r, cut v ∈ s

section Converts

variable {bits' : Nat}

theorem converts_empty (h : 1 ≤ bits') (h' : bits' ≤ 64) (cut : Int → Int) :
    (empty bits).Converts bits' cut (empty bits') :=
  ⟨wellFormed_empty h h', fun _ hv => absurd hv not_mem_empty⟩

theorem Within.converts (h : Within bits low high) {low' high' : Int} (h' : Within bits' low' high')
    {cut : Int → Int} (hcut : ∀ v, low ≤ v → v ≤ high → low' ≤ cut v ∧ cut v ≤ high') :
    (ofBounds low high bits).Converts bits' cut (ofBounds low' high' bits') := by
  refine ⟨h'.wellFormed_ofBounds, fun v hv => h'.mem_ofBounds.mpr ?_⟩
  obtain ⟨hle, hle'⟩ := h.mem_ofBounds.mp hv
  exact hcut v hle hle'

/-- A range that fits the smaller width is kept, and any other one is given up. -/
theorem WellFormed.converts_truncate (hr : r.WellFormed bits) (hone : 1 ≤ bits')
    (h64 : bits' ≤ 64) :
    r.Converts bits' (Word.wrapSigned bits') (r.truncate bits') := by
  obtain rfl | ⟨low, high, h, rfl⟩ := hr.cases
  · exact converts_empty hone h64 _
  · rw [truncate, h.bounds?_ofBounds]
    dsimp only
    rw [least, greatest, effectiveBits_eq hone h64]
    split
    case isTrue hfits =>
      have h' : Within bits' low high := ⟨hone, h64, hfits.1, h.ordered, hfits.2⟩
      refine h.converts h' fun v hle hle' => ?_
      rw [Word.wrapSigned_eq_self hone ⟨Int.le_trans hfits.1 hle, Int.le_trans hle' hfits.2⟩]
      exact ⟨hle, hle'⟩
    case isFalse =>
      exact ⟨wellFormed_full hone h64, fun v _ => Word.fits_wrapSigned_of_pos hone v⟩

theorem zeroExtend_of_le (h : bits' ≤ r.bits) : r.zeroExtend bits' = r.truncate bits' := by
  unfold zeroExtend
  split
  case h_1 hnone => rw [truncate, hnone]
  case h_2 => exact if_pos h

theorem signExtend_of_lt (h : bits' < r.bits) : r.signExtend bits' = r.truncate bits' := by
  unfold signExtend
  split
  case h_1 hnone => rw [truncate, hnone]
  case h_2 => exact if_neg (Nat.not_le.mpr h)

/-- Resizing is a sign extension, whichever width is greater. -/
theorem resize_eq_signExtend : r.resize bits' = r.signExtend bits' := by
  unfold resize
  split
  case isTrue => rfl
  case isFalse hlt => exact (signExtend_of_lt (Nat.not_le.mp hlt)).symm

/-- The word that a zero extension from one width to another makes of a value. -/
def zeroExtended (bits bits' : Nat) (v : Int) : Int :=
  if bits < bits' then Word.wrapUnsigned bits v else Word.wrapSigned bits' v

/-- The word that a sign extension from one width to another makes of a value. -/
def signExtended (bits bits' : Nat) (v : Int) : Int :=
  if bits ≤ bits' then v else Word.wrapSigned bits' v

/-- At a greater width, a range on one side of zero moves as a whole, and one on both sides comes to
have all unsigned words. -/
theorem Within.converts_zeroExtend (h : Within bits low high) (hlt : bits < bits')
    (h64 : bits' ≤ 64) :
    (ofBounds low high bits).Converts bits' (Word.wrapUnsigned bits)
      ((ofBounds low high bits).zeroExtend bits') := by
  have hone : 1 ≤ bits' := Nat.le_trans h.one_le hlt.le
  have hcount := Word.count_le_highest hlt
  have hpos := Word.count_pos bits
  have hbelow := Word.lowest_le_zero bits'
  have hfits : ∀ v, low ≤ v → v ≤ high → Word.Fits bits v := fun v hle hle' =>
    ⟨Int.le_trans h.lowest_le hle, Int.le_trans hle' h.le_highest⟩
  have hwidth : (ofBounds low high bits).bits = bits := rfl
  -- three cases by sign: bounds that are not negative stay, negative bounds move up together by
  -- `count bits`, and a range across zero becomes all of the unsigned values
  rw [zeroExtend, h.bounds?_ofBounds]
  dsimp only
  rw [hwidth, if_neg (Nat.not_le.mpr hlt), effectiveBits_eq h.one_le h.le_64]
  split
  case isTrue hnonneg =>
    have hhigh := (h.fits_high.of_le hlt.le).2
    refine h.converts ⟨hone, h64, by omega, h.ordered, hhigh⟩ fun v hle hle' => ?_
    rw [Word.wrapUnsigned_of_nonneg h.one_le (hfits v hle hle') (by omega)]
    exact ⟨hle, hle'⟩
  case isFalse =>
    split
    case isTrue hneg =>
      have hlow : 0 ≤ low + Word.count bits := by
        rw [← Word.wrapUnsigned_of_neg h.one_le h.fits_low (Int.lt_of_le_of_lt h.ordered hneg)]
        exact Word.wrapUnsigned_nonneg bits low
      have hle := h.ordered
      refine h.converts ⟨hone, h64, by omega, by omega, by omega⟩ fun v hv hv' => ?_
      rw [Word.wrapUnsigned_of_neg h.one_le (hfits v hv hv') (by omega)]
      omega
    case isFalse =>
      refine h.converts ⟨hone, h64, hbelow, by omega, hcount⟩ fun v _ _ => ?_
      have hnonneg := Word.wrapUnsigned_nonneg bits v
      have hless := Word.wrapUnsigned_lt bits v
      omega

/-- Extending by zeros keeps what it makes of each value, whichever way the range is written. -/
theorem WellFormed.converts_zeroExtend (hr : r.WellFormed bits) (hone : 1 ≤ bits')
    (h64 : bits' ≤ 64) :
    r.Converts bits' (zeroExtended bits bits') (r.zeroExtend bits') := by
  by_cases hlt : bits < bits'
  · have hcut : zeroExtended bits bits' = Word.wrapUnsigned bits := funext fun v => if_pos hlt
    rw [hcut]
    obtain rfl | ⟨low, high, h, rfl⟩ := hr.cases
    · exact converts_empty hone h64 _
    · exact h.converts_zeroExtend hlt h64
  · have hcut : zeroExtended bits bits' = Word.wrapSigned bits' := funext fun v => if_neg hlt
    rw [hcut, zeroExtend_of_le (hr.bits_eq ▸ Nat.not_lt.mp hlt)]
    exact hr.converts_truncate hone h64

/-- So does extending by the sign. -/
theorem WellFormed.converts_signExtend (hr : r.WellFormed bits) (hone : 1 ≤ bits')
    (h64 : bits' ≤ 64) :
    r.Converts bits' (signExtended bits bits') (r.signExtend bits') := by
  by_cases hle : bits ≤ bits'
  · have hcut : signExtended bits bits' = id := funext fun v => if_pos hle
    rw [hcut]
    obtain rfl | ⟨low, high, h, rfl⟩ := hr.cases
    · exact converts_empty hone h64 _
    · have hsame : (ofBounds low high bits).signExtend bits' = ofBounds low high bits' := by
        rw [signExtend, h.bounds?_ofBounds]
        exact if_pos hle
      have hlow := (h.fits_low.of_le hle).1
      have hhigh := (h.fits_high.of_le hle).2
      rw [hsame]
      exact h.converts ⟨hone, h64, hlow, h.ordered, hhigh⟩ fun v hv hv' => ⟨hv, hv'⟩
  · have hcut : signExtended bits bits' = Word.wrapSigned bits' := funext fun v => if_neg hle
    rw [hcut, signExtend_of_lt (hr.bits_eq ▸ Nat.not_le.mp hle)]
    exact hr.converts_truncate hone h64

end Converts

/-- **Operations on ranges are sound**, at every width from 1 to 64, and give well-formed ranges.
The union of two ranges of one width is the smallest range with the values of both, and the
intersection has the common values. Of every value in a range, a conversion to any other width keeps
what it makes of the value: its low bits at a smaller width, and at a greater one the value itself,
or its unsigned reading if the range is extended with zeros. -/
theorem operations_sound (hr : r.WellFormed bits) :
    (∀ s : SignedRange, s.WellFormed bits →
      (r.union s).IsHull bits {v | v ∈ r ∨ v ∈ s} ∧
      (r.inter s).WellFormed bits ∧ ∀ v, v ∈ r.inter s ↔ v ∈ r ∧ v ∈ s) ∧
    ∀ bits', 1 ≤ bits' → bits' ≤ 64 →
      r.Converts bits' (Word.wrapSigned bits') (r.truncate bits') ∧
      r.Converts bits' (zeroExtended bits bits') (r.zeroExtend bits') ∧
      r.Converts bits' (signExtended bits bits') (r.signExtend bits') ∧
      r.Converts bits' (signExtended bits bits') (r.resize bits') := by
  refine ⟨fun s hs => ⟨hr.isHull_union hs, hr.inter hs⟩, fun bits' hone h64 => ?_⟩
  have hsign := hr.converts_signExtend hone h64
  refine ⟨hr.converts_truncate hone h64, hr.converts_zeroExtend hone h64, hsign, ?_⟩
  rw [resize_eq_signExtend]
  exact hsign

/-- Words of 8 bits on both sides of zero, with the least of them. -/
def acrossZero : SignedRange := ⟨8, .span (-128) 100⟩

/-- The greatest words of 8 bits. -/
def uppermost : SignedRange := ⟨8, .span 50 127⟩

/-- The two ranges have all words together. Read as unsigned, -1 is 255, which is why zeros extend
the first one to all unsigned words. -/
theorem acrossZero_operations_sound : acrossZero.WellFormed 8 ∧ uppermost.WellFormed 8 ∧
    acrossZero.union uppermost = full 8 ∧
    (full 8).IsHull 8 {v | v ∈ acrossZero ∨ v ∈ uppermost} ∧
    acrossZero.inter uppermost = ⟨8, .span 50 100⟩ ∧
    acrossZero.zeroExtend 16 = ⟨16, .span 0 255⟩ ∧ (-1 : Int) ∈ acrossZero ∧
    (255 : Int) ∈ acrossZero.zeroExtend 16 := by
  have hwithin : Within 8 (-128) 100 := by constructor <;> decide
  have hwithin' : Within 8 50 127 := by constructor <;> decide
  have hr : acrossZero.WellFormed 8 := hwithin.wellFormed_ofBounds
  have hs : uppermost.WellFormed 8 := hwithin'.wellFormed_ofBounds
  have hunion : acrossZero.union uppermost = full 8 := by decide
  obtain ⟨hpair, hconvert⟩ := operations_sound hr
  have hmem : (-1 : Int) ∈ acrossZero := by decide
  refine ⟨hr, hs, hunion, hunion ▸ (hpair uppermost hs).1, by decide, by decide, hmem, ?_⟩
  exact (hconvert 16 (by decide) (by decide)).2.1.2 (-1) hmem

end ErrorReturns.SignedRange
