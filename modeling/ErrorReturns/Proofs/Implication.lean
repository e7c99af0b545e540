import ErrorReturns.Proofs.Constant

/-!
# Which comparisons imply which

Two tables say when one comparison of two constants forces another, or rules it out. They are sound
at every width: equal signed readings have equal unsigned ones, and each of the two orders is one.
Completeness is a question of counterexamples. Two constants are equal, or their signed and unsigned
orders are one of four combinations, and zero with its two neighbours shows all five cases as soon
as there are two bits (`Predicate.evaluate_of_small`): the width changes how far -1 is above the
others without a sign, but not that it is. So an implication that the tables leave out fails at two
of these three, at every width alike (`Predicate.impliesTrue_of_small`).

With a single bit, one is its own negative, and the signed order is the unsigned one reversed. Then
more comparisons imply each other than the tables say.
-/

namespace ErrorReturns.Predicate

variable {w : Nat} {a b : Int}

/-- A comparison of integers depends on their order only. -/
theorem onInts_congr (p : Predicate) {l r l' r' : Int} (hlt : l < r ↔ l' < r')
    (hgt : r < l ↔ r' < l') : p.onInts l r = p.onInts l' r' := by
  rw [Bool.eq_iff_iff]
  cases p <;> simp only [onInts, beq_iff_eq, bne_iff_ne, decide_eq_true_iff] <;> omega

/-- The readings of a word in range: without a sign, what is negative moves up. -/
theorem readings_ofInt (hpos : 1 ≤ w) (hle : w ≤ 64) (ha : Word.Fits w a) :
    (Constant.ofInt a w).value = a ∧
      (Constant.ofInt a w).unsigned = if a < 0 then a + Word.count w else a := by
  have ha' := ha.of_le hle
  refine ⟨?_, ?_⟩
  · rw [Constant.value_ofInt_eq_wrapSigned hpos hle ha', Word.wrapSigned_eq_self hpos ha]
  · refine (Constant.unsigned_ofInt_eq_emod hpos hle ha').trans ?_
    split
    case isTrue hneg => exact Word.wrapUnsigned_of_neg hpos ha hneg
    case isFalse hneg => exact Word.wrapUnsigned_of_nonneg hpos ha (Int.not_lt.mp hneg)

/-- **Zero and its neighbours compare alike at every width** of two bits and more. -/
theorem evaluate_of_small (p : Predicate) (hw : 2 ≤ w) (hle : w ≤ 64) (ha : Word.Fits 2 a)
    (ha' : -1 ≤ a) (hb : Word.Fits 2 b) (hb' : -1 ≤ b) :
    p.evaluate (.ofInt a w) (.ofInt b w) = p.evaluate (.ofInt a 2) (.ofInt b 2) := by
  have hpos : 1 ≤ w := Nat.le_of_succ_le hw
  obtain ⟨hva, hua⟩ := readings_ofInt hpos hle (ha.of_le hw)
  obtain ⟨hvb, hub⟩ := readings_ofInt hpos hle (hb.of_le hw)
  obtain ⟨hva2, hua2⟩ := readings_ofInt (by decide) (by decide) ha
  obtain ⟨hvb2, hub2⟩ := readings_ofInt (by decide) (by decide) hb
  have hcount : Word.count 2 ≤ Word.count w := Word.count_le_count hw
  have hfour : Word.count 2 = 4 := rfl
  have hhigh : Word.highest 2 = 1 := rfl
  have hamax := ha.2
  have hbmax := hb.2
  rw [evaluate, evaluate, hva, hvb, hva2, hvb2, hua, hub, hua2, hub2]
  split
  · exact onInts_congr p (by split <;> split <;> omega) (by split <;> split <;> omega)
  · rfl

/-- **An implication that holds between zero and its neighbours is in the table.** -/
theorem impliesTrue_of_small {p q : Predicate}
    (h : ∀ a ∈ [-1, 0, 1], ∀ b ∈ [-1, 0, 1], p.evaluate (.ofInt a 2) (.ofInt b 2) = true →
      q.evaluate (.ofInt a 2) (.ofInt b 2) = true) : p.impliesTrue q = true := by
  revert h
  cases p <;> cases q <;> decide

/-- **The table is complete** at every width of two bits and more. -/
theorem impliesTrue_of_forall {p q : Predicate} (hw : 2 ≤ w) (hle : w ≤ 64)
    (h : ∀ l r : Constant, l.OfWidth w → r.OfWidth w → p.evaluate l r = true →
      q.evaluate l r = true) : p.impliesTrue q = true := by
  have hsmall : ∀ c ∈ [-1, 0, 1], Word.Fits 2 c ∧ -1 ≤ c := by decide
  have hpos : 1 ≤ w := Nat.le_of_succ_le hw
  refine impliesTrue_of_small fun a ha b hb hp => ?_
  obtain ⟨ha, ha'⟩ := hsmall a ha
  obtain ⟨hb, hb'⟩ := hsmall b hb
  rw [← evaluate_of_small _ hw hle ha ha' hb hb'] at hp ⊢
  exact h _ _ (Constant.ofWidth_ofInt hpos hle (ha.of_le (by decide)))
    (Constant.ofWidth_ofInt hpos hle (hb.of_le (by decide))) hp

theorem impliesFalse_of_forall {p q : Predicate} (hw : 2 ≤ w) (hle : w ≤ 64)
    (h : ∀ l r : Constant, l.OfWidth w → r.OfWidth w → p.evaluate l r = true →
      q.evaluate l r = false) : p.impliesFalse q = true :=
  impliesTrue_of_forall hw hle fun l r hl hr hp => by
    rw [evaluate_inverse, h l r hl hr hp]
    rfl

/-- **The tables of implications are exact.** What they say holds of all constants of a common
width, a single bit included. From two bits on they also say all there is to say: one comparison
forces another, or rules it out, for all constants of a width only if the tables list it. -/
theorem implications_exact (p q : Predicate) :
    (∀ w, ∀ l r : Constant, l.OfWidth w → r.OfWidth w → p.evaluate l r = true →
      (p.impliesTrue q = true → q.evaluate l r = true) ∧
      (p.impliesFalse q = true → q.evaluate l r = false)) ∧
    ∀ w, 2 ≤ w → w ≤ 64 →
      (p.impliesTrue q = true ↔ ∀ l r : Constant, l.OfWidth w → r.OfWidth w →
        p.evaluate l r = true → q.evaluate l r = true) ∧
      (p.impliesFalse q = true ↔ ∀ l r : Constant, l.OfWidth w → r.OfWidth w →
        p.evaluate l r = true → q.evaluate l r = false) := by
  have hsound : ∀ w, ∀ l r : Constant, l.OfWidth w → r.OfWidth w → p.evaluate l r = true →
      (p.impliesTrue q = true → q.evaluate l r = true) ∧
      (p.impliesFalse q = true → q.evaluate l r = false) := by
    intro w l r hl hr hp
    have hbits : l.bits = r.bits := hl.bits_eq.trans hr.bits_eq.symm
    exact ⟨fun h => evaluate_of_impliesTrue h hbits hp,
      fun h => evaluate_of_impliesFalse h hbits hp⟩
  refine ⟨hsound, fun w hw hle => ⟨⟨fun h l r hl hr hp => ?_, impliesTrue_of_forall hw hle⟩,
    ⟨fun h l r hl hr hp => ?_, impliesFalse_of_forall hw hle⟩⟩⟩
  · exact (hsound w l r hl hr hp).1 h
  · exact (hsound w l r hl hr hp).2 h

/-- At 64 bits the signed order says nothing about the unsigned one, and greater still means
different at one bit. -/
theorem implications_exact_at_ends :
    (∀ l r : Constant, l.OfWidth 1 → r.OfWidth 1 → sgt.evaluate l r = true →
      ne.evaluate l r = true ∧ sle.evaluate l r = false) ∧
    ¬ (∀ l r : Constant, l.OfWidth 64 → r.OfWidth 64 → slt.evaluate l r = true →
      ugt.evaluate l r = true) ∧
    ∀ l r : Constant, l.OfWidth 2 → r.OfWidth 2 → eq.evaluate l r = true →
      ult.evaluate l r = false := by
  refine ⟨fun l r hl hr hp => ?_, fun h => ?_, ?_⟩
  · exact ⟨((implications_exact sgt ne).1 1 l r hl hr hp).1 (by decide),
      ((implications_exact sgt sle).1 1 l r hl hr hp).2 (by decide)⟩
  · have hlisted := ((implications_exact slt ugt).2 64 (by decide) (by decide)).1.mpr h
    exact absurd hlisted (by decide)
  · exact ((implications_exact eq ult).2 2 (by decide) (by decide)).2.mp (by decide)

/-- With one bit the tables are not complete: what is less with a sign is greater without one. -/
example : slt.impliesTrue ugt = false ∧ ∀ a ∈ [-1, 0], ∀ b ∈ [-1, 0],
    slt.evaluate (.ofInt a 1) (.ofInt b 1) = true →
      ugt.evaluate (.ofInt a 1) (.ofInt b 1) = true := by
  decide

end ErrorReturns.Predicate
