import ErrorReturns.Proofs.RangeSet.Membership

/-!
# The laws of sets

Whether two sets are equal, one is a subset of another, or a set is empty or full is read off the
lists of ranges. The list of a canonical set is unique (`RangeSet.Canonical.ext`), and so each of
these is a question about the words that are members (`Canonical.eq_iff`, `isSubset_iff_words`,
`isEmpty_iff`, `isFull_iff`).

A law between sets is then proved by looking at one word at a time, where it is a law of logic.
Union and intersection are those of a lattice, and the complement trades the empty set for the full
one (`isEmpty_compl`, `isFull_compl`), so that where it is defined it can be taken again.
-/

namespace ErrorReturns

namespace RangeSet

variable {a b c : RangeSet}

/-! ## Questions about members -/

/-- Sets of words are equal if they have the same words. -/
theorem Canonical.ext_words (ha : a.Canonical) (hb : b.Canonical)
    (h : ∀ v, Word.Fits 32 v → (v ∈ a ↔ v ∈ b)) : a = b :=
  ha.ext hb fun v => ⟨fun hv => (h v (ha.fits_of_mem hv)).mp hv,
    fun hv => (h v (hb.fits_of_mem hv)).mpr hv⟩

theorem Canonical.eq_iff (ha : a.Canonical) (hb : b.Canonical) :
    a = b ↔ ∀ v, Word.Fits 32 v → (v ∈ a ↔ v ∈ b) :=
  ⟨fun h _ _ => h ▸ Iff.rfl, ha.ext_words hb⟩

theorem Canonical.isSubset_iff_words (ha : a.Canonical) (hb : b.Canonical) :
    a.isSubset b = true ↔ ∀ v, Word.Fits 32 v → v ∈ a → v ∈ b := by
  rw [ha.isSubset_iff hb]
  exact ⟨fun h v _ => h v, fun h v hv => h v (ha.fits_of_mem hv) hv⟩

theorem Canonical.isEmpty_iff (h : a.Canonical) :
    a.isEmpty = true ↔ ∀ v, Word.Fits 32 v → v ∉ a := by
  rw [← Bool.not_eq_false, h.isEmpty_eq_false_iff, not_exists]
  exact ⟨fun hnone v _ => hnone v, fun hnone v hv => hnone v (h.fits_of_mem hv) hv⟩

theorem Canonical.isFull_iff (h : a.Canonical) :
    a.isFull = true ↔ ∀ v, Word.Fits 32 v → v ∈ a := by
  rw [isFull, beq_iff_eq, h.eq_iff canonical_full]
  refine forall₂_congr fun v hv => ?_
  rw [mem_full, iff_true_right hv]

/-! ## Union and intersection -/

theorem Canonical.union_assoc (ha : a.Canonical) (hb : b.Canonical) (hc : c.Canonical) :
    a ∪ b ∪ c = a ∪ (b ∪ c) :=
  Canonical.ext ((ha.union hb).union hc) (ha.union (hb.union hc)) fun v => by
    simp only [mem_union, or_assoc]

theorem Canonical.union_comm (ha : a.Canonical) (hb : b.Canonical) : a ∪ b = b ∪ a :=
  Canonical.ext (ha.union hb) (hb.union ha) fun v => by simp only [mem_union, or_comm]

theorem Canonical.union_self (h : a.Canonical) : a ∪ a = a :=
  Canonical.ext (h.union h) h fun v => by simp only [mem_union, or_self]

theorem Canonical.inter_assoc (ha : a.Canonical) (hb : b.Canonical) (hc : c.Canonical) :
    a ∩ b ∩ c = a ∩ (b ∩ c) :=
  Canonical.ext ((ha.inter hb).inter hc) (ha.inter (hb.inter hc)) fun v => by
    simp only [mem_inter, and_assoc]

theorem Canonical.inter_comm (ha : a.Canonical) (hb : b.Canonical) : a ∩ b = b ∩ a :=
  Canonical.ext (ha.inter hb) (hb.inter ha) fun v => by simp only [mem_inter, and_comm]

theorem Canonical.inter_self (h : a.Canonical) : a ∩ a = a :=
  Canonical.ext (h.inter h) h fun v => by simp only [mem_inter, and_self]

/-- What both sets have adds nothing to either. -/
theorem Canonical.union_inter_self (ha : a.Canonical) (hb : b.Canonical) : a ∪ a ∩ b = a :=
  Canonical.ext (ha.union (ha.inter hb)) ha fun v => by
    rw [mem_union, mem_inter]
    exact or_iff_left_of_imp And.left

/-- What either set has takes nothing away from one of them. -/
theorem Canonical.inter_union_self (ha : a.Canonical) (hb : b.Canonical) : a ∩ (a ∪ b) = a :=
  Canonical.ext (ha.inter (ha.union hb)) ha fun v => by
    rw [mem_inter, mem_union]
    exact and_iff_left_of_imp Or.inl

/-! ## Complements -/

theorem Canonical.compl_compl (h : a.Canonical) : a.compl.compl = a :=
  h.compl.compl.ext_words h fun v hv => by
    rw [h.compl.mem_compl hv, h.mem_compl hv, not_not]

theorem Canonical.union_compl (h : a.Canonical) : a ∪ a.compl = full :=
  Canonical.ext_words (h.union h.compl) canonical_full fun v hv => by
    rw [mem_union, h.mem_compl hv, mem_full]
    exact iff_of_true (Decidable.em _) hv

theorem Canonical.inter_compl (h : a.Canonical) : a ∩ a.compl = empty :=
  Canonical.ext_words (h.inter h.compl) canonical_empty fun v hv => by
    rw [mem_inter, h.mem_compl hv]
    exact iff_of_false (fun hboth => hboth.2 hboth.1) not_mem_nil

/-- A complement has no words exactly if nothing is left for it. -/
theorem Canonical.isEmpty_compl (h : a.Canonical) : a.compl.isEmpty = a.isFull := by
  rw [Bool.eq_iff_iff, h.compl.isEmpty_iff, h.isFull_iff]
  exact forall₂_congr fun v hv => by rw [h.mem_compl hv, not_not]

theorem Canonical.isFull_compl (h : a.Canonical) : a.compl.isFull = a.isEmpty := by
  rw [Bool.eq_iff_iff, h.compl.isFull_iff, h.isEmpty_iff]
  exact forall₂_congr fun v hv => h.mem_compl hv

/-- **The complement of a set that has one** has a complement as well, which is the set. -/
theorem Canonical.exists_complement (h : a.Canonical) (hempty : a.isEmpty = false)
    (hfull : a.isFull = false) : ∃ s, a.complement = .ok s ∧ s.isEmpty = false ∧
      s.isFull = false ∧ s.complement = .ok a ∧ a ∪ s = full ∧ a ∩ s = empty := by
  have hempty' : a.compl.isEmpty = false := h.isEmpty_compl.trans hfull
  have hfull' : a.compl.isFull = false := h.isFull_compl.trans hempty
  exact ⟨a.compl, complement_eq_ok_iff.mpr ⟨hempty, hfull, rfl⟩, hempty', hfull',
    complement_eq_ok_iff.mpr ⟨hempty', hfull', h.compl_compl⟩, h.union_compl, h.inter_compl⟩

/-! ## All laws -/

/-- **Canonical sets are determined by their members.** They are equal exactly if they have the same
words, and inclusion, emptiness and fullness are questions about words as well. So union and
intersection obey the laws of a lattice as equalities of lists, and the complement of a set that is
neither empty nor full is such a set again, gives the set back, and shares no word with it but has
every other one. -/
theorem canonical_laws (ha : a.Canonical) (hb : b.Canonical) (hc : c.Canonical) :
    ((a == b) = true ↔ ∀ v, Word.Fits 32 v → (v ∈ a ↔ v ∈ b)) ∧
    (a.isSubset b = true ↔ ∀ v, Word.Fits 32 v → v ∈ a → v ∈ b) ∧
    (a.isEmpty = true ↔ ∀ v, Word.Fits 32 v → v ∉ a) ∧
    (a.isFull = true ↔ ∀ v, Word.Fits 32 v → v ∈ a) ∧
    (a ∪ b ∪ c = a ∪ (b ∪ c) ∧ a ∪ b = b ∪ a ∧ a ∪ a = a) ∧
    (a ∩ b ∩ c = a ∩ (b ∩ c) ∧ a ∩ b = b ∩ a ∧ a ∩ a = a) ∧
    (a ∪ a ∩ b = a ∧ a ∩ (a ∪ b) = a) ∧
    (a.isEmpty = false → a.isFull = false → ∃ s, a.complement = .ok s ∧ s.isEmpty = false ∧
      s.isFull = false ∧ s.complement = .ok a ∧ a ∪ s = full ∧ a ∩ s = empty) := by
  refine ⟨beq_iff_eq.trans (ha.eq_iff hb), ha.isSubset_iff_words hb, ha.isEmpty_iff, ha.isFull_iff,
    ⟨ha.union_assoc hb hc, ha.union_comm hb, ha.union_self⟩,
    ⟨ha.inter_assoc hb hc, ha.inter_comm hb, ha.inter_self⟩,
    ⟨ha.union_inter_self hb, ha.inter_union_self hb⟩, ha.exists_complement⟩

/-- Sets that touch each other and the ends of the word: `b` fills the gap in the middle of `a`. -/
theorem canonical_laws_at_edges :
    let a : RangeSet := ⟨[⟨-2147483648, -7⟩, ⟨0, 2147483647⟩]⟩
    let b : RangeSet := ⟨[⟨-6, -1⟩]⟩
    let c : RangeSet := ⟨[⟨-2147483648, -2147483648⟩, ⟨2147483647, 2147483647⟩]⟩
    a.Canonical ∧ b.Canonical ∧ c.Canonical ∧ a ∪ b ∪ c = a ∪ (b ∪ c) ∧ a ∩ (a ∪ b) = a ∧
      a.isEmpty = false ∧ a.isFull = false ∧ ∃ s, a.complement = .ok s ∧ s.isEmpty = false ∧
        s.isFull = false ∧ s.complement = .ok a ∧ a ∪ s = full ∧ a ∩ s = empty := by
  intro a b c
  have ha : a.Canonical := by decide
  have hb : b.Canonical := by decide
  have hc : c.Canonical := by decide
  obtain ⟨-, -, -, -, hunion, -, habsorb, hcompl⟩ := canonical_laws ha hb hc
  exact ⟨ha, hb, hc, hunion.1, habsorb.2, by decide, by decide, hcompl (by decide) (by decide)⟩

end RangeSet

end ErrorReturns
