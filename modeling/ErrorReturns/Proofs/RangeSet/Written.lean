import ErrorReturns.Proofs.Document.Record
import ErrorReturns.Proofs.RangeSet.Membership
import ErrorReturns.Proofs.RangeSet.Reachable

/-!
# Sets that are written and read

Writing lists the ranges of a set as they are. Reading does not trust the list: it refuses a range
with its bounds inverted, sorts the others and joins those that overlap or touch. The two directions
meet at `RangeSet.Writes`, which says of a text that it writes a list of pairs of words, in whatever
form and order and whether or not the list is that of a set. The text of a set writes its ranges
(`RangeSet.writes_toJson`), and a text that writes a list is read as the union of its pairs if none
of them is inverted, and else not at all (`RangeSet.Writes.ofJson?_eq`). The ranges of a canonical
set are joined to themselves, so such a set comes back.
-/

namespace ErrorReturns

namespace Range

/-- **A document that carries a pair of words**, in order or not. -/
def Carries (d : Document) (r : Range) : Prop :=
  ∃ low high, shape.read? d = some [some low, some high] ∧
    low.asIntBetween? (Word.lowest 32) (Word.highest 32) = some r.low ∧
    high.asIntBetween? (Word.lowest 32) (Word.highest 32) = some r.high

/-- A pair is read as a range exactly when it is in order. -/
theorem Carries.ofDocument?_eq {d : Document} {r : Range} (h : Carries d r) :
    ofDocument? d = if r.low ≤ r.high then some r else none := by
  obtain ⟨low, high, hfields, hlow, hhigh⟩ := h
  simp only [ofDocument?, hfields, Option.bind_eq_bind, Option.bind_some, hlow, hhigh, ofBounds]
  by_cases hle : r.low ≤ r.high
  · rw [if_pos hle, if_pos hle]
    rfl
  · rw [if_neg hle, if_neg hle]
    rfl

theorem carries_toDocument {r : Range} (hlow : Word.Fits 32 r.low) (hhigh : Word.Fits 32 r.high) :
    Carries r.toDocument r :=
  ⟨_, _, shape.read?_ofRecord rfl (by decide), Document.asIntBetween?_ofInt hlow,
    Document.asIntBetween?_ofInt hhigh⟩

theorem proper_toDocument (r : Range) : r.toDocument.Proper := by
  refine Document.proper_ofRecord fun f hf => ?_
  rcases List.mem_cons.mp hf with rfl | hf
  · exact Document.proper_ofInt r.low
  · obtain rfl := List.mem_singleton.mp hf
    exact Document.proper_ofInt r.high

end Range

namespace RangeSet

/-- **A text that writes a list of pairs of words.** -/
def Writes (text : String) (l : List Range) : Prop :=
  ∃ d items, Document.read? text.toList = some d ∧ shape.read? d = some [some (.array items)] ∧
    List.Forall₂ Range.Carries items l

/-- Ranges are read if none of them is inverted. -/
theorem mapM_guard_eq {l : List Range} :
    (l.mapM fun r => if r.low ≤ r.high then some r else none) =
      if ∀ r ∈ l, r.low ≤ r.high then some l else none := by
  induction l with
  | nil => rfl
  | cons r l ih =>
    have hcons : (∀ x ∈ r :: l, x.low ≤ x.high) ↔ r.low ≤ r.high ∧ ∀ x ∈ l, x.low ≤ x.high :=
      List.forall_mem_cons
    rw [List.mapM_cons, ih]
    by_cases hr : r.low ≤ r.high
    · by_cases hl : ∀ x ∈ l, x.low ≤ x.high
      · rw [if_pos hr, if_pos hl, if_pos (hcons.mpr ⟨hr, hl⟩)]
        rfl
      · rw [if_pos hr, if_neg hl, if_neg fun h => hl (hcons.mp h).2]
        rfl
    · rw [if_neg hr, if_neg fun h => hr (hcons.mp h).1]
      rfl

/-- **What a text is read as**: the union of the pairs, unless one of them is inverted. -/
theorem Writes.ofJson?_eq {text : String} {l : List Range} (h : Writes text l) :
    ofJson? text = if ∀ r ∈ l, r.low ≤ r.high then some (ofRanges l) else none := by
  obtain ⟨d, items, hread, hfields, hitems⟩ := h
  have hranges : items.mapM Range.ofDocument? =
      if ∀ r ∈ l, r.low ≤ r.high then some l else none := by
    rw [← mapM_guard_eq]
    exact mapM_eq_mapM_of_forall₂ (hitems.imp fun _ _ hr => hr.ofDocument?_eq)
  simp only [ofJson?, hread, Option.bind_some, ofDocument?, hfields, Option.bind_eq_bind,
    Document.asList?, hranges]
  split
  · rfl
  · rfl

theorem proper_toDocument (s : RangeSet) : s.toDocument.Proper := by
  refine Document.proper_ofRecord fun f hf => ?_
  obtain rfl := List.mem_singleton.mp hf
  refine .array fun d hd => ?_
  obtain ⟨r, -, rfl⟩ := List.mem_map.mp hd
  exact r.proper_toDocument

/-- **The text of a list writes the list**, also where the list is not that of a set. -/
theorem writes_toJson {l : List Range} (h : ∀ r ∈ l, Word.Fits 32 r.low ∧ Word.Fits 32 r.high) :
    Writes (toJson ⟨l⟩) l := by
  refine ⟨toDocument ⟨l⟩, l.map Range.toDocument, ?_, shape.read?_ofRecord rfl (by decide), ?_⟩
  · rw [toJson, String.toList_ofList]
    exact Document.read?_compact (proper_toDocument ⟨l⟩)
  · rw [List.forall₂_map_left_iff, List.forall₂_same]
    exact fun r hr => Range.carries_toDocument (h r hr).1 (h r hr).2

/-- Joining the ranges of a canonical set changes nothing. -/
theorem Canonical.ofRanges_ranges {s : RangeSet} (h : s.Canonical) : ofRanges s.ranges = s :=
  (canonical_ofRanges h.valid).ext h fun _ => mem_ofRanges.trans mem_iff.symm

/-- **A canonical set comes back** from its text. -/
theorem Canonical.ofJson?_toJson {s : RangeSet} (h : s.Canonical) : ofJson? s.toJson = some s := by
  have hwrites : Writes s.toJson s.ranges := by
    refine writes_toJson fun r hr => ?_
    have hr := h.valid r hr
    exact ⟨⟨hr.lowest_le, Int.le_trans hr.ordered hr.le_highest⟩,
      ⟨Int.le_trans hr.lowest_le hr.ordered, hr.le_highest⟩⟩
  rw [hwrites.ofJson?_eq, if_pos fun r hr => (h.valid r hr).ordered, h.ofRanges_ranges]

/-- **Writing and reading.** A canonical set comes back from its text, and so does the text from the
set that is read. The text of any list of pairs of words writes it, and every text that writes such
a list, whatever the order of the pairs and however they overlap, is refused exactly when one of
them is inverted, and is otherwise read as a canonical set with the values that lie in one of
them. -/
theorem writing_and_reading :
    (∀ s : RangeSet, s.Canonical →
      ofJson? s.toJson = some s ∧ (ofJson? s.toJson).map toJson = some s.toJson) ∧
    (∀ l : List Range, (∀ r ∈ l, Word.Fits 32 r.low ∧ Word.Fits 32 r.high) →
      Writes (toJson ⟨l⟩) l) ∧
    (∀ (text : String) (l : List Range), Writes text l →
      (ofJson? text = none ↔ ∃ r ∈ l, r.high < r.low) ∧
      ∀ s, ofJson? text = some s →
        s.Canonical ∧ ∀ v, v ∈ s ↔ ∃ r ∈ l, r.low ≤ v ∧ v ≤ r.high) := by
  refine ⟨fun s hs => ⟨hs.ofJson?_toJson, ?_⟩, fun l hl => writes_toJson hl,
    fun text l h => ⟨?_, fun s hs => ?_⟩⟩
  · rw [hs.ofJson?_toJson, Option.map_some]
  · rw [h.ofJson?_eq, ite_eq_right_iff]
    simp only [reduceCtorEq, imp_false, not_forall, Int.not_le, exists_prop]
  · refine ⟨(Reachable.read hs).canonical, fun v => ?_⟩
    rw [h.ofJson?_eq, Option.ite_none_right_eq_some, Option.some_inj] at hs
    rw [← hs.2, mem_ofRanges]

/-- Pairs that are out of order, overlap and touch. -/
def scatteredPairs : List Range := [⟨5, 6⟩, ⟨9, 9⟩, ⟨0, 4⟩, ⟨3, 5⟩]

/-- Scattered pairs are read as two ranges, from the text of their list and from one that leaves out
the names of the fields. Those two ranges come back as they are, and a single inverted pair spoils
a list. -/
theorem writing_and_reading_scatteredPairs :
    Writes (toJson ⟨scatteredPairs⟩) scatteredPairs ∧
      Writes "[[[5,6],[9,9],[0,4],[3,5]]]" scatteredPairs ∧
      ofJson? (toJson ⟨scatteredPairs⟩) = some ⟨[⟨0, 6⟩, ⟨9, 9⟩]⟩ ∧
      ofJson? "[[[5,6],[9,9],[0,4],[3,5]]]" = some ⟨[⟨0, 6⟩, ⟨9, 9⟩]⟩ ∧
      ofJson? (toJson ⟨[⟨0, 6⟩, ⟨9, 9⟩]⟩) = some ⟨[⟨0, 6⟩, ⟨9, 9⟩]⟩ ∧
      ofJson? (toJson ⟨[⟨5, 6⟩, ⟨1, 0⟩]⟩) = none := by
  obtain ⟨hback, hwrites, hread⟩ := writing_and_reading
  have hfits : ∀ r ∈ scatteredPairs, Word.Fits 32 r.low ∧ Word.Fits 32 r.high := by decide
  have hcanonical : Canonical ⟨[⟨0, 6⟩, ⟨9, 9⟩]⟩ := by decide
  have hjoined : ∀ text, Writes text scatteredPairs →
      ofJson? text = some ⟨[⟨0, 6⟩, ⟨9, 9⟩]⟩ := by
    intro text htext
    obtain ⟨hnone, hsome⟩ := hread text scatteredPairs htext
    cases hs : ofJson? text with
    | none => exact absurd (hnone.mp hs) (by decide)
    | some s =>
      obtain ⟨hs, hmem⟩ := hsome s hs
      refine congrArg some (hs.ext hcanonical fun v => ?_)
      rw [hmem, mem_iff]
      simp only [scatteredPairs, List.mem_cons, List.not_mem_nil, or_false, exists_eq_or_imp,
        exists_eq_left]
      omega
  have hbare : Writes "[[[5,6],[9,9],[0,4],[3,5]]]" scatteredPairs := by
    refine ⟨.array [.array (scatteredPairs.map fun r => .array [.ofInt r.low, .ofInt r.high])], _,
      ?_, rfl, ?_⟩
    · simp only [String.reduceToList]
      rfl
    rw [List.forall₂_map_left_iff, List.forall₂_same]
    exact fun r hr => ⟨_, _, rfl, Document.asIntBetween?_ofInt (hfits r hr).1,
      Document.asIntBetween?_ofInt (hfits r hr).2⟩
  have hinverted : Writes (toJson ⟨[⟨5, 6⟩, ⟨1, 0⟩]⟩) [⟨5, 6⟩, ⟨1, 0⟩] := hwrites _ (by decide)
  exact ⟨hwrites _ hfits, hbare, hjoined _ (hwrites _ hfits), hjoined _ hbare,
    (hback _ hcanonical).1, (hread _ _ hinverted).1.mpr (by decide)⟩

end RangeSet

end ErrorReturns
