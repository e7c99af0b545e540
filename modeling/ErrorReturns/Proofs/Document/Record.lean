import ErrorReturns.Document.Record
import ErrorReturns.Proofs.Document.RoundTrip
import Mathlib.Data.List.Forall2
import Mathlib.Data.List.Nodup

/-!
# Records that are written are read

A record is written as an object with its fields in order. Any shape with the same fields reads the
values back (`RecordShape.read?_ofRecord`), provided no two fields have the same name: characters
are no halves of surrogate pairs, so the names come back, and each of them is then found exactly
once. An integer is read back between any bounds that it keeps.
-/

namespace ErrorReturns

/-! ## Names -/

namespace CodePoints

/-- A character is no half of a surrogate pair. -/
theorem toNat_valid (c : Char) : c.toNat < 0xD800 ∨ 0xDFFF < c.toNat ∧ c.toNat < 0x110000 :=
  c.valid

@[simp] theorem isHigh_toNat (c : Char) : isHigh c.toNat = false := by
  have hvalid := toNat_valid c
  rw [isHigh, Bool.and_eq_false_iff, decide_eq_false_iff_not, decide_eq_false_iff_not]
  omega

@[simp] theorem isLow_toNat (c : Char) : isLow c.toNat = false := by
  have hvalid := toNat_valid c
  rw [isLow, Bool.and_eq_false_iff, decide_eq_false_iff_not, decide_eq_false_iff_not]
  omega

/-- Characters are decoded from their own code points: none of these is half of a pair. -/
@[simp] theorem decode?_map_toNat (s : List Char) : decode? (s.map Char.toNat) = some s := by
  induction s with
  | nil => rfl
  | cons c s ih =>
    cases s with
    | nil =>
      rw [List.map_singleton, decode?, isHigh_toNat, isLow_toNat, Char.ofNat_toNat]
      rfl
    | cons d s =>
      rw [List.map_cons] at ih
      rw [List.map_cons, List.map_cons, decode?, isHigh_toNat c, isLow_toNat c, ih,
        Char.ofNat_toNat]
      rfl

/-- **A text comes back** from its code points. -/
@[simp] theorem toString?_ofString (s : String) : (ofString s).toString? = some s := by
  rw [toString?, ofString, decode?_map_toNat, Option.map_some, String.ofList_toList]

theorem proper_ofString (s : String) : (ofString s).Proper := by
  intro n hn
  obtain ⟨c, -, rfl⟩ := List.mem_map.mp hn
  have hvalid := toNat_valid c
  omega

end CodePoints

/-! ## Fields -/

/-- Lists whose items are read alike are read alike. -/
theorem mapM_eq_mapM_of_forall₂ {α β γ : Type} {f : α → Option γ} {g : β → Option γ} {l : List α}
    {m : List β} (h : List.Forall₂ (fun x y => f x = g y) l m) : l.mapM f = m.mapM g := by
  induction h with
  | nil => rfl
  | cons hxy _ ih => rw [List.mapM_cons, List.mapM_cons, hxy, ih]

namespace RecordShape

/-- The keys of a record that is written are those that are read. -/
@[simp] theorem keys?_ofString (fields : List (String × Document)) :
    keys? (fields.map fun f => (CodePoints.ofString f.1, f.2)) = some fields := by
  rw [keys?, List.mapM_map]
  have hkey : ((fun f : CodePoints × Document => f.1.toString?.map (·, f.2)) ∘
      fun f : String × Document => (CodePoints.ofString f.1, f.2)) = fun f => pure f := by
    funext f
    rw [Function.comp_apply, CodePoints.toString?_ofString]
    rfl
  rw [hkey, List.mapM_pure, List.map_id']
  rfl

/-- **A field is found** when no other has its name. -/
theorem single?_of_mem {fields : List (String × Document)} (hnodup : (fields.map (·.1)).Nodup)
    {f : String × Document} (hf : f ∈ fields) : single? f.1 fields = some (some f.2) := by
  have hfilter : fields.filter (·.1 == f.1) = [f] := by
    induction fields with
    | nil => exact absurd hf List.not_mem_nil
    | cons g fields ih =>
      obtain ⟨hg, hnodup⟩ := List.nodup_cons.mp hnodup
      rcases List.mem_cons.mp hf with rfl | hf
      · have hnone : fields.filter (·.1 == f.1) = [] := by
          refine List.filter_eq_nil_iff.mpr fun x hx heq => hg ?_
          exact List.mem_map.mpr ⟨x, hx, eq_of_beq heq⟩
        rw [List.filter_cons, if_pos (beq_self_eq_true f.1), hnone]
      · have hne : ¬(g.1 == f.1) = true := fun heq =>
          hg (List.mem_map.mpr ⟨f, hf, (eq_of_beq heq).symm⟩)
        rw [List.filter_cons, if_neg hne, ih hnodup hf]
  rw [single?, hfilter]

/-- **A written record is read** field by field. -/
theorem read?_ofRecord (shape : RecordShape) {fields : List (String × Document)}
    (hfields : shape.fields = fields.map (·.1)) (hnodup : shape.fields.Nodup) :
    shape.read? (.ofRecord fields) = some (fields.map fun f => some f.2) := by
  have hknown : fields.all (shape.fields.contains ·.1) = true := by
    refine List.all_eq_true.mpr fun f hf => List.contains_iff_mem.mpr ?_
    rw [hfields]
    exact List.mem_map_of_mem hf
  have hvalues : shape.fields.mapM (single? · fields) =
      fields.mapM fun f => pure (some f.2) := by
    rw [hfields] at hnodup ⊢
    refine mapM_eq_mapM_of_forall₂ ?_
    rw [List.forall₂_map_left_iff, List.forall₂_same]
    exact fun f hf => single?_of_mem hnodup hf
  rw [List.mapM_pure] at hvalues
  simp only [read?, Document.ofRecord, ofObject?, keys?_ofString, Option.bind_eq_bind,
    Option.bind_some, hknown, Bool.not_true, Bool.and_false, Bool.false_eq_true, if_false]
  exact hvalues

end RecordShape

/-! ## Values -/

/-- An integer is read back from its numeral. -/
@[simp] theorem Numeral.toInt?_ofInt (v : Int) : (Numeral.ofInt v).toInt? = some v := by
  have hvalue : Decimal.natOfDigits (Numeral.ofInt v).whole = v.natAbs :=
    Decimal.natOfDigits_toDigits v.natAbs
  have hint : ¬((Numeral.ofInt v).fraction ≠ [] ∨ (Numeral.ofInt v).exponent ≠ none ∨
      ((Numeral.ofInt v).negative = true ∧ v.natAbs = 0)) := by
    rintro (h | h | ⟨hneg, hzero⟩)
    · exact h rfl
    · exact h rfl
    · have hlt : v < 0 := of_decide_eq_true hneg
      omega
  rw [Numeral.toInt?, hvalue, if_neg hint, Option.some_inj]
  by_cases hv : v < 0
  · rw [if_pos (show (Numeral.ofInt v).negative = true from decide_eq_true hv)]
    omega
  · rw [if_neg (show ¬(Numeral.ofInt v).negative = true from fun h => hv (of_decide_eq_true h))]
    omega

namespace Document

/-- **An integer is read back** between bounds that it keeps. -/
theorem asIntBetween?_ofInt {low high v : Int} (h : low ≤ v ∧ v ≤ high) :
    (ofInt v).asIntBetween? low high = some v := by
  rw [ofInt, asIntBetween?, Numeral.intBetween?, Numeral.toInt?_ofInt, Option.bind_some, if_pos h]

theorem proper_ofInt (v : Int) : (ofInt v).Proper := .number (Numeral.proper_ofInt v)

/-- A record of proper documents is a proper document. -/
theorem proper_ofRecord {fields : List (String × Document)} (h : ∀ f ∈ fields, f.2.Proper) :
    (ofRecord fields).Proper := by
  refine .object ?_ ?_
  · intro f hf
    obtain ⟨g, -, rfl⟩ := List.mem_map.mp hf
    exact CodePoints.proper_ofString g.1
  · intro f hf
    obtain ⟨g, hg, rfl⟩ := List.mem_map.mp hf
    exact h g hg

end Document

end ErrorReturns
