import ErrorReturns.Learning.Storing
import ErrorReturns.Proofs.Program.Inside
import ErrorReturns.Proofs.RangeSet.Reachable
import ErrorReturns.Proofs.Table.Lookup
import ErrorReturns.Proofs.Word

/-!
# Tables about the functions of a program

What an analysis observes and what it comes to know is kept in tables of sets, one for each slot of
a function. Two things are true of these tables throughout: the functions are functions of the
program, and the sets are made from words by the operations on sets (`ErrorTable.Within`,
`Histograms.Within`). The first lets every slot be looked up; the second says that every set is
canonical, so that each operation on it is defined. Each way of changing a table keeps both, and it
keeps the second whatever is known about the slots.
-/

namespace ErrorReturns

open Checked
open RangeSet (Reachable)

/-! ## Words -/

theorem Word.fits_wrapSigned (v : Int) : Word.Fits 32 (Word.wrapSigned 32 v) :=
  Word.fits_wrapSigned_of_pos (by decide) v

theorem Value.fits_word32? {v : Value} {w : Int} (h : v.word32? = some w) : Word.Fits 32 w := by
  unfold Value.word32? at h
  split at h
  · exact Option.some.inj h ▸ Word.fits_wrapSigned _
  · exact Option.some.inj h ▸ by decide
  · cases h

/-- What satisfies a comparison with an operand. -/
theorem RangeSet.reachable_narrow_full (pred : Predicate) {v : Value} {w : Int}
    (h : v.word32? = some w) : Reachable (RangeSet.full.narrow pred w) :=
  .narrow .full pred (Value.fits_word32? h)

theorem RangeSet.meets_between {F : Fault → Prop} {low high : Int} (hl : Word.Fits 32 low)
    (hh : Word.Fits 32 high) (h : low ≤ high) : Meets F Reachable (RangeSet.between low high) :=
  have hmade : RangeSet.between low high = .ok (.ofRange low high) := if_pos h
  meets_of_eq_ok hmade (.between hl hh hmade)

theorem RangeSet.reachable_foldl_union {l : List RangeSet} (h : ∀ s ∈ l, Reachable s)
    {s : RangeSet} (hs : Reachable s) : Reachable (l.foldl (· ∪ ·) s) := by
  induction l generalizing s with
  | nil => exact hs
  | cons t rest ih =>
    rw [List.forall_mem_cons] at h
    exact ih h.2 (.union hs h.1)

/-! ## Observations -/

/-- Observations of sets that can be made: each of them was observed. -/
def Histogram.Made (h : Histogram) : Prop := Table.All Reachable (0 < ·) h

/-- **Observations of the functions of a program.** -/
def Histograms.Within (p : Program) (hs : Histograms) : Prop :=
  Table.All (fun slot => p.HasFunction slot.function) Histogram.Made hs

theorem Histogram.made_empty : Histogram.Made {} := Table.all_empty

theorem Histogram.made_getD {h? : Option Histogram} (h : ∀ x ∈ h?, Histogram.Made x) :
    Histogram.Made (h?.getD {}) := by
  cases h? with
  | none => exact made_empty
  | some x => exact h x rfl

theorem Histogram.Made.merge {h other : Histogram} (hh : h.Made) (hother : other.Made) :
    (h.merge other).Made :=
  hh.foldl_update (g := fun n m => m.getD 0 + n) fun e he =>
    ⟨(hother e he).1, fun _ _ => Nat.add_pos_right _ (hother e he).2⟩

namespace Histograms

variable {p : Program} {hs : Histograms} {K : ReturnSlot → Prop}

theorem all_observe (h : Table.All K Histogram.Made hs) {slot : ReturnSlot} (hslot : K slot)
    {s : RangeSet} (hreach : Reachable s) : Table.All K Histogram.Made (hs.observe slot s) :=
  h.update hslot fun _ hold => (Histogram.made_getD hold).update hreach fun _ _ => Nat.succ_pos _

theorem all_merge (h : Table.All K Histogram.Made hs) {other : Histograms}
    (hother : Table.All K Histogram.Made other) : Table.All K Histogram.Made (hs.merge other) :=
  h.foldl_update (g := fun x old => Histogram.merge (old.getD {}) x) fun e he =>
    ⟨(hother e he).1, fun _ hold => (Histogram.made_getD hold).merge (hother e he).2⟩

theorem within_empty : Within p {} := Table.all_empty

theorem Within.observe (h : Within p hs) {slot : ReturnSlot} (hf : p.HasFunction slot.function)
    {s : RangeSet} (hreach : Reachable s) : Within p (hs.observe slot s) :=
  all_observe h hf hreach

theorem Within.merge (h : Within p hs) {other : Histograms} (hother : Within p other) :
    Within p (hs.merge other) :=
  all_merge h hother

end Histograms

/-! ## Error values -/

/-- **Error values of the functions of a program.** -/
def ErrorTable.Within (p : Program) (t : ErrorTable) : Prop :=
  Table.All (fun slot => p.HasFunction slot.function) Reachable t

namespace ErrorTable

variable {p : Program} {t : ErrorTable} {K : ReturnSlot → Prop}

theorem all_mergeUnion (h : Table.All K Reachable t) {other : ErrorTable}
    (hother : Table.All K Reachable other) : Table.All K Reachable (t.mergeUnion other) := by
  refine h.foldl_update (g := fun s old => (old.map (· ∪ s)).getD s) fun e he =>
    ⟨(hother e he).1, fun old hold => ?_⟩
  cases old with
  | none => exact (hother e he).2
  | some s => exact .union (hold s rfl) (hother e he).2

theorem all_insertIfNew (h : Table.All K Reachable t) {slot : ReturnSlot} (hslot : K slot)
    {s : RangeSet} (hs : Reachable s) : Table.All K Reachable (t.insertIfNew slot s) := by
  refine h.update hslot fun old hold => ?_
  cases old with
  | none => exact hs
  | some s => exact hold s rfl

theorem within_empty : Within p {} := Table.all_empty

theorem Within.mergeUnion (h : Within p t) {other : ErrorTable} (hother : Within p other) :
    Within p (t.mergeUnion other) :=
  all_mergeUnion h hother

end ErrorTable

/-! ## Storing -/

/-- Counted sets that can be made. -/
def Counts.Made (counts : Counts) : Prop := ∀ e ∈ counts, Reachable e.1

namespace Counts

variable {counts : Counts}

/-- Pooling changes counts only. -/
theorem Made.ensures_pool (h : counts.Made) (declaration : Bool) (i j : Nat) :
    Ensures Made (pool declaration i counts j) := by
  -- an entry is overwritten with the set that it has
  have hset : ∀ {counts : Counts}, counts.Made → ∀ {k e n}, counts[k]? = some e →
      Made (counts.setIfInBounds k (e.1, n)) := by
    intro counts h k e n he x hx
    rcases Array.mem_or_eq_of_mem_setIfInBounds hx with hx | rfl
    · exact h x hx
    · exact h e (Array.mem_of_getElem? he)
  unfold Counts.pool
  split
  case h_1 a n b m hi hj =>
    by_cases hpool : i ≠ j ∧ m ≠ 0 ∧ m ≤ n ∧
        (if declaration then a.isSubset b else b.isSubset a) = true
    · dsimp only
      rw [if_pos hpool]
      refine (ensures_eq _).map fun sum _ => ?_
      split
      · refine hset (hset h hi) (e := (b, m)) ?_
        rw [Array.getElem?_setIfInBounds_ne hpool.1]
        exact hj
      · exact hset h hi
    · dsimp only
      rw [if_neg hpool]
      exact meets_pure h
  case h_2 => exact meets_pure h

theorem Made.ensures_poolInto (h : counts.Made) (declaration : Bool) (i : Nat) :
    Ensures Made (poolInto declaration counts i) := by
  unfold Counts.poolInto
  split
  · exact meets_foldlM (fun _ hcounts j _ => hcounts.ensures_pool declaration i j) h
  · exact meets_pure h

end Counts

theorem Histogram.Made.ensures_pooled {h : Histogram} (hh : h.Made) (declaration : Bool) :
    Ensures Counts.Made (h.pooled declaration) :=
  meets_foldlM (fun _ hcounts i _ => hcounts.ensures_poolInto declaration i) fun e he =>
    (hh e (List.mem_toArray.mp he)).1

/-- What is stored for a slot is the intersection of counted sets, or empty. -/
theorem Knowledge.all_storeCounts {K : ReturnSlot → Prop} {k : Knowledge}
    (hk : Table.All K Reachable k.errors) (threshold : Float) {slot : ReturnSlot} (hslot : K slot)
    {counts : Counts} (hcounts : counts.Made) :
    Table.All K Reachable (k.storeCounts threshold slot counts).errors := by
  unfold storeCounts
  dsimp only
  split
  · exact hk
  · split
    · exact hk.insert hslot .empty
    · refine List.foldlRecOn (motive := fun k : Knowledge => Table.All K Reachable k.errors) _ _ hk
        fun k hk e he => ?_
      obtain ⟨x, hx, rfl⟩ := List.mem_map.mp (List.mem_of_mem_filter he)
      have hreach := hcounts x (Array.mem_toList_iff.mp hx)
      refine hk.update hslot fun old hold => ?_
      cases old with
      | none => exact .inter .full hreach
      | some s => exact .inter (hold s rfl) hreach

end ErrorReturns
