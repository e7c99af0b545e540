import ErrorReturns.Proofs.ReturnRange.Walk
import ErrorReturns.Proofs.SignedRange

/-!
# The range of a choice among constants

Many functions return one of some constants: what they return has gone through selects and phis, but
nothing was computed. `RangeFinder.MayReturn` says what such a function may return, as far as
selects and phis tell, and `RangeFinder.ChoosesOnly` that it is all a matter of choice. The range of
such a function is the hull of its constants (`RangeFinder.rangeOf_isHull`).

A walk cuts corners in two ways. A value that was met before contributes nothing, which is safe only
because it has contributed already, or is about to contribute further up, where the walk has not
come back to yet. And a range that is full ends a choice early, which leaves values behind that
nobody looks at. `RangeFinder.Gathers` is the contract that takes both into account: unless a walk
has found the full range, whatever it has met since it began is covered by what it has found and by
what it has met. Two walks in turn cover together what each of them covers, and a walk that begins
with nothing met has left nothing open when it ends.
-/

namespace ErrorReturns

open Checked
open Relation (ReflTransGen)

/-- The words of a width that a constant stands for. The greatest 32-bit integer stands for all. -/
def Constant.stands (c : Constant) (bits : Nat) : Set Int :=
  if c.value = Word.highest 32 then {v | Word.Fits bits v} else {c.value}

theorem Constant.fits_of_mem_stands {c : Constant} {bits : Nat} (hc : Word.Fits bits c.value)
    {v : Int}
    (hv : v ∈ c.stands bits) : Word.Fits bits v := by
  unfold stands at hv
  split at hv
  · exact hv
  · rw [show v = c.value from hv]
    exact hc

theorem Constant.mem_stands_self {c : Constant} {bits : Nat} (hc : Word.Fits bits c.value) :
    c.value ∈ c.stands bits := by
  unfold stands
  split
  · exact hc
  · rfl

namespace Program

/-- The operands that a select or a phi chooses from. -/
def choicesOf : Operation → List Value
  | .select _ ifTrue ifFalse => [ifTrue, ifFalse]
  | .phi incoming => incoming.map (·.2)
  | _ => []

/-- **A value is chosen from others**: from the arms of a select, or from what comes into a phi. -/
def ChosenFrom (p : Program) (v w : Value) : Prop :=
  ∃ i op, v = .inst i ∧ p.op i = .ok op ∧ w ∈ choicesOf op

/-- What an instruction chooses from are its incoming values or its two sides. -/
theorem chosenFrom_iff {p : Program} {i : InstId} {op : Operation} (hop : p.op i = .ok op)
    {w : Value} :
    p.ChosenFrom (.inst i) w ↔ w ∈ choicesOf op := by
  constructor
  · rintro ⟨i', op', heq, hop', hw⟩
    obtain rfl := Value.inst.inj heq
    obtain rfl := Except.ok.inj (hop.symm.trans hop')
    exact hw
  · exact fun hw => ⟨i, op, rfl, hop, hw⟩

end Program

namespace RangeFinder

variable (a : RangeFinder)

/-- **What a function may return**: its return operands, and what these are chosen from. -/
def MayReturn (f : FuncId) (v : Value) : Prop :=
  ∃ u, a.Returns f u ∧ ReflTransGen a.program.ChosenFrom u v

/-- A value that is chosen in a function, or that a choice may end with: a parameter of the function
or a constant of a width. -/
inductive Choice (p : Program) (f : FuncId) (bits : Nat) : Value → Prop
  | select {i : InstId} {cond ifTrue ifFalse : Value}
      (hop : p.op i = .ok (.select cond ifTrue ifFalse)) : Choice p f bits (.inst i)
  | phi {i : InstId} {incoming : List (BlockId × Value)} (hop : p.op i = .ok (.phi incoming)) :
      Choice p f bits (.inst i)
  | arg (index : Nat) : Choice p f bits (.arg f index)
  | const {c : Constant} (hfits : Word.Fits bits c.value) : Choice p f bits (.const c)

/-- **A function that only chooses**: all that it may return are choices, of the width that the
function returns. -/
def ChoosesOnly (f : FuncId) (bits : Nat) : Prop :=
  ∀ v, a.MayReturn f v → a.program.typeOf v = .ok (.int bits) ∧ Choice a.program f bits v

/-- The words that the constants stand for which a function may return. -/
def returnedWords (f : FuncId) (bits : Nat) : Set Int :=
  {v | ∃ c, a.MayReturn f (.const c) ∧ v ∈ c.stands bits}

variable {a} {f : FuncId} {bits : Nat}

theorem MayReturn.chosenFrom {v w : Value} (h : a.MayReturn f v) (hw : a.program.ChosenFrom v w) :
    a.MayReturn f w := by
  obtain ⟨u, hu, hpath⟩ := h
  exact ⟨u, hu, hpath.tail hw⟩

/-- A list that has the return operands, and with each choice all that it is chosen from, has all
that a function may return. -/
theorem choosesOnly_of_closed {operands vs : List Value} (hreturned : a.returned f = .ok operands)
    (hoperands : operands ⊆ vs) (hclosed : ∀ v ∈ vs, a.program.typeOf v = .ok (.int bits) ∧
      Choice a.program f bits v ∧ ∀ w, a.program.ChosenFrom v w → w ∈ vs) :
    a.ChoosesOnly f bits := by
  have hmem : ∀ v, a.MayReturn f v → v ∈ vs := by
    rintro v ⟨u, ⟨_, _, operands', -, -, hreturned', hu⟩, hpath⟩
    obtain rfl := Except.ok.inj (hreturned.symm.trans hreturned')
    induction hpath with
    | refl => exact hoperands hu
    | tail _ hstep ih => exact (hclosed _ ih).2.2 _ hstep
  exact fun v hv => ⟨(hclosed v (hmem v hv)).1, (hclosed v (hmem v hv)).2.1⟩

theorem fits_of_mem_returnedWords (hchoices : a.ChoosesOnly f bits) {v : Int}
    (hv : v ∈ a.returnedWords f bits) : Word.Fits bits v := by
  obtain ⟨c, hc, hv⟩ := hv
  obtain ⟨-, hchoice⟩ := hchoices _ hc
  cases hchoice with
  | const hfits => exact Constant.fits_of_mem_stands hfits hv

/-- There is a word for each constant. -/
theorem returnedWords_eq_empty_iff (hchoices : a.ChoosesOnly f bits) :
    a.returnedWords f bits = ∅ ↔ ¬ ∃ c, a.MayReturn f (.const c) := by
  rw [Set.eq_empty_iff_forall_notMem]
  constructor
  · rintro hnone ⟨c, hc⟩
    obtain ⟨-, hchoice⟩ := hchoices _ hc
    cases hchoice with
    | const hfits => exact hnone c.value ⟨c, hc, Constant.mem_stands_self hfits⟩
  · rintro hnone v ⟨c, hc, -⟩
    exact hnone ⟨c, hc⟩

/-! ## What a walk gathers -/

/-- Whether a value is accounted for: the words of a constant are in the range, and any other value
has been met. -/
def Covers (bits : Nat) (out : Found) : Value → Prop
  | .const c => ∀ v ∈ c.stands bits, v ∈ out.1
  | v => v ∈ out.2.visited

theorem Covers.mono {out out' : Found} {v : Value} (h : Covers bits out v) (hrange : out.1 ⊆ out'.1)
    (hvisited : out.2.visited ⊆ out'.2.visited) : Covers bits out' v := by
  cases v with
  | const c => exact fun v hv => hrange v (h v hv)
  | _ => exact hvisited h

variable (a) in
/-- **What a walk gathers** from some values, having met others before: a hull of words that the
function returns. Unless this is full, the values are covered afterwards, and whatever the walk has
met is covered with all that it is chosen from. -/
structure Gathers (f : FuncId) (bits : Nat) (vs : List Value) (memo : RangeMemo) (out : Found) :
    Prop where
  hull : ∃ T ⊆ a.returnedWords f bits, out.1.IsHull bits T
  visited : memo.visited ⊆ out.2.visited
  covers : ¬ out.1.isFull = true → (∀ v ∈ vs, Covers bits out v) ∧
    ∀ u ∈ out.2.visited, u ∉ memo.visited → ∀ w, a.program.ChosenFrom u w → Covers bits out w

namespace Gathers

variable {vs vs' : List Value} {memo : RangeMemo} {out out' : Found}

theorem nil (hone : 1 ≤ bits) (h64 : bits ≤ 64) (memo : RangeMemo) :
    a.Gathers f bits [] memo (.empty bits, memo) where
  hull := ⟨∅, Set.empty_subset _, SignedRange.isHull_empty hone h64⟩
  visited := List.Subset.refl _
  covers _ := ⟨nofun, fun _ hu hnew => absurd hu hnew⟩

/-- **One walk after another.** -/
theorem union (h : a.Gathers f bits vs memo out) (h' : a.Gathers f bits vs' out.2 out') :
    a.Gathers f bits (vs ++ vs') memo (out.1.union out'.1, out'.2) := by
  obtain ⟨T, hT, hhull⟩ := h.hull
  obtain ⟨T', hT', hhull'⟩ := h'.hull
  have hunion := hhull.wellFormed.isHull_union hhull'.wellFormed
  have hsub : out.1 ⊆ out.1.union out'.1 := fun v hv => hunion.contains v (Or.inl hv)
  have hsub' : out'.1 ⊆ out.1.union out'.1 := fun v hv => hunion.contains v (Or.inr hv)
  refine ⟨⟨T ∪ T', Set.union_subset hT hT', hhull.union hhull'⟩,
    List.Subset.trans h.visited h'.visited, ?_⟩
  intro hfull
  obtain ⟨hvs, hmet⟩ := h.covers fun hfull' =>
    hfull (hhull.wellFormed.isFull_of_subset hunion.wellFormed hsub hfull')
  obtain ⟨hvs', hmet'⟩ := h'.covers fun hfull' =>
    hfull (hhull'.wellFormed.isFull_of_subset hunion.wellFormed hsub' hfull')
  refine ⟨List.forall_mem_append.mpr ⟨fun v hv => ?_, fun v hv => ?_⟩, fun u hu hnew w hw => ?_⟩
  · exact (hvs v hv).mono hsub h'.visited
  · exact (hvs' v hv).mono hsub' (List.Subset.refl _)
  · by_cases hbefore : u ∈ out.2.visited
    · exact (hmet u hbefore hnew w hw).mono hsub h'.visited
    · exact (hmet' u hu hbefore w hw).mono hsub' (List.Subset.refl _)

/-- A walk that has found the full range may leave other values behind. -/
theorem stop (h : a.Gathers f bits vs memo out) (hfull : out.1.isFull = true) (vs' : List Value) :
    a.Gathers f bits (vs ++ vs') memo out where
  hull := h.hull
  visited := h.visited
  covers hnot := absurd hfull hnot

/-- A walk from a choice meets the choice, and goes on from what it is chosen from. -/
theorem visit {i : InstId} {op : Operation} (hop : a.program.op i = .ok op)
    (h : a.Gathers f bits (Program.choicesOf op)
      { memo with visited := .inst i :: memo.visited } out) :
    a.Gathers f bits [.inst i] memo out where
  hull := h.hull
  visited := List.Subset.trans (List.subset_cons_self _ _) h.visited
  covers hfull := by
    obtain ⟨hvs, hmet⟩ := h.covers hfull
    refine ⟨List.forall_mem_singleton.mpr (h.visited List.mem_cons_self), fun u hu hnew w hw => ?_⟩
    by_cases heq : u = .inst i
    · subst heq
      exact hvs w ((Program.chosenFrom_iff hop).mp hw)
    · exact hmet u hu (List.not_mem_cons_of_ne_of_not_mem heq hnew) w hw

/-- A value that is not a constant is covered as soon as it has been met. If it was met before, or
if it is not chosen from others, nothing is left open. -/
theorem met (hone : 1 ≤ bits) (h64 : bits ≤ 64) {v : Value} (hv : isNoted v = true)
    {memo memo' : RangeMemo} (hmem : v ∈ memo'.visited) (hvisited : memo.visited ⊆ memo'.visited)
    (hnew : ∀ u ∈ memo'.visited, u ∉ memo.visited → ∀ w, ¬ a.program.ChosenFrom u w) :
    a.Gathers f bits [v] memo (.empty bits, memo') where
  hull := ⟨∅, Set.empty_subset _, SignedRange.isHull_empty hone h64⟩
  visited := hvisited
  covers _ := by
    refine ⟨List.forall_mem_singleton.mpr ?_, fun u hu hold w hw => absurd hw (hnew u hu hold w)⟩
    cases v with
    | const c => cases hv
    | _ => exact hmem

/-- A value that was met before contributes nothing more. -/
theorem again (hone : 1 ≤ bits) (h64 : bits ≤ 64) {v : Value} (hv : isNoted v = true)
    (hmem : v ∈ memo.visited) : a.Gathers f bits [v] memo (.empty bits, memo) :=
  .met hone h64 hv hmem (List.Subset.refl _) fun _ hu hnew => absurd hu hnew

/-- A constant contributes the words that it stands for. -/
theorem const (hone : 1 ≤ bits) (h64 : bits ≤ 64) {c : Constant} (hc : Word.Fits bits c.value)
    (h : a.MayReturn f (.const c)) (memo : RangeMemo) :
    a.Gathers f bits [.const c] memo
      (if c.value = Word.highest 32 then .full bits else .singleton c.value bits, memo) := by
  have hhull : (if c.value = Word.highest 32 then SignedRange.full bits
      else .singleton c.value bits).IsHull bits (c.stands bits) := by
    unfold Constant.stands
    split
    · exact SignedRange.isHull_full hone h64
    · exact SignedRange.isHull_singleton hone h64 hc
  refine ⟨⟨c.stands bits, fun v hv => ⟨c, h, hv⟩, hhull⟩, List.Subset.refl _, fun _ => ⟨?_, ?_⟩⟩
  · exact List.forall_mem_singleton.mpr hhull.contains
  · exact fun u hu hnew => absurd hu hnew

/-- **Nothing is left open** by a walk from the return operands that begins with nothing met: it has
found the hull of what the function returns. -/
theorem isHull (hchoices : a.ChoosesOnly f bits) {operands : List Value}
    (hreturned : a.returned f = .ok operands) {ranges : Table FuncId SignedRange}
    (h : a.Gathers f bits operands ⟨ranges, []⟩ out) :
    out.1.IsHull bits (a.returnedWords f bits) := by
  obtain ⟨T, hT, hhull⟩ := h.hull
  refine ⟨hhull.wellFormed, ?_, fun s hs hsub => hhull.least s hs fun v hv => hsub v (hT hv)⟩
  rintro v ⟨c, hc, hv⟩
  by_cases hfull : out.1.isFull = true
  · rw [hhull.wellFormed.isFull_iff.mp hfull]
    exact fits_of_mem_returnedWords hchoices ⟨c, hc, hv⟩
  · obtain ⟨hvs, hmet⟩ := h.covers hfull
    -- the return operands are covered, and what is chosen from is covered with the choice
    have hcovers : ∀ u, a.MayReturn f u → Covers bits out u := by
      rintro u ⟨u₀, ⟨_, _, operands', -, -, hreturned', hmem⟩, hpath⟩
      obtain rfl := Except.ok.inj (hreturned.symm.trans hreturned')
      induction hpath with
      | refl => exact hvs u₀ hmem
      | tail _ hstep ih =>
        obtain ⟨i, op, rfl, hop, hw⟩ := hstep
        exact hmet _ ih List.not_mem_nil _ ⟨i, op, rfl, hop, hw⟩
    exact hcovers _ hc v hv

end Gathers

/-! ## The walk -/

section Walk

variable {F : Fault → Prop}

/-- What is gathered from some values is gathered from their list, one after another. -/
theorem meets_gathers_unionOf {memo₀ : RangeMemo} {find : Value → RangeMemo → Checked Found}
    {l : List Value} (short : Bool)
    (h : ∀ v ∈ l, ∀ memo, memo₀.visited ⊆ memo.visited →
      Meets F (a.Gathers f bits [v] memo) (find v memo))
    {past : List Value} {range : SignedRange} {memo : RangeMemo}
    (hpast : a.Gathers f bits past memo₀ (range, memo)) :
    Meets F (a.Gathers f bits (past ++ l) memo₀) (unionOf short find l range memo) := by
  induction l generalizing past range memo with
  | nil =>
    rw [List.append_nil]
    exact meets_pure hpast
  | cons v rest ih =>
    rw [List.forall_mem_cons] at h
    rw [List.append_cons]
    unfold unionOf
    refine (h.1 memo hpast.visited).bind fun out hout => ?_
    have hboth := hpast.union hout
    dsimp only
    split
    case isTrue hstop =>
      rw [Bool.and_eq_true] at hstop
      exact meets_pure (hboth.stop hstop.2 rest)
    case isFalse => exact ih h.2 hboth

/-- A walk from a choice that is met for the first time, as long as those from what it is chosen
from keep to their contract. -/
theorem meets_gathers_operationRange (hone : 1 ≤ bits) (h64 : bits ≤ 64)
    {find : FuncId → Value → RangeMemo → Checked Found} {i : InstId}
    (hchoice : Choice a.program f bits (.inst i)) {memo : RangeMemo}
    (hfind : ∀ w, a.program.ChosenFrom (.inst i) w → ∀ memo',
      .inst i :: memo.visited ⊆ memo'.visited →
        Meets F (a.Gathers f bits [w] memo') (find f w memo')) :
    Meets F (a.Gathers f bits [.inst i] memo)
      (a.operationRange find f i bits { memo with visited := .inst i :: memo.visited }) := by
  cases hchoice with
  | @select _ cond ifTrue ifFalse hop =>
    have hfind : ∀ w ∈ [ifTrue, ifFalse], _ := fun w hw =>
      hfind w ((Program.chosenFrom_iff hop).mpr hw)
    rw [operationRange, hop, liftM_ok_bind]
    refine (hfind ifTrue List.mem_cons_self _ (List.Subset.refl _)).bind fun out hout => ?_
    dsimp only
    split
    case isTrue hfull => exact meets_pure (.visit hop (hout.stop hfull [ifFalse]))
    case isFalse =>
      refine (hfind ifFalse (by simp) out.2 hout.visited).bind fun out' hout' => ?_
      exact meets_pure (.visit hop (hout.union hout'))
  | @phi _ incoming hop =>
    rw [operationRange, hop, liftM_ok_bind]
    refine Meets.imp ?_ fun out hout => Gathers.visit hop hout
    exact meets_gathers_unionOf true (fun w hw => hfind w ((Program.chosenFrom_iff hop).mpr hw))
      (.nil hone h64 _)

/-- **The contract of a walk through choices.** The depth is enough if it exceeds the number of
results that are left to visit. -/
theorem meets_gathers_valueRange (htwo : 2 ≤ bits) (h64 : bits ≤ 64)
    (hchoices : a.ChoosesOnly f bits)
    (depth : Nat) {v : Value} (hv : a.MayReturn f v) {memo : RangeMemo}
    (hdepth : a.unvisited memo < depth) :
    Meets F (a.Gathers f bits [v] memo) (a.valueRange depth f v memo) := by
  -- the depth stays above the number of values not yet visited, so that it never runs out
  induction depth generalizing v memo with
  | zero => exact absurd hdepth (Nat.not_lt_zero _)
  | succ depth ih =>
    have hone : 1 ≤ bits := Nat.le_of_succ_le htwo
    have hflag : ¬ bits = 1 := Nat.ne_of_gt htwo
    obtain ⟨hty, hchoice⟩ := hchoices v hv
    rw [valueRange, step, hty, liftM_ok_bind, widthOf]
    cases v with
    | const c =>
      cases hchoice with
      | const hfits =>
        have hconst := Gathers.const hone h64 hfits hv memo
        dsimp only
        split
        case isTrue hall => exact meets_pure (by rwa [if_pos hall] at hconst)
        case isFalse hall => exact meets_pure (by rwa [if_neg hall] at hconst)
    | arg owner index =>
      dsimp only
      rw [if_neg hflag]
      split
      case isTrue hmem => exact meets_pure (.again hone h64 rfl hmem)
      case isFalse =>
        refine meets_pure (.met hone h64 rfl List.mem_cons_self (List.subset_cons_self _ _) ?_)
        -- only the argument itself is new, and an argument chooses from nothing
        rintro u hu hnew w ⟨i, op, rfl, -⟩
        exact hnew ((List.mem_cons.mp hu).resolve_left (by simp))
    | inst i =>
      dsimp only
      rw [if_neg hflag]
      split
      case isTrue hmem => exact meets_pure (.again hone h64 rfl hmem)
      case isFalse hnew =>
        have hinst : a.program.HasInst i := by
          cases hchoice with
          | select hop => exact Program.hasInst_of_op_eq_ok hop
          | phi hop => exact Program.hasInst_of_op_eq_ok hop
        have hlt := unvisited_lt hinst hnew
        refine meets_gathers_operationRange hone h64 hchoice fun w hw memo' hsub => ?_
        have hle : a.unvisited memo' ≤
          a.unvisited { memo with visited := .inst i :: memo.visited } :=
          unvisited_le hsub
        exact ih (hv.chosenFrom hw) (by omega)
    | _ => cases hchoice

/-- The search for the range of a function that only chooses, with nothing remembered or observed.
-/
theorem exists_rangeOf_isHull (hp : a.program.Inside) {function : Function}
    (hf : a.program.function f = .ok function) (hdefined : function.isDeclaration = false)
    (hret : function.ret = .int bits) (htwo : 2 ≤ bits) (h64 : bits ≤ 64)
    (hobserved : a.observed.get? ⟨f, 0⟩ = none) (hchoices : a.ChoosesOnly f bits) :
    ∃ r ranges, a.rangeOf f {} = .ok (r, ranges) ∧ r.IsHull bits (a.returnedWords f bits) := by
  have hfunction : a.program.HasFunction f :=
    (Array.getElem?_eq_some_iff.mp (Arena.function_eq_ok_iff.mp hf)).1
  obtain ⟨operands, hreturned, -⟩ := (meets_returned hp hfunction).exists_eq_ok
  have hwalk : Meets (fun _ => False) (a.Gathers f bits operands ⟨{}, []⟩)
      (unionOf false (a.valueRange a.enoughDepth f) operands (.empty bits) ⟨{}, []⟩) := by
    refine meets_gathers_unionOf false (fun v hv memo _ => ?_) (.nil (Nat.le_of_succ_le htwo) h64 _)
    refine meets_gathers_valueRange htwo h64 hchoices _ ?_ (unvisited_lt_enoughDepth memo)
    exact ⟨v, ⟨function, bits, operands, hf, hret, hreturned, hv⟩, .refl⟩
  obtain ⟨⟨r, memo⟩, hrun, hgathers⟩ := hwalk.exists_eq_ok
  -- nothing is observed for `f`, so the range found is the one returned
  have honly : a.observed.only? f = none := by
    rw [Histograms.only?, hobserved]
    rfl
  have hsame : a.orObserved f bits r = r := by
    rw [orObserved, honly]
    exact ite_self r
  refine ⟨r, memo.ranges.insert f r, ?_, hgathers.isHull hchoices hreturned⟩
  rw [rangeOf, functionRange, hf, liftM_ok_bind, hret]
  dsimp only
  rw [hreturned, liftM_ok_bind, hdefined, if_neg Bool.false_ne_true, hrun, ok_bind]
  dsimp only
  rw [hsame]
  rfl

end Walk

/-- **The range of a function that only chooses** is exact. For a defined function that returns
integers of a width from 2 to 64, of which nothing was observed, and that only chooses among its
parameters and constants, a search that remembers nothing finds the smallest range with the
constants that the function may return, where the greatest 32-bit integer stands for every word. It
is empty exactly if there is no such constant, and full exactly if the constants stand for both the
least and the greatest word. -/
theorem rangeOf_isHull {ds : List Directive} (hbuild : Program.build ds = .ok a.program)
    {function : Function} (hf : a.program.function f = .ok function)
    (hdefined : function.isDeclaration = false) (hret : function.ret = .int bits) (htwo : 2 ≤ bits)
    (h64 : bits ≤ 64) (hobserved : a.observed.get? ⟨f, 0⟩ = none)
    (hchoices : a.ChoosesOnly f bits) :
    ∃ r ranges, a.rangeOf f {} = .ok (r, ranges) ∧ r.IsHull bits (a.returnedWords f bits) ∧
      (r = .empty bits ↔ ¬ ∃ c, a.MayReturn f (.const c)) ∧
      (r = .full bits ↔ Word.lowest bits ∈ a.returnedWords f bits ∧
        Word.highest bits ∈ a.returnedWords f bits) := by
  obtain ⟨r, ranges, hrun, hhull⟩ :=
    exists_rangeOf_isHull (Program.inside_of_build hbuild) hf hdefined
    hret htwo h64 hobserved hchoices
  refine ⟨r, ranges, hrun, hhull, ?_, ?_⟩
  · exact hhull.eq_empty_iff.trans (returnedWords_eq_empty_iff hchoices)
  · exact hhull.eq_full_iff fun v => fits_of_mem_returnedWords hchoices

/-- `choose` carries a constant or its parameter around a loop, and returns it or another constant,
or, on a second way out, a choice between this and a third constant. -/
def choosing : List Directive :=
  [.module "m", .declare ⟨0⟩ "choose" [.int 32] (.int 32),
    .define ⟨0⟩ [.block, .block, .block, .block, .block,
      .moveTo ⟨0⟩, .branch .undef ⟨1⟩ ⟨2⟩,
      .moveTo ⟨1⟩, .phi (.int 32) [], .select .undef (.inst ⟨1⟩) (.arg ⟨0⟩ 0),
      .branch .undef ⟨1⟩ ⟨2⟩,
      .moveTo ⟨2⟩, .phi (.int 32) [(⟨0⟩, .int 7 32), (⟨1⟩, .inst ⟨2⟩)], .branch .undef ⟨3⟩ ⟨4⟩,
      .moveTo ⟨3⟩, .ret (some (.inst ⟨4⟩)),
      .moveTo ⟨4⟩, .select .undef (.inst ⟨4⟩) (.int 12 32), .ret (some (.inst ⟨7⟩)),
      .setPhi (.inst ⟨1⟩) [(⟨0⟩, .int (-5) 32), (⟨1⟩, .inst ⟨2⟩)]]]

/-- All that `choose` may return. -/
def choosingValues : List Value :=
  [.inst ⟨4⟩, .inst ⟨7⟩, .inst ⟨1⟩, .inst ⟨2⟩, .arg ⟨0⟩ 0, .int (-5) 32, .int 7 32, .int 12 32]

theorem exists_build_choosing : ∃ p g function, Program.build choosing = .ok p ∧
    CallGraph.ofDirectCalls p = .ok g ∧ p.function ⟨0⟩ = .ok function ∧
    function.isDeclaration = false ∧ function.ret = .int 32 ∧
    returned ⟨p, g, .basic, {}⟩ ⟨0⟩ = .ok [.inst ⟨4⟩, .inst ⟨7⟩] ∧
    (p.op ⟨1⟩ = .ok (.phi [(⟨0⟩, .int (-5) 32), (⟨1⟩, .inst ⟨2⟩)]) ∧
      p.typeOf (.inst ⟨1⟩) = .ok (.int 32)) ∧
    (p.op ⟨2⟩ = .ok (.select .undef (.inst ⟨1⟩) (.arg ⟨0⟩ 0)) ∧
      p.typeOf (.inst ⟨2⟩) = .ok (.int 32)) ∧
    (p.op ⟨4⟩ = .ok (.phi [(⟨0⟩, .int 7 32), (⟨1⟩, .inst ⟨2⟩)]) ∧
      p.typeOf (.inst ⟨4⟩) = .ok (.int 32)) ∧
    (p.op ⟨7⟩ = .ok (.select .undef (.inst ⟨4⟩) (.int 12 32)) ∧
      p.typeOf (.inst ⟨7⟩) = .ok (.int 32)) ∧
    p.typeOf (.arg ⟨0⟩ 0) = .ok (.int 32) :=
  ⟨_, _, _, rfl, rfl, rfl, rfl, rfl, rfl, ⟨rfl, rfl⟩, ⟨rfl, rfl⟩, ⟨rfl, rfl⟩, ⟨rfl, rfl⟩, rfl⟩

/-- What is carried around the loop is met again, and so is the first return operand below the
second one. The constants are found all the same. -/
theorem choosing_range : ∃ p g ranges, Program.build choosing = .ok p ∧
    CallGraph.ofDirectCalls p = .ok g ∧
    ChoosesOnly ⟨p, g, .basic, {}⟩ ⟨0⟩ 32 ∧
    rangeOf ⟨p, g, .basic, {}⟩ ⟨0⟩ {} = .ok (⟨32, .span (-5) 12⟩, ranges) ∧
    SignedRange.IsHull ⟨32, .span (-5) 12⟩ 32 (returnedWords ⟨p, g, .basic, {}⟩ ⟨0⟩ 32) := by
  obtain ⟨p, g, function, hp, hg, hf, hdefined, hret, hreturned, ⟨hop₁, hty₁⟩, ⟨hop₂, hty₂⟩,
    ⟨hop₄, hty₄⟩, ⟨hop₇, hty₇⟩, harg⟩ := exists_build_choosing
  have hchoices : ChoosesOnly ⟨p, g, .basic, {}⟩ ⟨0⟩ 32 := by
    have hoperands : [.inst ⟨4⟩, .inst ⟨7⟩] ⊆ choosingValues := by decide
    refine choosesOnly_of_closed hreturned hoperands ?_
    have hfrom : ∀ {i op}, p.op i = .ok op → Program.choicesOf op ⊆ choosingValues → ∀ w,
        p.ChosenFrom (.inst i) w → w ∈ choosingValues := fun hop hsub w hw =>
      hsub ((Program.chosenFrom_iff hop).mp hw)
    have hend : ∀ {v : Value}, v.inst? = none → ∀ w, p.ChosenFrom v w → w ∈ choosingValues := by
      rintro v hv w ⟨i, op, rfl, -⟩
      cases hv
    simp only [choosingValues, List.forall_mem_cons]
    exact ⟨⟨hty₄, .phi hop₄, hfrom hop₄ (by decide)⟩, ⟨hty₇, .select hop₇, hfrom hop₇ (by decide)⟩,
      ⟨hty₁, .phi hop₁, hfrom hop₁ (by decide)⟩, ⟨hty₂, .select hop₂, hfrom hop₂ (by decide)⟩,
      ⟨harg, .arg 0, hend rfl⟩, ⟨rfl, .const (by decide), hend rfl⟩,
      ⟨rfl, .const (by decide), hend rfl⟩, ⟨rfl, .const (by decide), hend rfl⟩, nofun⟩
  obtain ⟨p', hp', g', hg', ⟨_, ranges⟩, hfound, rfl⟩ : ∃ p, Program.build choosing = .ok p ∧
      ∃ g, CallGraph.ofDirectCalls p = .ok g ∧
      ∃ found, rangeOf ⟨p, g, .basic, {}⟩ ⟨0⟩ {} = .ok found ∧
      found.1 = ⟨32, .span (-5) 12⟩ := by
    decide +kernel
  obtain rfl := Except.ok.inj (hp.symm.trans hp')
  obtain rfl := Except.ok.inj (hg.symm.trans hg')
  obtain ⟨r, _, hrange, hhull, -⟩ := rangeOf_isHull (a := ⟨p, g, .basic, {}⟩) hp hf hdefined hret
    (by decide) (by decide) rfl hchoices
  cases hfound.symm.trans hrange
  exact ⟨p, g, ranges, hp, hg, hchoices, hrange, hhull⟩

end RangeFinder

end ErrorReturns
