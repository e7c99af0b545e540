import ErrorReturns.Learning.Storing
import ErrorReturns.Proofs.ReturnRange.Walk
import Mathlib.Data.Set.Card

/-!
# Ranges that are remembered

The ranges of functions are kept from one search to the next. Within one search the values that have
been met are kept too, and these are shared by all functions on the way: a function that is reached
after some of its own values have been met is given a smaller range than it would be given alone,
and this smaller range is remembered. The order of searches is therefore seen in their results, if
on the way of one search two functions lead to each other (`RangeFinder.retrying_ranges_in_order`)
or have a value in common.

In all other cases it is not. Functions are `RangeFinder.Apart` if no two of them lead to each other
and no two have an own value in common; one that calls itself does no harm. This is asked of the
functions that one search leads to, as the values that have been met are forgotten after it. A memo
is then ready for a function as long as it holds either the range that the function has alone, or no
range for it and none of its own values (`RangeFinder.Ready`). A walk through a function goes in the
same way from any two memos that agree on its own values and are ready for those that it leads to
(`RangeFinder.alike_valueRange`), and it leaves the memo ready. By induction over the functions that
a function leads to, it gets the range that it has alone (`RangeFinder.alike_of_ready`).
-/

namespace ErrorReturns

open Checked
open Relation (ReflTransGen)

theorem Ty.eq_int_of_width? {ty : Ty} {bits : Nat} (h : ty.width? = some bits) :
    ty = .int bits := by
  cases ty with
  | int bits' => rw [Option.some.inj h]
  | _ => cases h

namespace RangeFinder

variable (a : RangeFinder)

/-- Whether calls lead from one function to another. -/
abbrev LeadsTo : FuncId → FuncId → Prop := ReflTransGen a.CallsFrom

/-- **Functions apart**: no two of them lead to each other, and none have an own value in common. -/
structure Apart (R : FuncId → Prop) : Prop where
  calls : ∀ f g, R f → a.CallsFrom f g → R g
  antisymm : ∀ f g, R f → a.LeadsTo f g → a.LeadsTo g f → f = g
  own : ∀ f g v, R f → R g → isNoted v = true → a.Own f v → a.Own g v → f = g

/-- The range that a function has alone. -/
def Alone (f : FuncId) (range : SignedRange) : Prop :=
  ∃ ranges, a.rangeOf f {} = .ok (range, ranges)

/-- **A memo is ready for a function** if it has its range, or nothing of it. -/
def Ready (memo : RangeMemo) (f : FuncId) : Prop :=
  (∃ range, memo.ranges.get? f = some range ∧ a.Alone f range) ∨
    memo.ranges.get? f = none ∧ ∀ v, isNoted v = true → a.Own f v → v ∉ memo.visited

/-- Two memos agree on a function, and are ready for those that it leads to. -/
structure Agree (f : FuncId) (memo memo' : RangeMemo) : Prop where
  visited : ∀ v, isNoted v = true → a.Own f v → (v ∈ memo.visited ↔ v ∈ memo'.visited)
  range : memo.ranges.get? f = memo'.ranges.get? f
  below : ∀ g, a.LeadsTo f g → g ≠ f → a.Ready memo g ∧ a.Ready memo' g

variable {a}

theorem ready_empty (f : FuncId) : a.Ready {} f := Or.inr ⟨rfl, fun _ _ _ => List.not_mem_nil⟩

/-- Nothing changes for a function by what happens to others. -/
theorem Ready.of_same {memo memo' : RangeMemo} {f : FuncId} (h : a.Ready memo f)
    (hrange : memo'.ranges.get? f = memo.ranges.get? f)
    (hvisited : ∀ v, isNoted v = true → a.Own f v → v ∈ memo'.visited → v ∈ memo.visited) :
    a.Ready memo' f := by
  rcases h with ⟨range, hget, halone⟩ | ⟨hget, hnew⟩
  · exact Or.inl ⟨range, hrange.trans hget, halone⟩
  · exact Or.inr ⟨hrange.trans hget, fun v hv hown hmem => hnew v hv hown (hvisited v hv hown hmem)⟩

/-- A function that returns integers is remembered with its range. -/
theorem get?_of_functionRange {find : FuncId → Value → RangeMemo → Checked Found} {f : FuncId}
    {function : Function} {bits : Nat} (hfunction : a.program.function f = .ok function)
    (hret : function.ret = .int bits) {memo : RangeMemo} {out : Found}
    (h : a.functionRange find f memo = .ok out) : out.2.ranges.get? f = some out.1 := by
  rw [functionRange, hfunction, liftM_ok_bind, hret] at h
  dsimp only at h
  split at h
  case h_1 range hrange =>
    obtain rfl := Except.ok.inj h
    exact hrange
  case h_2 =>
    simp only [bind_eq_ok_iff, pure_eq_ok, Except.ok.injEq] at h
    obtain ⟨operands, -, found, -, rfl⟩ := h
    exact Table.get?_insert_self _ _ _

/-- A function that returns anything else is not walked through. -/
theorem functionRange_of_not_int (find : FuncId → Value → RangeMemo → Checked Found) {f : FuncId}
    {function : Function} (hfunction : a.program.function f = .ok function)
    (hret : ∀ bits, function.ret ≠ .int bits) (memo : RangeMemo) :
    a.functionRange find f memo = .ok (.full 32, memo) := by
  rw [functionRange, hfunction, liftM_ok_bind]
  split
  case h_1 bits h => exact absurd h (hret bits)
  case h_2 => rfl

theorem alone_of_functionRange {f : FuncId} {out : Found}
    (h : a.functionRange (a.valueRange a.enoughDepth) f {} = .ok out) : a.Alone f out.1 := by
  refine ⟨out.2.ranges, ?_⟩
  show (a.functionRange (a.valueRange a.enoughDepth) f {} >>= _) = _
  rw [h]
  rfl

/-! ## Two walks through a function -/

section Alike

variable {R : FuncId → Prop}

/-- Two unions go in the same way if the searches for their parts do. -/
theorem alike_unionOf {α : Type} {I : RangeMemo → RangeMemo → Prop} (short : Bool)
    {find find' : α → RangeMemo → Checked Found} {l : List α}
    (h : ∀ x ∈ l, ∀ memo memo', I memo memo' →
      Alike (fun out out' => out.1 = out'.1 ∧ I out.2 out'.2) (find x memo) (find' x memo'))
    (range : SignedRange) {memo memo' : RangeMemo} (hm : I memo memo') :
    Alike (fun out out' => out.1 = out'.1 ∧ I out.2 out'.2) (unionOf short find l range memo)
      (unionOf short find' l range memo') := by
  induction l generalizing range memo memo' with
  | nil => exact alike_pure ⟨rfl, hm⟩
  | cons x rest ih =>
    rw [List.forall_mem_cons] at h
    unfold unionOf
    refine (h.1 memo memo' hm).bind fun out out' hfound => ?_
    obtain ⟨hrange, hout⟩ := hfound
    dsimp only
    rw [hrange]
    split
    · exact alike_pure ⟨rfl, hout⟩
    · exact ih h.2 _ hout

/-- Visiting an own value of a function does not touch the others. -/
theorem Agree.visit (hR : a.Apart R) {f : FuncId} (hf : R f) {v : Value} (hv : a.Own f v)
    (hnoted : isNoted v = true) {memo memo' : RangeMemo} (h : a.Agree f memo memo')
    (hreach : ∀ g, a.LeadsTo f g → R g) :
    a.Agree f { memo with visited := v :: memo.visited }
      { memo' with visited := v :: memo'.visited } where
  visited w hw hown := by
    simp only [List.mem_cons, h.visited w hw hown]
  range := h.range
  below g hg hne := by
    have hother : ∀ (visited : List Value) w, isNoted w = true → a.Own g w →
        w ∈ v :: visited → w ∈ visited := by
      intro visited w hw hown hmem
      rcases List.mem_cons.mp hmem with rfl | hmem
      · exact absurd (hR.own g f w (hreach g hg) hf hw hown hv) hne
      · exact hmem
    obtain ⟨hready, hready'⟩ := h.below g hg hne
    exact ⟨hready.of_same rfl (hother _), hready'.of_same rfl (hother _)⟩

/-- Nor does remembering its range. -/
theorem Agree.remember {f : FuncId} {memo memo' : RangeMemo} (h : a.Agree f memo memo')
    (range : SignedRange) : a.Agree f { memo with ranges := memo.ranges.insert f range }
      { memo' with ranges := memo'.ranges.insert f range } where
  visited := h.visited
  range := by rw [Table.get?_insert_self, Table.get?_insert_self]
  below g hg hne := by
    obtain ⟨hready, hready'⟩ := h.below g hg hne
    exact ⟨hready.of_same (Table.get?_insert_of_ne _ hne _) fun _ _ _ hv => hv,
      hready'.of_same (Table.get?_insert_of_ne _ hne _) fun _ _ _ hv => hv⟩

variable (a) in
/-- Memos from which two walks through a function go in the same way, each within its depth. -/
def InStep (f : FuncId) (depth depth' : Nat) (memo memo' : RangeMemo) : Prop :=
  a.Agree f memo memo' ∧ a.unvisited memo < depth ∧ a.unvisited memo' < depth'

/-- Two walks through a whole function, as long as those from its own values go in the same way. -/
theorem alike_functionRange {f : FuncId} {depth depth' : Nat}
    {find find' : FuncId → Value → RangeMemo → Checked Found}
    (hfind : ∀ v, a.Own f v → ∀ memo memo', a.InStep f depth depth' memo memo' →
      Alike (fun out out' => out.1 = out'.1 ∧ a.InStep f depth depth' out.2 out'.2)
        (find f v memo) (find' f v memo'))
    {memo memo' : RangeMemo} (hm : a.InStep f depth depth' memo memo') :
    Alike (fun out out' => out.1 = out'.1 ∧ a.InStep f depth depth' out.2 out'.2)
      (a.functionRange find f memo) (a.functionRange find' f memo') := by
  unfold functionRange
  refine Alike.bind (R := fun x y => x = y ∧ a.program.function f = .ok x)
    (.refl fun x hx => ⟨rfl, hx⟩) fun function _ ⟨heq, hfunction⟩ => ?_
  subst heq
  cases hret : function.ret with
  | int bits =>
    dsimp only
    rw [hm.1.range]
    split
    · exact alike_pure ⟨rfl, hm⟩
    · refine Alike.bind (R := fun x y => x = y ∧ a.returned f = .ok x)
        (.refl fun x hx => ⟨rfl, hx⟩) fun operands _ ⟨heq, hreturned⟩ => ?_
      subst heq
      refine Alike.bind
        (alike_unionOf false (fun v hv memo memo' hm => hfind v ?_ memo memo' hm) _ hm)
        fun out out' ⟨hrange, hout⟩ => ?_
      · exact ⟨v, ⟨function, bits, operands, hfunction, hret, hreturned, hv⟩, .refl⟩
      · rw [hrange]
        exact alike_pure ⟨rfl, hout.1.remember _, hout.2.1, hout.2.2⟩
  | _ => exact alike_pure ⟨rfl, hm⟩

end Alike

/-! ## The functions that a function leads to -/

section Below

variable {R : FuncId → Prop} (hp : a.program.Inside) (hgraph : a.graph.Within a.program)
  (halias : a.mayAlias.Answers a.program) (hR : a.Apart R)

include hp hgraph halias in
/-- A walk through a function meets own values of the functions that it leads to, and no others. -/
theorem extends_of_functionRange {f : FuncId} (hf : a.program.HasFunction f) {depth : Nat}
    {memo : RangeMemo} (hdepth : a.unvisited memo < depth) {out : Found}
    (h : a.functionRange (a.valueRange depth) f memo = .ok out) :
    a.Extends (a.LeadsTo f) memo out.2 := by
  refine (meets_functionRange (F := a.Strays (a.LeadsTo f)) hp hf .refl
    (fun v hv memo' hm => ?_) (.refl memo)).of_eq_ok h
  have hle := unvisited_le (a := a) hm.visited
  exact (meets_valueRange hp hgraph halias (fun _ _ hreach hcall => hreach.tail hcall) depth hf
    .refl
    hv (Nat.lt_of_le_of_lt hle hdepth)).imp fun out hout => hm.trans hout

include hR in
theorem leadsTo_mem {f g : FuncId} (hf : R f) (h : a.LeadsTo f g) : R g := by
  induction h with
  | refl => exact hf
  | tail _ hcall ih => exact hR.calls _ _ ih hcall

include hR in
/-- A walk through a function leaves those alone that it does not lead to. -/
theorem Ready.frame {f g : FuncId} (hf : R f) (hg : R g) (hne : ¬ a.LeadsTo f g)
    {memo memo' : RangeMemo} (h : a.Ready memo g) (hext : a.Extends (a.LeadsTo f) memo memo') :
    a.Ready memo' g := by
  refine h.of_same (hext.ranges g hne) fun v hv hown hmem => ?_
  rcases hext.own v hmem with hmem | ⟨-, k, hk, hk'⟩
  · exact hmem
  · exact absurd (hR.own k g v (leadsTo_mem hR hf hk) hg hv hk' hown ▸ hk) hne

include hR in
/-- After a walk through a function that it calls, two memos still agree on a function. -/
theorem Agree.callee {f g : FuncId} (hf : R f) (hcall : a.CallsFrom f g) (hne : g ≠ f)
    {memo memo' out out' : RangeMemo} (h : a.Agree f memo memo')
    (hext : a.Extends (a.LeadsTo g) memo out) (hext' : a.Extends (a.LeadsTo g) memo' out')
    (hready : ∀ k, a.LeadsTo g k → a.Ready out k) (hready' : ∀ k, a.LeadsTo g k → a.Ready out' k) :
    a.Agree f out out' := by
  have hg : R g := hR.calls f g hf hcall
  have hback : ¬ a.LeadsTo g f := fun hback => hne (hR.antisymm f g hf (.single hcall) hback).symm
  -- no own value of `f` is met on the way through `g`
  have hkept : ∀ {memo out : RangeMemo}, a.Extends (a.LeadsTo g) memo out → ∀ v,
      isNoted v = true → a.Own f v → (v ∈ out.visited ↔ v ∈ memo.visited) := by
    intro memo out hext v hv hown
    refine ⟨fun hmem => ?_, hext.visited v⟩
    rcases hext.own v hmem with hmem | ⟨-, k, hk, hk'⟩
    · exact hmem
    · exact absurd (hR.own k f v (leadsTo_mem hR hg hk) hf hv hk' hown ▸ hk) hback
  refine ⟨fun v hv hown => ?_, ?_, fun k hk hkf => ?_⟩
  · rw [hkept hext v hv hown, hkept hext' v hv hown, h.visited v hv hown]
  · rw [hext.ranges f hback, hext'.ranges f hback, h.range]
  · by_cases hgk : a.LeadsTo g k
    · exact ⟨hready k hgk, hready' k hgk⟩
    · have hkR := leadsTo_mem hR hf hk
      obtain ⟨hold, hold'⟩ := h.below k hk hkf
      exact ⟨hold.frame hR hg hkR hgk hext, hold'.frame hR hg hkR hgk hext'⟩

variable (a) in
/-- **A function is found as it is alone** by any walk that starts with a memo which is ready for it
and for those it leads to, and the memo stays ready. -/
def FoundAsAlone (f : FuncId) : Prop :=
  ∀ depth memo, a.unvisited memo < depth → (∀ g, a.LeadsTo f g → a.Ready memo g) →
    Alike (fun out out' => out.1 = out'.1 ∧ ∀ g, a.LeadsTo f g → a.Ready out.2 g)
      (a.functionRange (a.valueRange depth) f memo)
      (a.functionRange (a.valueRange a.enoughDepth) f {})

include hp hgraph halias hR in
/-- A call of another function keeps two walks in step. -/
theorem alike_callee {f g : FuncId} (hf : R f) (hg : a.program.HasFunction g)
    (hcall : a.CallsFrom f g) (hne : g ≠ f) (halone : a.FoundAsAlone g) {depth depth' : Nat}
    {memo memo' : RangeMemo} (hm : a.InStep f depth depth' memo memo') :
    Alike (fun out out' => out.1 = out'.1 ∧ a.InStep f depth depth' out.2 out'.2)
      (a.functionRange (a.valueRange depth) g memo)
      (a.functionRange (a.valueRange depth') g memo') := by
  obtain ⟨hagree, hdepth, hdepth'⟩ := hm
  have hbelow : ∀ k, a.LeadsTo g k → a.Ready memo k ∧ a.Ready memo' k := by
    intro k hk
    refine hagree.below k (.head hcall hk) ?_
    rintro rfl
    exact hne (hR.antisymm k g hf (.single hcall) hk).symm
  have hleft := halone depth memo hdepth fun k hk => (hbelow k hk).1
  have hright := halone depth' memo' hdepth' fun k hk => (hbelow k hk).2
  refine (hleft.through hright).imp fun out out' hout hout' ⟨_, hx, hy⟩ => ?_
  have hext := extends_of_functionRange hp hgraph halias hg hdepth hout
  have hext' := extends_of_functionRange hp hgraph halias hg hdepth' hout'
  refine ⟨hx.1.trans hy.1.symm, hagree.callee hR hf hcall hne hext hext' hx.2 hy.2, ?_, ?_⟩
  · exact Nat.lt_of_le_of_lt (unvisited_le hext.visited) hdepth
  · exact Nat.lt_of_le_of_lt (unvisited_le hext'.visited) hdepth'

include hp hgraph halias hR in
/-- One level of two walks in step. -/
theorem alike_operationRange {f : FuncId} (hf : a.program.HasFunction f) (hRf : R f)
    (halone : ∀ g, a.LeadsTo f g → g ≠ f → a.FoundAsAlone g) {depth depth' : Nat}
    (hfind : ∀ v, a.Own f v → ∀ memo memo', a.InStep f depth depth' memo memo' →
      Alike (fun out out' => out.1 = out'.1 ∧ a.InStep f depth depth' out.2 out'.2)
        (a.valueRange depth f v memo) (a.valueRange depth' f v memo'))
    {id : InstId} (hown : a.Own f (.inst id)) (bits : Nat) {memo memo' : RangeMemo}
    (hm : a.InStep f depth depth' memo memo') :
    Alike (fun out out' => out.1 = out'.1 ∧ a.InStep f depth depth' out.2 out'.2)
      (a.operationRange (a.valueRange depth) f id bits memo)
      (a.operationRange (a.valueRange depth') f id bits memo') := by
  unfold operationRange
  refine Alike.bind (R := fun x y => x = y ∧ a.program.op id = .ok x)
    (.refl fun x hx => ⟨rfl, hx⟩) fun op _ hread => ?_
  obtain ⟨rfl, hop⟩ := hread
  have hop? : a.program.opOf? (.inst id) = .ok (some op) := by
    rw [Arena.opOf?, hop]
    rfl
  -- the operands are values of `f`, for which the two walks agree by `hfind`
  have hsource : ∀ {sources}, a.sourcesOf f (.inst id) = .ok sources → ∀ v ∈ sources,
      ∀ memo memo', a.InStep f depth depth' memo memo' →
      Alike (fun out out' => out.1 = out'.1 ∧ a.InStep f depth depth' out.2 out'.2)
        (a.valueRange depth f v memo) (a.valueRange depth' f v memo') :=
    fun hs v hv => hfind v (hown.madeOf hs hv)
  rw [sourcesOf, hop?, ok_bind] at hsource
  cases op with
  | call callee args =>
    dsimp only
    split
    case h_1 callees hcallees =>
      refine alike_unionOf true (fun g hg memo memo' hm => ?_) _ hm
      have hmem := (CallGraph.mem_calleeList hcallees).mpr hg
      have hcall : a.CallsFrom f g := ⟨id, callee, args, hown, hop, hmem⟩
      -- a callee other than `f` is found as if it were asked alone, whatever either memo already
      -- holds; a call back to `f` is one more walk through its own values
      by_cases hgf : g = f
      · subst hgf
        exact alike_functionRange hfind hm
      · exact alike_callee hp hgraph halias hR hRf (hgraph.callees id g hmem) hcall hgf
          (halone g (.single hcall) hgf) hm
    case h_2 => exact alike_pure ⟨rfl, hm⟩
  | select cond ifTrue ifFalse =>
    refine (hsource rfl ifTrue List.mem_cons_self memo memo' hm).bind fun out out' hfound => ?_
    obtain ⟨hrange, hout⟩ := hfound
    dsimp only
    rw [hrange]
    split
    · exact alike_pure ⟨rfl, hout⟩
    · refine (hsource rfl ifFalse (by simp) _ _ hout).bind fun out out' hfound' => ?_
      exact alike_pure ⟨by rw [hfound'.1], hfound'.2⟩
  | phi incoming => exact alike_unionOf true (hsource rfl) _ hm
  | cast kind inner =>
    refine (hsource rfl inner List.mem_cons_self memo memo' hm).bind fun out out' hfound => ?_
    exact alike_pure ⟨by rw [hfound.1], hfound.2⟩
  | binop op lhs rhs =>
    exact Alike.bind (.refl fun _ _ => rfl) fun _ _ hrange => alike_pure ⟨hrange, hm⟩
  | load ptr =>
    refine Alike.bind (R := fun x y => x = y ∧ a.storedTo f ptr = .ok x)
      (.refl fun x hx => ⟨rfl, hx⟩) fun stored _ hread => ?_
    obtain ⟨rfl, hstored⟩ := hread
    split
    · exact Alike.bind (.refl fun _ _ => rfl) fun _ _ hrange => alike_pure ⟨hrange, hm⟩
    · refine alike_unionOf false (fun v hv memo memo' hm => ?_) _ hm
      refine (hsource hstored v hv memo memo' hm).bind fun out out' hfound => ?_
      exact alike_pure ⟨by rw [hfound.1], hfound.2⟩
  | _ => exact alike_pure ⟨rfl, hm⟩

include hp hgraph halias hR in
/-- **Two walks in step**: from memos that agree on a function, the walks from any of its own values
find the same range, and the memos agree afterwards. -/
theorem alike_valueRange {f : FuncId} (hf : a.program.HasFunction f) (hRf : R f)
    (halone : ∀ g, a.LeadsTo f g → g ≠ f → a.FoundAsAlone g) (depth depth' : Nat) {v : Value}
    (hown : a.Own f v) {memo memo' : RangeMemo} (hm : a.InStep f depth depth' memo memo') :
    Alike (fun out out' => out.1 = out'.1 ∧ a.InStep f depth depth' out.2 out'.2)
      (a.valueRange depth f v memo) (a.valueRange depth' f v memo') := by
  -- both depths stay above what is left to visit, which `InStep` carries, so neither walk ends
  -- before the other
  induction depth generalizing depth' v memo memo' with
  | zero => exact absurd hm.2.1 (Nat.not_lt_zero _)
  | succ depth ih =>
    cases depth' with
    | zero => exact absurd hm.2.2 (Nat.not_lt_zero _)
    | succ depth' =>
      rw [valueRange, valueRange]
      refine Alike.bind (R := Eq) (.refl fun _ _ => rfl) fun ty _ heq => ?_
      subst heq
      cases v with
      | const c =>
        dsimp only
        split <;> exact alike_pure ⟨rfl, hm⟩
      | null => exact alike_pure ⟨rfl, hm⟩
      | inst id =>
        dsimp only
        split
        · exact alike_pure ⟨rfl, hm⟩
        · have hiff := hm.1.visited (.inst id) rfl hown
          by_cases hmem : Value.inst id ∈ memo.visited
          · rw [if_pos hmem, if_pos (hiff.mp hmem)]
            exact alike_pure ⟨rfl, hm⟩
          · have hmem' : Value.inst id ∉ memo'.visited := fun h => hmem (hiff.mpr h)
            rw [if_neg hmem, if_neg hmem']
            have hlt := unvisited_lt (hown.has hp halias hf) hmem
            have hlt' := unvisited_lt (hown.has hp halias hf) hmem'
            have hagree := hm.1.visit hR hRf hown rfl fun g hg => leadsTo_mem hR hRf hg
            refine (alike_operationRange hp hgraph halias hR hf hRf halone
              (fun w hw memo memo' hm => ih depth' hw hm) hown _
              ⟨hagree, Nat.lt_of_lt_of_le hlt (Nat.le_of_lt_succ hm.2.1),
                Nat.lt_of_lt_of_le hlt' (Nat.le_of_lt_succ hm.2.2)⟩).imp ?_
            rintro out out' - - ⟨hrange, hout⟩
            exact ⟨hrange, hout.1, Nat.lt_succ_of_lt hout.2.1, Nat.lt_succ_of_lt hout.2.2⟩
      | arg | func | global | undef =>
        dsimp only
        split
        · exact alike_pure ⟨rfl, hm⟩
        · have hiff := hm.1.visited _ rfl hown
          split
          case isTrue hmem =>
            rw [if_pos (hiff.mp hmem)]
            exact alike_pure ⟨rfl, hm⟩
          case isFalse hmem =>
            rw [if_neg fun h => hmem (hiff.mpr h)]
            have hagree := hm.1.visit hR hRf hown rfl fun g hg => leadsTo_mem hR hRf hg
            refine alike_pure ⟨rfl, hagree, ?_, ?_⟩
            · exact Nat.lt_of_le_of_lt (unvisited_le fun w => List.mem_cons_of_mem _) hm.2.1
            · exact Nat.lt_of_le_of_lt (unvisited_le fun w => List.mem_cons_of_mem _) hm.2.2

include hgraph in
theorem hasFunction_of_leadsTo {f g : FuncId} (hf : a.program.HasFunction f) (h : a.LeadsTo f g) :
    a.program.HasFunction g := by
  cases h with
  | refl => exact hf
  | tail _ hcall =>
    obtain ⟨call, -, -, -, -, hmem⟩ := hcall
    exact hgraph.callees call g hmem

include hgraph hR in
/-- A function that another one leads to leads to fewer functions. -/
theorem ncard_leadsTo_lt {f g : FuncId} (hf : a.program.HasFunction f) (hRf : R f)
    (hg : a.LeadsTo f g) (hne : g ≠ f) :
    {k | a.LeadsTo g k}.ncard < {k | a.LeadsTo f k}.ncard := by
  refine Set.ncard_lt_ncard ⟨fun k hk => hg.trans hk, fun hsub => ?_⟩ ?_
  · exact hne (hR.antisymm f g hRf hg (hsub (ReflTransGen.refl : a.LeadsTo f f))).symm
  · refine ((Set.finite_lt_nat a.program.functions.size).image FuncId.mk).subset fun k hk => ?_
    exact ⟨k.index, hasFunction_of_leadsTo hgraph hf hk, rfl⟩

include hp hgraph halias hR in
/-- **A function is found as it is alone**, by induction over the functions it leads to. -/
theorem foundAsAlone {f : FuncId} (hf : a.program.HasFunction f) (hRf : R f) :
    a.FoundAsAlone f := by
  induction hn : {k | a.LeadsTo f k}.ncard using Nat.strong_induction_on generalizing f with
  | _ n ih =>
    have halone : ∀ g, a.LeadsTo f g → g ≠ f → a.FoundAsAlone g := fun g hg hne =>
      ih _ (hn ▸ ncard_leadsTo_lt hgraph hR hf hRf hg hne) (hasFunction_of_leadsTo hgraph hf hg)
        (leadsTo_mem hR hRf hg) rfl
    intro depth memo hdepth hready
    obtain ⟨function, hfunction, -⟩ :=
      (Program.meets_function (F := fun _ => False) hf).exists_eq_ok
    by_cases hret : ∃ bits, function.ret = .int bits
    · obtain ⟨bits, hret⟩ := hret
      rcases hready f .refl with ⟨range, hget, ranges, hrange⟩ | ⟨hget, hnew⟩
      · -- its range is remembered
        obtain ⟨out, hout, heq⟩ := bind_eq_ok_iff.mp hrange
        have hfound : a.functionRange (a.valueRange depth) f memo = .ok (range, memo) := by
          rw [functionRange, hfunction, liftM_ok_bind, hret]
          dsimp only
          rw [hget]
          rfl
        rw [hfound, show a.functionRange (a.valueRange a.enoughDepth) f {} = .ok out from hout]
        exact ⟨(congrArg Prod.fst (Except.ok.inj heq)).symm, hready⟩
      · -- it has not been met, so the walk through it is in step with the walk from nothing
        have hagree : a.Agree f memo {} :=
          ⟨fun v hv hown => iff_of_false (hnew v hv hown) List.not_mem_nil, hget,
            fun g hg _ => ⟨hready g hg, ready_empty g⟩⟩
        have hwalk := alike_functionRange
          (fun v hv memo memo' hm => alike_valueRange hp hgraph halias hR hf hRf halone depth
            a.enoughDepth hv hm) ⟨hagree, hdepth, unvisited_lt_enoughDepth {}⟩
        refine hwalk.imp fun out out' hout hout' ⟨hrange, hstep⟩ => ⟨hrange, fun g hg => ?_⟩
        by_cases hgf : g = f
        · subst hgf
          exact Or.inl ⟨out.1, get?_of_functionRange hfunction hret hout,
            hrange ▸ alone_of_functionRange hout'⟩
        · exact (hstep.1.below g hg hgf).1
    · have hret : ∀ bits, function.ret ≠ .int bits := fun bits h => hret ⟨bits, h⟩
      rw [functionRange_of_not_int _ hfunction hret, functionRange_of_not_int _ hfunction hret]
      exact ⟨rfl, hready⟩

end Below

/-! ## Seeing that functions are apart -/

variable (a) in
/-- Whether a list has the return operands of a function and everything that its members are made
of. -/
def coversOwn (f : FuncId) (values : List Value) : Checked Bool := do
  let operands ← a.returned f
  let sources ← values.mapM (a.sourcesOf f)
  return (operands ++ sources.flatten).all (· ∈ values)

/-- A list that covers the own values of a function has all of them. -/
theorem Own.mem_of_coversOwn {f : FuncId} {values : List Value}
    (h : a.coversOwn f values = .ok true) {v : Value} (hv : a.Own f v) : v ∈ values := by
  simp only [coversOwn, bind_eq_ok_iff] at h
  obtain ⟨operands, hoperands, sources, hsources, h⟩ := h
  have hall := List.all_eq_true.mp (Except.ok.inj h)
  have hmem : ∀ w ∈ operands ++ sources.flatten, w ∈ values := fun w hw =>
    of_decide_eq_true (hall w hw)
  refine hv.induct (fun w hw => ?_) fun w u hw hu => ?_
  · obtain ⟨-, -, operands', -, -, hoperands', hw⟩ := hw
    obtain rfl := Except.ok.inj (hoperands.symm.trans hoperands')
    exact hmem w (List.mem_append_left _ hw)
  · obtain ⟨found, hfound, hu⟩ := hu
    obtain ⟨found', hfound', heq⟩ := exists_mem_of_mapM hsources hw
    obtain rfl := Except.ok.inj (hfound.symm.trans heq)
    exact hmem u (List.mem_append_right _ (List.mem_flatten.mpr ⟨found, hfound', hu⟩))

variable (a) in
/-- **Functions are listed with their own values**, and calls lead from each of them to functions of
the list that are declared before it, or to the function itself. -/
def Lists (own : FuncId → List Value) (reached : List FuncId) : Prop :=
  ∀ g ∈ reached, a.coversOwn g (own g) = .ok true ∧ ∀ v ∈ own g, ∀ call ∈ v.inst?,
    ∀ k ∈ a.graph.calleeList call, k ∈ reached ∧ k.index ≤ g.index

instance (own : FuncId → List Value) : DecidablePred (a.Lists own) :=
  fun reached => inferInstanceAs (Decidable (∀ g ∈ reached, _))

/-- **A criterion for functions to be apart**: they are listed with their own values, and no value
is listed twice. -/
theorem apart_of_lists {f : FuncId} {own : FuncId → List Value} {reached : List FuncId}
    (hf : f ∈ reached) (hlists : a.Lists own reached)
    (hdisjoint : ∀ g ∈ reached, ∀ k ∈ reached, ∀ v ∈ own g, v ∈ own k → isNoted v = true →
      g = k) :
    a.Apart (a.LeadsTo f) := by
  have hle : ∀ g k, g ∈ reached → a.LeadsTo g k → k ∈ reached ∧ k.index ≤ g.index := by
    intro g k hg hleads
    induction hleads with
    | refl => exact ⟨hg, Nat.le_refl _⟩
    | tail hleads hcall ih =>
      obtain ⟨call, -, -, hcall, -, hmem⟩ := hcall
      obtain ⟨hcovers, hcalls⟩ := hlists _ ih.1
      obtain ⟨hk, hle⟩ := hcalls _ (hcall.mem_of_coversOwn hcovers) call rfl _ hmem
      exact ⟨hk, hle.trans ih.2⟩
  refine ⟨fun g k hg hcall => hg.tail hcall, fun g k hg hgk hkg => ?_,
    fun g k v hg hk hv hvg hvk => ?_⟩
  · obtain ⟨hg, -⟩ := hle f g hf hg
    obtain ⟨hk, hkg'⟩ := hle g k hg hgk
    exact congrArg FuncId.mk (Nat.le_antisymm (hle k g hk hkg).2 hkg')
  · obtain ⟨hg, -⟩ := hle f g hf hg
    obtain ⟨hk, -⟩ := hle f k hf hk
    exact hdisjoint g hg k hk v (hvg.mem_of_coversOwn (hlists g hg).1)
      (hvk.mem_of_coversOwn (hlists k hk).1) hv

/-! ## One search after another -/

variable (a) in
/-- **The ranges of some functions**, each found with what is remembered of those before it. -/
def rangesOf : List FuncId → Table FuncId SignedRange → Checked (List SignedRange)
  | [], _ => return []
  | f :: rest, ranges => do
    let (range, ranges) ← a.rangeOf f ranges
    return range :: (← rangesOf rest ranges)

section Searches

variable (hp : a.program.Inside) (hgraph : a.graph.Within a.program)
  (halias : a.mayAlias.Answers a.program)
include hp hgraph halias

/-- A search finds the range that a function has alone, and leaves what is remembered ready. -/
theorem alike_of_ready {f : FuncId} (hf : a.program.HasFunction f) (hapart : a.Apart (a.LeadsTo f))
    {ranges : Table FuncId SignedRange} (hready : ∀ g, a.Ready ⟨ranges, []⟩ g) :
    Alike (fun x y => x.1 = y.1 ∧ ∀ g, a.Ready ⟨x.2, []⟩ g) (a.rangeOf f ranges)
      (a.rangeOf f {}) := by
  have hdepth := a.unvisited_lt_enoughDepth ⟨ranges, []⟩
  have hfound := foundAsAlone hp hgraph halias hapart hf .refl a.enoughDepth ⟨ranges, []⟩ hdepth
    fun g _ => hready g
  refine Alike.bind (hfound.imp fun out out' hout _ ⟨hrange, hbelow⟩ =>
    (⟨hrange, fun g => ?_⟩ : out.1 = out'.1 ∧ ∀ g, a.Ready ⟨out.2.ranges, []⟩ g))
    fun _ _ h => alike_pure h
  -- the values that were met are forgotten, so that only the range of `g` counts
  by_cases hleads : a.LeadsTo f g
  · exact (hbelow g hleads).of_same rfl fun _ _ _ hv => absurd hv List.not_mem_nil
  · have hext := extends_of_functionRange hp hgraph halias hf hdepth hout
    exact (hready g).of_same (hext.ranges g hleads) fun _ _ _ hv => absurd hv List.not_mem_nil

/-- **Each of a sequence of searches finds what it finds alone.** -/
theorem rangesOf_eq_mapM {fs : List FuncId}
    (hfs : ∀ f ∈ fs, a.program.HasFunction f ∧ a.Apart (a.LeadsTo f))
    {ranges : Table FuncId SignedRange} (hready : ∀ g, a.Ready ⟨ranges, []⟩ g) :
    a.rangesOf fs ranges = fs.mapM fun f => do return (← a.rangeOf f {}).1 := by
  refine Alike.eq (R := Eq) ?_ fun _ _ h => h
  induction fs generalizing ranges with
  | nil => exact alike_pure rfl
  | cons f rest ih =>
    rw [List.forall_mem_cons] at hfs
    rw [rangesOf, List.mapM_cons, bind_assoc]
    refine (alike_of_ready hp hgraph halias hfs.1.1 hfs.1.2 hready).bind
      fun x y ⟨hrange, hx⟩ => ?_
    refine (ih hfs.2 hx).bind fun _ _ hrest => alike_pure ?_
    rw [hrange, hrest]

/-- The observations of a slot are refined as they are with nothing remembered. -/
theorem alike_refineSlot (c : Context) {f : FuncId} (hf : a.program.HasFunction f)
    (hapart : a.Apart (a.LeadsTo f)) (h : Histogram) {ranges : Table FuncId SignedRange}
    (hready : ∀ g, a.Ready ⟨ranges, []⟩ g) :
    Alike (fun x y => x.1 = y.1 ∧ ∀ g, a.Ready ⟨x.2, []⟩ g) (c.refineSlot a ranges f h)
      (c.refineSlot a {} f h) := by
  unfold Context.refineSlot
  refine Alike.bind (R := Eq) (.refl fun _ _ => rfl) fun function _ heq => ?_
  subst heq
  split
  · exact alike_pure ⟨rfl, hready⟩
  · refine Alike.bind (R := Eq) (.refl fun _ _ => rfl) fun constant _ heq => ?_
    subst heq
    split
    · exact alike_pure ⟨rfl, hready⟩
    · unfold refine
      refine Alike.bind (R := Eq) (.refl fun _ _ => rfl) fun function _ heq => ?_
      subst heq
      split
      · refine (alike_of_ready hp hgraph halias hf hapart hready).bind fun x y ⟨hrange, hx⟩ => ?_
        refine Alike.bind (R := Eq) ?_ fun refined refined' heq => alike_pure ⟨heq, hx⟩
        show Alike Eq (narrowAll x.1 h) (narrowAll y.1 h)
        rw [hrange]
        exact .refl fun _ _ => rfl
      · exact alike_pure ⟨rfl, hready⟩

/-- Each slot of a list is refined as it is alone. -/
theorem refineSlots_eq_mapM (c : Context) {slots : List (ReturnSlot × Histogram)}
    (hslots : ∀ e ∈ slots, a.program.HasFunction e.1.function ∧ a.Apart (a.LeadsTo e.1.function))
    {ranges : Table FuncId SignedRange} (hready : ∀ g, a.Ready ⟨ranges, []⟩ g) :
    c.refineSlots a slots ranges =
      slots.mapM fun e => do return (e.1, (← c.refineSlot a {} e.1.function e.2).1) := by
  refine Alike.eq (R := Eq) ?_ fun _ _ h => h
  induction slots generalizing ranges with
  | nil => exact alike_pure rfl
  | cons e rest ih =>
    rw [List.forall_mem_cons] at hslots
    rw [Context.refineSlots, List.mapM_cons, bind_assoc]
    refine (alike_refineSlot hp hgraph halias c hslots.1.1 hslots.1.2 e.2 hready).bind
      fun x y ⟨hrefined, hx⟩ => ?_
    refine (ih hslots.2 hx).bind fun _ _ hrest => alike_pure ?_
    rw [hrefined, hrest]

end Searches

/-- **Remembered ranges make no difference** if each search leads to functions that are apart: each
of a sequence of searches, however often a function occurs in it, has the result that it has alone,
and so the observations of each slot are refined in the same way wherever it stands. -/
theorem rangesOf_and_refineSlots_as_alone {ds : List Directive}
    (hbuild : Program.build ds = .ok a.program) (hgraph : a.graph.Within a.program)
    (halias : a.mayAlias.Answers a.program) {fs : List FuncId}
    (hfs : ∀ f ∈ fs, a.program.HasFunction f)
    (hapart : ∀ f ∈ fs, a.Apart (a.LeadsTo f)) :
    (a.rangesOf fs {} = fs.mapM fun f => do return (← a.rangeOf f {}).1) ∧
    ∀ (c : Context) (slots : List (ReturnSlot × Histogram)), (∀ e ∈ slots, e.1.function ∈ fs) →
      c.refineSlots a slots {} =
        slots.mapM fun e => do return (e.1, (← c.refineSlot a {} e.1.function e.2).1) := by
  have hp := Program.inside_of_build hbuild
  refine ⟨rangesOf_eq_mapM hp hgraph halias (fun f hf => ⟨hfs f hf, hapart f hf⟩) ready_empty, ?_⟩
  intro c slots hslots
  exact refineSlots_eq_mapM hp hgraph halias c
    (fun e he => ⟨hfs _ (hslots e he), hapart _ (hslots e he)⟩) ready_empty

/-- `retry` calls itself or `leaf`, and `top` calls `retry`. `any` and `some` have nothing to do
with them or with each other; both return an undefined value. -/
def retryingAlone : List Directive :=
  [.module "m", .declare ⟨0⟩ "leaf" [] (.int 32), .declare ⟨0⟩ "retry" [] (.int 32),
    .declare ⟨0⟩ "top" [] (.int 32), .declare ⟨0⟩ "any" [] (.int 32),
    .declare ⟨0⟩ "some" [] (.int 32),
    .define ⟨0⟩ [.ret (some (.int (-1) 32))],
    .define ⟨1⟩ [.call ⟨1⟩ [], .call ⟨0⟩ [], .select .undef (.inst ⟨1⟩) (.inst ⟨2⟩),
      .ret (some (.inst ⟨3⟩))],
    .define ⟨2⟩ [.call ⟨1⟩ [], .ret (some (.inst ⟨5⟩))],
    .define ⟨3⟩ [.ret (some .undef)], .define ⟨4⟩ [.ret (some .undef)]]

/-- The own values of the five. -/
def retryingOwn : FuncId → List Value
  | ⟨0⟩ => [.int (-1) 32]
  | ⟨1⟩ => [.inst ⟨3⟩, .inst ⟨1⟩, .inst ⟨2⟩]
  | ⟨2⟩ => [.inst ⟨5⟩]
  | _ => [.undef]

/-- The functions that each of the five leads to. -/
def retryingReached : FuncId → List FuncId
  | ⟨0⟩ => [⟨0⟩]
  | ⟨1⟩ => [⟨1⟩, ⟨0⟩]
  | ⟨2⟩ => [⟨2⟩, ⟨1⟩, ⟨0⟩]
  | f => [f]

/-- The undefined value is an own value of `any` and of `some`, but no search leads to both. -/
theorem retryingAlone_ranges :
    ∃ p g, Program.build retryingAlone = .ok p ∧ CallGraph.ofDirectCalls p = .ok g ∧
      let a : RangeFinder := ⟨p, g, .basic, {}⟩
      let fs : List FuncId := [⟨2⟩, ⟨1⟩, ⟨0⟩, ⟨1⟩, ⟨3⟩, ⟨4⟩]
      (∀ f ∈ fs, a.Apart (a.LeadsTo f)) ∧ a.Own ⟨3⟩ .undef ∧ a.Own ⟨4⟩ .undef ∧
      a.rangesOf fs {} = fs.mapM (fun f => do return (← a.rangeOf f {}).1) ∧
      a.rangesOf fs {} = .ok (List.replicate 4 (.singleton (-1) 32) ++ [.full 32, .full 32]) := by
  obtain ⟨p, hp, g, hg, hreached, hundef, hranges⟩ :
      ∃ p, Program.build retryingAlone = .ok p ∧ ∃ g, CallGraph.ofDirectCalls p = .ok g ∧
      (∀ f ∈ ([⟨2⟩, ⟨1⟩, ⟨0⟩, ⟨1⟩, ⟨3⟩, ⟨4⟩] : List FuncId), f.index < p.functions.size ∧
        f ∈ retryingReached f ∧ Lists ⟨p, g, .basic, {}⟩ retryingOwn (retryingReached f)) ∧
      (∀ f ∈ ([⟨3⟩, ⟨4⟩] : List FuncId), ∃ function, p.function f = .ok function ∧
        ∃ operands, returned ⟨p, g, .basic, {}⟩ f = .ok operands ∧
        function.ret.width? = some 32 ∧ .undef ∈ operands) ∧
      rangesOf ⟨p, g, .basic, {}⟩ [⟨2⟩, ⟨1⟩, ⟨0⟩, ⟨1⟩, ⟨3⟩, ⟨4⟩] {} =
        .ok (List.replicate 4 (.singleton (-1) 32) ++ [.full 32, .full 32]) := by
    decide +kernel
  have hdisjoint : ∀ f ∈ ([⟨2⟩, ⟨1⟩, ⟨0⟩, ⟨1⟩, ⟨3⟩, ⟨4⟩] : List FuncId),
      ∀ k ∈ retryingReached f, ∀ l ∈ retryingReached f, ∀ v ∈ retryingOwn k,
      v ∈ retryingOwn l → isNoted v = true → k = l := by
    decide
  have hown : ∀ f ∈ ([⟨3⟩, ⟨4⟩] : List FuncId), Own ⟨p, g, .basic, {}⟩ f .undef := by
    intro f hf
    obtain ⟨function, hfunction, operands, hoperands, hwidth, hmem⟩ := hundef f hf
    have hret := Ty.eq_int_of_width? hwidth
    exact ⟨.undef, ⟨function, 32, operands, hfunction, hret, hoperands, hmem⟩, .refl⟩
  have hapart : ∀ f ∈ ([⟨2⟩, ⟨1⟩, ⟨0⟩, ⟨1⟩, ⟨3⟩, ⟨4⟩] : List FuncId),
      Apart ⟨p, g, .basic, {}⟩ (LeadsTo ⟨p, g, .basic, {}⟩ f) := by
    intro f hf
    obtain ⟨-, hself, hlists⟩ := hreached f hf
    exact apart_of_lists hself hlists (hdisjoint f hf)
  obtain ⟨halone, -⟩ := rangesOf_and_refineSlots_as_alone (a := ⟨p, g, .basic, {}⟩) hp
    (CallGraph.within_ofDirectCalls hg) (AliasOracle.answers_basic (Program.inside_of_build hp))
    (fun f hf => (hreached f hf).1) hapart
  exact ⟨p, g, hp, hg, hapart, hown ⟨3⟩ (by decide), hown ⟨4⟩ (by decide), halone, hranges⟩

/-- Two functions that call each other, the first of which may also give up. -/
def retrying : List Directive :=
  [.module "m", .declare ⟨0⟩ "retry" [] (.int 32), .declare ⟨0⟩ "attempt" [] (.int 32),
    .define ⟨0⟩ [.call ⟨1⟩ [], .select .undef (.inst ⟨0⟩) (.int (-9) 32), .ret (some (.inst ⟨1⟩))],
    .define ⟨1⟩ [.call ⟨0⟩ [], .ret (some (.inst ⟨3⟩))]]

/-- **The order of searches is seen** if two functions lead to each other. Alone, either of them may
return -9, and so they do if the second one is searched first; on the way of a search for the first,
the second is found to return nothing. -/
theorem retrying_ranges_in_order :
    ∃ p g, Program.build retrying = .ok p ∧ CallGraph.ofDirectCalls p = .ok g ∧
      p.functionIds.mapM p.defect? = .ok [none, none] ∧
      let a : RangeFinder := ⟨p, g, .basic, {}⟩
      a.Alone ⟨0⟩ (.singleton (-9) 32) ∧ a.Alone ⟨1⟩ (.singleton (-9) 32) ∧
      a.rangesOf [⟨1⟩, ⟨0⟩] {} = .ok [.singleton (-9) 32, .singleton (-9) 32] ∧
      a.rangesOf [⟨0⟩, ⟨1⟩] {} = .ok [.singleton (-9) 32, .empty 32] := by
  obtain ⟨p, hp, g, hg, ⟨_, _⟩, hfirst, ⟨_, _⟩, hsecond, hdefects, hupward, hdownward, rfl, rfl⟩ :
      ∃ p, Program.build retrying = .ok p ∧ ∃ g, CallGraph.ofDirectCalls p = .ok g ∧
      ∃ first, rangeOf ⟨p, g, .basic, {}⟩ ⟨0⟩ {} = .ok first ∧
      ∃ second, rangeOf ⟨p, g, .basic, {}⟩ ⟨1⟩ {} = .ok second ∧
      p.functionIds.mapM p.defect? = .ok [none, none] ∧
      rangesOf ⟨p, g, .basic, {}⟩ [⟨1⟩, ⟨0⟩] {} = .ok [.singleton (-9) 32, .singleton (-9) 32] ∧
      rangesOf ⟨p, g, .basic, {}⟩ [⟨0⟩, ⟨1⟩] {} = .ok [.singleton (-9) 32, .empty 32] ∧
      first.1 = .singleton (-9) 32 ∧ second.1 = .singleton (-9) 32 := by
    decide +kernel
  exact ⟨p, g, hp, hg, hdefects, ⟨_, hfirst⟩, ⟨_, hsecond⟩, hupward, hdownward⟩

end RangeFinder

end ErrorReturns
