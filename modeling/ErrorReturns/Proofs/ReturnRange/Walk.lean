import ErrorReturns.Proofs.CallGraph
import ErrorReturns.Proofs.Histogram
import ErrorReturns.Proofs.Knowledge
import ErrorReturns.ReturnRange

/-!
# What the search for a range walks through

The range of what a function returns is found by walking back from its return operands. The values
that this walk meets in the function itself are its own (`RangeFinder.Own`), and the calls among
them lead on to other functions (`RangeFinder.CallsFrom`). Both are stated without the walk, from
what the range of a value is made of (`RangeFinder.MadeOf`).

One contract describes the walk from any value of a function (`RangeFinder.meets_valueRange`). It
visits only values that belong to functions it is led to, and remembers ranges of these functions
only. Each level visits a new instruction, so it never runs out of depth. And it meets no fault,
with one exception: what it asks of a value is its type, and that of a parameter is found with the
function it belongs to, which need not exist. Refining what was observed by the range adds one fault
more, and only if the counts are no word together (`RangeFinder.meets_narrowAll`).
-/

namespace ErrorReturns

open Checked
open Histogram (total)
open Relation (ReflTransGen)

namespace RangeFinder

variable (a : RangeFinder)

/-! ## Own values and called functions -/

/-- The operands whose ranges make up the range of a value, in a function. -/
def sourcesOf (f : FuncId) (v : Value) : Checked (List Value) := do
  match ← a.program.opOf? v with
  | some (.select _ ifTrue ifFalse) => return [ifTrue, ifFalse]
  | some (.phi incoming) => return incoming.map (·.2)
  | some (.cast _ inner) => return [inner]
  | some (.load ptr) => a.storedTo f ptr
  | _ => return []

/-- Whether the range of a value, in a function, is made of that of another one. -/
def MadeOf (f : FuncId) (v w : Value) : Prop :=
  ∃ sources, a.sourcesOf f v = .ok sources ∧ w ∈ sources

/-- Whether a function returns integers, and a value is one of its return operands. -/
def Returns (f : FuncId) (v : Value) : Prop :=
  ∃ function bits operands, a.program.function f = .ok function ∧ function.ret = .int bits ∧
    a.returned f = .ok operands ∧ v ∈ operands

/-- **The own values of a function**: what its return operands are made of. -/
def Own (f : FuncId) (v : Value) : Prop := ∃ u, a.Returns f u ∧ ReflTransGen (a.MadeOf f) u v

/-- **Functions that a range leads to**: those that a call among the own values may reach. -/
def CallsFrom (f g : FuncId) : Prop :=
  ∃ call callee args, a.Own f (.inst call) ∧ a.program.op call = .ok (.call callee args) ∧
    g ∈ a.graph.calleeList call

variable {a}

theorem Own.madeOf {f : FuncId} {v : Value} (h : a.Own f v) {sources : List Value}
    (hs : a.sourcesOf f v = .ok sources) {w : Value} (hw : w ∈ sources) : a.Own f w := by
  obtain ⟨u, hu, hpath⟩ := h
  exact ⟨u, hu, hpath.tail ⟨sources, hs, hw⟩⟩

/-- Own values lie in every set that has the return operands and what its members are made of. -/
theorem Own.induct {f : FuncId} {P : Value → Prop} (hreturns : ∀ v, a.Returns f v → P v)
    (hmade : ∀ v w, P v → a.MadeOf f v w → P w) {v : Value} (h : a.Own f v) : P v := by
  obtain ⟨u, hu, hpath⟩ := h
  induction hpath with
  | refl => exact hreturns u hu
  | tail _ hstep ih => exact hmade _ _ ih hstep

/-! ## Own values exist -/

section Inside

variable {F : Fault → Prop} (hp : a.program.Inside)
include hp

theorem meets_returned {f : FuncId} (hf : a.program.HasFunction f) :
    Meets F (fun vs => ∀ v ∈ vs, a.program.Reads v) (a.returned f) := by
  refine (hp.meets_returnsIn hf).bind fun is his => meets_filterMapM fun i hi => ?_
  refine (Program.meets_op (his i hi)).bind fun op hop => ?_
  split
  case h_1 v => exact meets_pure fun u hu => ⟨_, hop, Option.mem_toList.mpr hu⟩
  case h_2 => exact meets_none

variable (halias : a.mayAlias.Answers a.program)
include halias

/-- What is stored to an address is read by the stores of the function. -/
theorem meets_storedTo {f : FuncId} (hf : a.program.HasFunction f) {ptr : Value}
    (hptr : a.program.Has ptr) :
    Meets F (fun vs => ∀ v ∈ vs, a.program.Reads v) (a.storedTo f ptr) := by
  refine (hp.meets_instsIn hf).bind fun is his => meets_filterMapM fun i hi => ?_
  refine (Program.meets_op (his i hi)).bind fun op hop => ?_
  split
  case h_1 target value =>
    refine (halias.meets hptr (hp.has hop (by simp [Operation.operands]))).bind fun found _ => ?_
    split
    · exact meets_some ⟨_, hop, by simp [Operation.operands]⟩
    · exact meets_none
  case h_2 => exact meets_none

/-- What a value is made of is read by an instruction. -/
theorem meets_sourcesOf {f : FuncId} (hf : a.program.HasFunction f) {v : Value}
    (hv : a.program.Has v) : Meets F (fun vs => ∀ w ∈ vs, a.program.Reads w) (a.sourcesOf f v) := by
  refine (Program.meets_opOf? hv).bind fun op? hop => ?_
  split
  · exact meets_pure fun w hw => ⟨_, hop _ rfl, List.mem_cons_of_mem _ hw⟩
  · exact meets_pure fun w hw => ⟨_, hop _ rfl, hw⟩
  · exact meets_pure fun w hw => ⟨_, hop _ rfl, hw⟩
  · exact meets_storedTo hp halias hf (hp.has (hop _ rfl) List.mem_cons_self)
  · exact meets_pure fun w hw => absurd hw List.not_mem_nil

/-- Own values are operands of the program. -/
theorem Own.reads {f : FuncId} (hf : a.program.HasFunction f) {v : Value} (h : a.Own f v) :
    a.program.Reads v := by
  refine h.induct (fun v hv => ?_) fun v w hv hw => ?_
  · obtain ⟨function, bits, operands, -, -, hreturned, hmem⟩ := hv
    exact (meets_returned (F := fun _ => False) hp hf).of_eq_ok hreturned v hmem
  · obtain ⟨sources, hs, hmem⟩ := hw
    exact (meets_sourcesOf (F := fun _ => False) hp halias hf (hp.has_of_reads hv)).of_eq_ok hs w
      hmem

theorem Own.has {f : FuncId} (hf : a.program.HasFunction f) {v : Value} (h : a.Own f v) :
    a.program.Has v :=
  hp.has_of_reads (h.reads hp halias hf)

end Inside

/-! ## What a walk remembers -/

/-- Whether a walk notes that it has met a value, which it does unless it is an integer constant or
null. -/
def isNoted : Value → Bool
  | .const _ | .null => false
  | _ => true

variable (a) in
/-- **One memo extends another** if a walk through some functions leads from the second to the
first: more values of these functions are visited, and ranges of these functions are found. -/
structure Extends (R : FuncId → Prop) (memo memo' : RangeMemo) : Prop where
  visited : ∀ v ∈ memo.visited, v ∈ memo'.visited
  own : ∀ v ∈ memo'.visited, v ∈ memo.visited ∨ isNoted v = true ∧ ∃ f, R f ∧ a.Own f v
  ranges : ∀ f, ¬ R f → memo'.ranges.get? f = memo.ranges.get? f

namespace Extends

variable {R : FuncId → Prop} {memo memo' memo'' : RangeMemo}

theorem refl (memo : RangeMemo) : a.Extends R memo memo :=
  ⟨fun _ h => h, fun _ h => Or.inl h, fun _ _ => rfl⟩

theorem trans (h : a.Extends R memo memo') (h' : a.Extends R memo' memo'') :
    a.Extends R memo memo'' where
  visited v hv := h'.visited v (h.visited v hv)
  own v hv := (h'.own v hv).elim (h.own v) Or.inr
  ranges f hf := (h'.ranges f hf).trans (h.ranges f hf)

theorem visit {f : FuncId} (hf : R f) {v : Value} (hv : a.Own f v) (hnoted : isNoted v = true)
    (memo : RangeMemo) : a.Extends R memo { memo with visited := v :: memo.visited } where
  visited w hw := List.mem_cons_of_mem v hw
  own w hw := by
    rcases List.mem_cons.mp hw with rfl | hw
    · exact Or.inr ⟨hnoted, f, hf, hv⟩
    · exact Or.inl hw
  ranges _ _ := rfl

theorem remember {f : FuncId} (hf : R f) (range : SignedRange) (memo : RangeMemo) :
    a.Extends R memo { memo with ranges := memo.ranges.insert f range } where
  visited _ hw := hw
  own _ hw := Or.inl hw
  ranges g hg := by
    have hne : g ≠ f := fun heq => hg (heq ▸ hf)
    exact Table.get?_update_of_ne hne memo.ranges _

end Extends

variable (a) in
/-- How many results have not been visited. -/
def unvisited (memo : RangeMemo) : Nat := a.program.unmet fun i => .inst i ∈ memo.visited

theorem unvisited_le {memo memo' : RangeMemo} (h : ∀ v ∈ memo.visited, v ∈ memo'.visited) :
    a.unvisited memo' ≤ a.unvisited memo :=
  Program.unmet_le fun i => h (.inst i)

theorem unvisited_le_size (memo : RangeMemo) : a.unvisited memo ≤ a.program.insts.size :=
  Program.unmet_le_size

/-- Visiting a result leaves fewer to visit. -/
theorem unvisited_lt {memo : RangeMemo} {id : InstId} (hid : a.program.HasInst id)
    (hnew : Value.inst id ∉ memo.visited) :
    a.unvisited { memo with visited := .inst id :: memo.visited } < a.unvisited memo :=
  Program.unmet_lt (fun _ => List.mem_cons_of_mem _) hid hnew List.mem_cons_self

/-! ## The walk -/

section Contracts

variable {F : Fault → Prop} {R : FuncId → Prop} {memo₀ : RangeMemo}

/-- A union keeps an invariant of memos that its parts keep. -/
theorem meets_unionOf {α : Type} {I : RangeMemo → Prop} (short : Bool)
    {find : α → RangeMemo → Checked Found} {l : List α}
    (h : ∀ x ∈ l, ∀ memo, I memo → Meets F (fun out => I out.2) (find x memo))
    (range : SignedRange) {memo : RangeMemo} (hm : I memo) :
    Meets F (fun out => I out.2) (unionOf short find l range memo) := by
  induction l generalizing range memo with
  | nil => exact meets_pure hm
  | cons x rest ih =>
    rw [List.forall_mem_cons] at h
    unfold unionOf
    refine (h.1 memo hm).bind fun out hout => ?_
    dsimp only
    split
    · exact meets_pure hout
    · exact ih h.2 _ hout

/-- The walk through a function, as long as that from each of its own values keeps to its
contract. -/
theorem meets_functionRange (hp : a.program.Inside)
    {find : FuncId → Value → RangeMemo → Checked Found} {f : FuncId}
    (hf : a.program.HasFunction f) (hR : R f)
    (hfind : ∀ v, a.Own f v → ∀ memo, a.Extends R memo₀ memo →
      Meets F (fun out => a.Extends R memo₀ out.2) (find f v memo))
    {memo : RangeMemo} (hm : a.Extends R memo₀ memo) :
    Meets F (fun out => a.Extends R memo₀ out.2) (a.functionRange find f memo) := by
  refine (Program.meets_function hf).and_eq.bind fun function ⟨_, hfunction⟩ => ?_
  split
  case h_1 bits hret =>
    split
    · exact meets_pure hm
    · refine (meets_returned hp hf).and_eq.bind fun operands ⟨_, hreturned⟩ => ?_
      refine Meets.bind (P := fun out => a.Extends R memo₀ out.2) ?_ fun out hout => ?_
      · refine meets_unionOf false (fun v hv memo hm => hfind v ?_ memo hm) _ hm
        exact ⟨v, ⟨function, bits, operands, hfunction, hret, hreturned, hv⟩, .refl⟩
      · exact meets_pure (hout.trans (.remember hR _ _))
  case h_2 => exact meets_pure hm

theorem meets_binopRange (bits : Nat) (op : BinOp) {lhs : Value} (hlhs : a.program.Has lhs)
    (rhs : Value) : Meets F (fun _ => True) (a.binopRange bits op lhs rhs) := by
  unfold binopRange
  split
  · exact meets_pure trivial
  · refine (Program.meets_opOf? hlhs).bind fun op? _ => ?_
    dsimp only
    (repeat' split) <;> exact meets_pure trivial

variable (hp : a.program.Inside) (hgraph : a.graph.Within a.program)
  (halias : a.mayAlias.Answers a.program)
include hp

theorem meets_stores {f : FuncId} (hf : a.program.HasFunction f) :
    Meets F (fun _ => True) (a.stores f) := by
  refine (hp.meets_instsIn hf).bind fun is his => meets_anyM fun i hi => ?_
  exact (Program.meets_op (his i hi)).map fun _ _ => trivial

include hgraph

theorem meets_unfilledRange (bits : Nat) {ptr : Value} (hptr : a.program.Has ptr) :
    Meets F (fun _ => True) (a.unfilledRange bits ptr) := by
  refine (Program.meets_opOf? hptr).bind fun op? _ => ?_
  split
  · refine (hp.meets_stripOffsets hptr).bind fun x _ => ?_
    dsimp only
    split
    · split
      · rename_i callees hcallees
        refine (meets_anyM fun f hf => meets_stores hp ?_).bind fun found _ => meets_pure trivial
        exact hgraph.callees _ f ((CallGraph.mem_calleeList hcallees).mpr hf)
      · exact meets_pure trivial
    · exact meets_pure trivial
  · exact meets_pure trivial

include halias

/-- One level of the walk, as long as the levels below keep to their contract. -/
theorem meets_operationRange (hR : ∀ f g, R f → a.CallsFrom f g → R g)
    {find : FuncId → Value → RangeMemo → Checked Found}
    (hfind : ∀ f, a.program.HasFunction f → R f → ∀ v, a.Own f v → ∀ memo,
      a.Extends R memo₀ memo → Meets F (fun out => a.Extends R memo₀ out.2) (find f v memo))
    {f : FuncId} (hf : a.program.HasFunction f) (hRf : R f) {id : InstId}
    (hown : a.Own f (.inst id))
    (bits : Nat) {memo : RangeMemo} (hm : a.Extends R memo₀ memo) :
    Meets F (fun out => a.Extends R memo₀ out.2) (a.operationRange find f id bits memo) := by
  have hid : a.program.HasInst id := hown.has hp halias hf
  refine (Program.meets_op hid).and_eq.bind fun op ⟨hop, heq⟩ => ?_
  have hop? : a.program.opOf? (.inst id) = .ok (some op) := by
    rw [Arena.opOf?, heq]
    rfl
  -- every recursive query is about a value that the source list of the instruction names, which is
  -- again one of `f`; only a call leaves for another function, and `R` is closed under that
  have hsource : ∀ {sources}, a.sourcesOf f (.inst id) = .ok sources → ∀ v ∈ sources, ∀ memo,
      a.Extends R memo₀ memo → Meets F (fun out => a.Extends R memo₀ out.2) (find f v memo) :=
    fun hs v hv => hfind f hf hRf v (hown.madeOf hs hv)
  rw [sourcesOf, hop?, ok_bind] at hsource
  cases op with
  | call callee args =>
    dsimp only
    split
    case h_1 callees hcallees =>
      refine meets_unionOf true (fun g hg memo hm => ?_) _ hm
      have hmem := (CallGraph.mem_calleeList hcallees).mpr hg
      have hg := hgraph.callees id g hmem
      have hRg : R g := hR f g hRf ⟨id, callee, args, hown, heq, hmem⟩
      exact meets_functionRange hp hg hRg (fun v hv => hfind g hg hRg v hv) hm
    case h_2 => exact meets_pure hm
  | select cond ifTrue ifFalse =>
    refine (hsource rfl ifTrue List.mem_cons_self memo hm).bind fun out hout => ?_
    dsimp only
    split
    · exact meets_pure hout
    · exact (hsource rfl ifFalse (by simp) _ hout).bind fun out hout => meets_pure hout
  | phi incoming => exact meets_unionOf true (hsource rfl) _ hm
  | cast kind inner =>
    exact (hsource rfl inner List.mem_cons_self memo hm).bind fun out hout => meets_pure hout
  | binop op lhs rhs =>
    refine (meets_binopRange bits op (hp.has hop ?_) rhs).bind fun _ _ => meets_pure hm
    exact List.mem_cons_self
  | load ptr =>
    have hptr : a.program.Has ptr := hp.has hop List.mem_cons_self
    refine (meets_storedTo hp halias hf hptr).and_eq.bind fun stored ⟨_, hstored⟩ => ?_
    split
    · exact (meets_unfilledRange hp hgraph bits hptr).bind fun _ _ => meets_pure hm
    · refine meets_unionOf false (fun v hv memo hm => ?_) _ hm
      exact (hsource hstored v hv memo hm).bind fun out hout => meets_pure hout
  | _ => exact meets_pure hm

end Contracts

/-- **Stray parameters.** A fault that comes from some functions: one of them has, among its own
values, a parameter of a function that does not exist. -/
def Strays (a : RangeFinder) (R : FuncId → Prop) (e : Fault) : Prop :=
  ∃ f owner index, R f ∧ a.Own f (.arg owner index) ∧ ¬ a.program.HasFunction owner ∧
    e = .noFunction owner

section Walk

variable {R : FuncId → Prop} (hp : a.program.Inside) (hgraph : a.graph.Within a.program)
  (halias : a.mayAlias.Answers a.program)
include hp halias

/-- An own value has a type, unless it is a parameter of a function that does not exist. -/
theorem meets_typeOf {f : FuncId} (hf : a.program.HasFunction f) (hR : R f) {v : Value}
    (hown : a.Own f v) : Meets (a.Strays R) (fun _ => True) (a.program.typeOf v) := by
  cases v with
  | inst id => exact (Program.meets_inst (hown.has hp halias hf)).map fun _ _ => trivial
  | arg owner index =>
    by_cases howner : a.program.HasFunction owner
    · exact (Program.meets_function howner).map fun _ _ => trivial
    · have hnone : a.program.function owner = .error (.noFunction owner) := by
        rw [Arena.function, Array.getElem?_eq_none_iff.mpr (Nat.le_of_not_lt howner)]
      rw [Arena.typeOf, hnone]
      exact ⟨f, owner, index, hR, hown, howner, rfl⟩
  | _ => exact meets_pure trivial

include hgraph

/-- **The contract of a walk.** Through functions from which it is not led elsewhere, it visits only
what belongs to them and remembers nothing of other functions. The depth is enough if it exceeds
the number of results that are left to visit. -/
theorem meets_valueRange (hR : ∀ f g, R f → a.CallsFrom f g → R g) (depth : Nat) {f : FuncId}
    (hf : a.program.HasFunction f) (hRf : R f) {v : Value} (hown : a.Own f v) {memo : RangeMemo}
    (hdepth : a.unvisited memo < depth) :
    Meets (a.Strays R) (fun out => a.Extends R memo out.2) (a.valueRange depth f v memo) := by
  -- a visit takes one value off those left, and whatever the walk then extends has no more of them
  induction depth generalizing f v memo with
  | zero => exact absurd hdepth (Nat.not_lt_zero _)
  | succ depth ih =>
    rw [valueRange]
    refine (meets_typeOf hp halias hf hRf hown).bind fun ty _ => ?_
    cases v with
    | const c =>
      dsimp only
      split <;> exact meets_pure (.refl memo)
    | null => exact meets_pure (.refl memo)
    | inst id =>
      dsimp only
      split
      · exact meets_pure (.refl memo)
      · split
        · exact meets_pure (.refl memo)
        · rename_i hnew
          have hvisit := Extends.visit hRf hown rfl memo
          have hlt := unvisited_lt (hown.has hp halias hf) hnew
          refine (meets_operationRange hp hgraph halias hR (fun g hg hRg w hw memo' hm => ?_)
            hf hRf hown _ (.refl _)).imp fun out hout => hvisit.trans hout
          have hle := unvisited_le (a := a) hm.visited
          exact (ih hg hRg hw (by omega)).imp fun out hout => hm.trans hout
    | arg | func | global | undef =>
      dsimp only
      split
      · exact meets_pure (.refl memo)
      · split
        · exact meets_pure (.refl memo)
        · exact meets_pure (.visit hRf hown rfl memo)

omit hp hgraph halias in
/-- The depth that walks are given is always enough. -/
theorem unvisited_lt_enoughDepth (memo : RangeMemo) : a.unvisited memo < a.enoughDepth := by
  have hle := a.unvisited_le_size memo
  unfold enoughDepth
  omega

theorem meets_rangeOf (hR : ∀ f g, R f → a.CallsFrom f g → R g) {f : FuncId}
    (hf : a.program.HasFunction f) (hRf : R f) (ranges : Table FuncId SignedRange) :
    Meets (a.Strays R) (fun _ => True) (a.rangeOf f ranges) := by
  refine Meets.bind (meets_functionRange hp hf hRf (fun v hv memo hm => ?_) (.refl _))
    fun _ _ => meets_pure trivial
  refine (meets_valueRange hp hgraph halias hR _ hf hRf hv (unvisited_lt_enoughDepth memo)).imp ?_
  exact fun out hout => hm.trans hout

omit hp hgraph halias in
/-- Where a set is narrowed to the bounds of a range, these are in order. -/
theorem meets_narrowTo? {F : Fault → Prop} (range : SignedRange) (s : RangeSet) :
    Meets F (fun t? => ∀ t ∈ t?, s.Reachable → t.Reachable) (narrowTo? range s) := by
  unfold narrowTo?
  split
  · exact meets_some fun _ => .empty
  · exact meets_some fun hs => hs
  · dsimp only
    split
    · exact meets_none
    case isFalse hle =>
      refine (RangeSet.meets_between (Word.fits_wrapSigned _) (Word.fits_wrapSigned _)
        (Int.not_lt.mp hle)).bind fun t ht => ?_
      exact meets_some fun hs => .inter ht hs

omit hp hgraph halias in
/-- **Narrowing keeps at most the counts there are**, and so there is a result unless these are no
word together. -/
theorem meets_narrowAll {F : Fault → Prop} (range : SignedRange) (h : Histogram)
    (hF : Word.count 32 ≤ total h.entries → F .countOverflow) :
    Meets F (fun out => (h.Made → out.Made) ∧ total out.entries ≤ total h.entries)
      (narrowAll range h) := by
  refine meets_foldlM_prefix (I := fun past out => (h.Made → Histogram.Made out) ∧
    total out.entries ≤ total past) (fun past e out hpast ⟨hmade, hle⟩ => ?_)
    ⟨fun _ => Histogram.made_empty, Nat.le_refl 0⟩
  have hmem : e ∈ h.entries := hpast.subset (List.mem_append_right past List.mem_cons_self)
  have hsum : total (past ++ [e]) = total past + e.2 := Histogram.total_append past [e]
  have hall : total (past ++ [e]) ≤ total h.entries := Histogram.total_le_of_prefix hpast
  refine (meets_narrowTo? range e.1).bind fun t? ht => ?_
  cases t? with
  | none => exact meets_pure ⟨hmade, by omega⟩
  | some t =>
    have hcount := Histogram.getD_get?_le_total out t
    refine (Count.meets_add fun hword => hF (by omega)).map fun sum hsum' => ?_
    rw [hsum', Histogram.insert_getD_add, Histogram.total_add]
    refine ⟨fun hh => (hmade hh).update (ht t rfl (hh e hmem).1) fun _ _ => ?_, by omega⟩
    exact Nat.add_pos_right _ (hh e hmem).2

/-- **Refining**, whatever is wrong with the function. -/
theorem meets_refine (hR : ∀ f g, R f → a.CallsFrom f g → R g) {f : FuncId}
    (hf : a.program.HasFunction f) (hRf : R f) (h : Histogram)
    (ranges : Table FuncId SignedRange) :
    Meets (fun e => a.Strays R e ∨ e = .countOverflow ∧ Word.count 32 ≤ total h.entries)
      (fun out => (h.Made → out.1.Made) ∧ total out.1.entries ≤ total h.entries)
      (a.refine f h ranges) := by
  refine (Program.meets_function hf).bind fun function _ => ?_
  split
  · refine ((meets_rangeOf hp hgraph halias hR hf hRf ranges).imp_fault fun _ => Or.inl).bind
      fun out _ => ?_
    exact (meets_narrowAll out.1 h fun hword => Or.inr ⟨rfl, hword⟩).map fun _ hrefined => hrefined
  · exact meets_pure ⟨id, Nat.le_refl _⟩

end Walk

/-! ## Functions with any defect -/

/-- **Ranges of functions with any defect.** Whatever is wrong with a function or with those that
its calls lead to, the range of what it returns and the refinement of what was observed of it are
found, unless one of them has a stray parameter among its own values: then the fault is that the
owner of the parameter does not exist. There is one other fault, in refinements only, of counts that
are no word together. -/
theorem rangeOf_and_refine_unless_stray {ds : List Directive}
    (hbuild : Program.build ds = .ok a.program) (hgraph : a.graph.Within a.program)
    (halias : a.mayAlias.Answers a.program) {f : FuncId} (hf : a.program.HasFunction f)
    (ranges : Table FuncId SignedRange) :
    ((∃ out, a.rangeOf f ranges = .ok out) ∨
      ∃ e, a.rangeOf f ranges = .error e ∧ a.Strays (ReflTransGen a.CallsFrom f) e) ∧
    ∀ h, (∃ out, a.refine f h ranges = .ok out) ∨
      (∃ e, a.refine f h ranges = .error e ∧ a.Strays (ReflTransGen a.CallsFrom f) e) ∨
      a.refine f h ranges = .error .countOverflow ∧ Word.count 32 ≤ total h.entries := by
  have hp := Program.inside_of_build hbuild
  have hR : ∀ g k, ReflTransGen a.CallsFrom f g → a.CallsFrom g k → ReflTransGen a.CallsFrom f k :=
    fun _ _ hreach hcall => hreach.tail hcall
  constructor
  · have hrange := (meets_rangeOf hp hgraph halias hR hf .refl ranges).ok_or_error
    exact hrange.imp_left fun ⟨out, hout, _⟩ => ⟨out, hout⟩
  · intro h
    rcases (meets_refine hp hgraph halias hR hf .refl h ranges).ok_or_error with
      ⟨out, hout, -⟩ | ⟨e, he, hstrays | ⟨rfl, hword⟩⟩
    · exact Or.inl ⟨out, hout⟩
    · exact Or.inr (Or.inl ⟨e, he, hstrays⟩)
    · exact Or.inr (Or.inr ⟨he, hword⟩)

/-- `broken` returns a result and a missing parameter of its caller, goes on after it has returned,
and does not end its block. -/
def brokenBody : List Directive :=
  [.module "m", .declare ⟨0⟩ "caller" [] (.int 32), .declare ⟨0⟩ "broken" [] (.int 32),
    .define ⟨0⟩ [.call ⟨1⟩ [], .ret (some (.inst ⟨0⟩))],
    .define ⟨1⟩ [.ret (some (.inst ⟨0⟩)), .ret (some (.arg ⟨0⟩ 7)),
      .ret (some (.const ⟨-5, 32⟩)), .alloca]]

/-- A body without an end has a range, and refining by it fails for the known reasons at most. -/
theorem brokenBody_rangeOf_and_refine :
    ∃ p g, Program.build brokenBody = .ok p ∧ CallGraph.ofDirectCalls p = .ok g ∧
      p.defect? ⟨1⟩ = .ok (some ⟨"broken", .missingTerminator ⟨1⟩⟩) ∧
      let a : RangeFinder := ⟨p, g, .basic, {}⟩
      (∃ ranges, a.rangeOf ⟨1⟩ {} = .ok (.singleton (-5) 32, ranges)) ∧
      ∀ h, (∃ out, a.refine ⟨1⟩ h {} = .ok out) ∨
        (∃ e, a.refine ⟨1⟩ h {} = .error e ∧ a.Strays (ReflTransGen a.CallsFrom ⟨1⟩) e) ∨
        a.refine ⟨1⟩ h {} = .error .countOverflow ∧ Word.count 32 ≤ total h.entries := by
  obtain ⟨p, hp, g, hg, hdefect, range, ranges, hrange, rfl, hsize⟩ :
      ∃ p, Program.build brokenBody = .ok p ∧ ∃ g, CallGraph.ofDirectCalls p = .ok g ∧
      p.defect? ⟨1⟩ = .ok (some ⟨"broken", .missingTerminator ⟨1⟩⟩) ∧
      ∃ range ranges, rangeOf ⟨p, g, .basic, {}⟩ ⟨1⟩ {} = .ok (range, ranges) ∧
      range = .singleton (-5) 32 ∧ p.functions.size = 2 := by decide +kernel
  have hinside := Program.inside_of_build hp
  have hwithin := CallGraph.within_ofDirectCalls hg
  have hf : p.HasFunction ⟨1⟩ := by
    rw [Program.HasFunction, hsize]
    decide
  obtain ⟨-, hrefine⟩ := rangeOf_and_refine_unless_stray (a := ⟨p, g, .basic, {}⟩) hp hwithin
    (AliasOracle.answers_basic hinside) hf {}
  exact ⟨p, g, hp, hg, hdefect, ⟨ranges, hrange⟩, hrefine⟩

/-- `stray` returns a parameter of a function that does not exist. `caller` checks it twice, and
handles both errors alike. -/
def strayParameter : List Directive :=
  [.module "m", .declare ⟨0⟩ "stray" [] (.int 32), .declare ⟨0⟩ "log" [] .void,
    .declare ⟨0⟩ "caller" [] (.int 32),
    .define ⟨0⟩ [.block, .moveTo ⟨0⟩, .ret (some (.arg ⟨99⟩ 0))],
    .define ⟨2⟩ [.block, .block, .block, .block, .block,
      .moveTo ⟨1⟩, .call ⟨0⟩ [], .cmp .slt (.inst ⟨1⟩) (.int 0 32), .branch (.inst ⟨2⟩) ⟨2⟩ ⟨3⟩,
      .moveTo ⟨2⟩, .call ⟨1⟩ [], .ret (some (.int (-1) 32)),
      .moveTo ⟨3⟩, .call ⟨0⟩ [], .cmp .slt (.inst ⟨6⟩) (.int 0 32), .branch (.inst ⟨7⟩) ⟨4⟩ ⟨5⟩,
      .moveTo ⟨4⟩, .call ⟨1⟩ [], .ret (some (.int (-1) 32)),
      .moveTo ⟨5⟩, .ret (some (.int 0 32))]]

/-- Neither the range of `stray` nor a refinement is found, and an analysis of the program ends with
the same fault, although `stray` is left out because of its defect. -/
theorem strayParameter_without_range :
    ∃ p g, Program.build strayParameter = .ok p ∧ CallGraph.ofDirectCalls p = .ok g ∧
      p.defect? ⟨0⟩ = .ok (some ⟨"stray", .badArgument ⟨0⟩ ⟨99⟩⟩) ∧
      rangeOf ⟨p, g, .basic, {}⟩ ⟨0⟩ {} = .error (.noFunction ⟨99⟩) ∧
      refine ⟨p, g, .basic, {}⟩ ⟨0⟩ (Table.empty.insert (.singleton (-1)) 1) {} =
        .error (.noFunction ⟨99⟩) ∧
      Analysis.run ⟨p, g, .basic, {}⟩ = .error (.noFunction ⟨99⟩) := by
  obtain ⟨p, hp, g, hg, hdefect, hrange, hrefine, hanalysis⟩ :
      ∃ p, Program.build strayParameter = .ok p ∧ ∃ g, CallGraph.ofDirectCalls p = .ok g ∧
      p.defect? ⟨0⟩ = .ok (some ⟨"stray", .badArgument ⟨0⟩ ⟨99⟩⟩) ∧
      fault? (rangeOf ⟨p, g, .basic, {}⟩ ⟨0⟩ {}) = some (.noFunction ⟨99⟩) ∧
      fault? (refine ⟨p, g, .basic, {}⟩ ⟨0⟩ (Table.empty.insert (.singleton (-1)) 1) {}) =
        some (.noFunction ⟨99⟩) ∧
      fault? (Analysis.run ⟨p, g, .basic, {}⟩) = some (.noFunction ⟨99⟩) := by
    decide +kernel
  exact ⟨p, g, hp, hg, hdefect, eq_error_of_fault? hrange, eq_error_of_fault? hrefine,
    eq_error_of_fault? hanalysis⟩

end RangeFinder

end ErrorReturns
