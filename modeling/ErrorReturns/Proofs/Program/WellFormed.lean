import ErrorReturns.Program.Defect
import ErrorReturns.Proofs.CallGraph

/-!
# Programs without defects

A closed program may still name what it does not have, in three places: the target of a jump, the
function that a parameter belongs to, and the function that is called by name. The first two are
defects of the function that holds the instruction, and the third keeps the graph of the calls by
name from being made. A program whose functions have no defect and whose calls by name are known is
therefore `Program.WellFormed`: every name in it can be looked up.

Even if other functions have defects, a function without one can be relied on by itself: each of its
blocks ends in its one terminator, which leads to all its targets, and these are in the function too
(`Program.exists_terminator_of_defect?`).
-/

namespace ErrorReturns.Program

open Checked

variable {p : Program}

variable (p) in
/-- **A program in which every name can be looked up.** -/
structure WellFormed : Prop extends p.Inside where
  targets_of : ∀ op, p.Performs op → ∀ b ∈ op.successors, p.HasBlock b
  owners_of : ∀ f n, p.Reads (.arg f n) → p.HasFunction f
  callees_of : ∀ f args, p.Performs (.call (.direct f) args) → p.HasFunction f

variable (p) in
/-- Whether a block belongs to a function. -/
def InFunction (f : FuncId) (b : BlockId) : Prop :=
  ∃ block, p.block b = .ok block ∧ block.function = f

theorem InFunction.hasBlock {f : FuncId} {b : BlockId} (h : p.InFunction f b) : p.HasBlock b := by
  obtain ⟨block, hblock, -⟩ := h
  exact (Array.getElem?_eq_some_iff.mp (Arena.block_eq_ok_iff.mp hblock)).1

theorem InFunction.unique {f g : FuncId} {b : BlockId} (h : p.InFunction f b)
    (h' : p.InFunction g b) : f = g := by
  obtain ⟨block, hblock, rfl⟩ := h
  obtain ⟨block', hblock', rfl⟩ := h'
  rw [Except.ok.inj (hblock.symm.trans hblock')]

/-- An instruction belongs to the function that its block belongs to. -/
theorem functionOf_eq_ok_iff {i : InstId} {f : FuncId} :
    p.functionOf i = .ok f ↔ ∃ b, p.blockOf i = .ok b ∧ p.InFunction f b := by
  simp only [functionOf, InFunction, bind_eq_ok_iff, pure_eq_ok, Except.ok.injEq]

/-! ## Without a defect -/

theorem blockDefect?_of_defect? {f : FuncId} {function : Function} {b : BlockId}
    (h : p.defect? f = .ok none) (hf : p.function f = .ok function) (hb : b ∈ function.blocks) :
    p.blockDefect? f function.params.length b = .ok none := by
  rw [defect?, hf, ok_bind] at h
  obtain ⟨kind?, hkind, h⟩ := bind_eq_ok_iff.mp h
  cases kind? with
  | some kind => cases h
  | none => exact eq_none_of_findSomeM? hkind hb

/-- A block without a defect: its terminator is in place, and no instruction has a defect. -/
theorem of_blockDefect? {f : FuncId} {arity : Nat} {b : BlockId} {block : Block}
    (h : p.blockDefect? f arity b = .ok none) (hblock : p.block b = .ok block) :
    p.terminatorDefect? b block.insts = .ok none ∧
      ∀ i ∈ block.insts, p.instDefect? f arity b i = .ok none := by
  rw [blockDefect?, hblock, ok_bind] at h
  obtain ⟨kind?, hkind, h⟩ := bind_eq_ok_iff.mp h
  cases kind? with
  | some kind => cases h
  | none => exact ⟨hkind, fun i hi => eq_none_of_findSomeM? h hi⟩

theorem instDefect?_of_defect? {f : FuncId} {function : Function} {b : BlockId} {block : Block}
    {i : InstId} (h : p.defect? f = .ok none) (hf : p.function f = .ok function)
    (hb : b ∈ function.blocks) (hblock : p.block b = .ok block) (hi : i ∈ block.insts) :
    p.instDefect? f function.params.length b i = .ok none :=
  (of_blockDefect? (blockDefect?_of_defect? h hf hb) hblock).2 i hi

/-- What ends a block is one of its instructions. -/
theorem mem_insts_of_terminator? {b : BlockId} {block : Block} (hblock : p.block b = .ok block)
    {last : InstId} (h : p.terminator? b = .ok (some last)) : last ∈ block.insts := by
  rw [terminator?, hblock, ok_bind] at h
  split at h
  · cases h
  · rename_i i hi
    obtain ⟨op, -, h⟩ := bind_eq_ok_iff.mp h
    obtain ⟨-, heq⟩ := Option.ite_none_right_eq_some.mp (Except.ok.inj h)
    exact Option.some.inj heq ▸ List.mem_of_getLast? hi

/-- Where terminators are in place, a block has one, at its end. -/
theorem of_terminatorDefect? {b : BlockId} {block : Block}
    (h : p.terminatorDefect? b block.insts = .ok none) (hblock : p.block b = .ok block) :
    ∃ body last op, block.insts = body ++ [last] ∧ p.op last = .ok op ∧ op.isTerminator = true ∧
      p.terminatorOp? b = .ok (some op) ∧
      ∀ i ∈ body, ∃ op, p.op i = .ok op ∧ op.isTerminator = false := by
  unfold terminatorDefect? at h
  cases hlast : block.insts.getLast? with
  | none => simp [hlast] at h
  | some last =>
    simp only [hlast] at h
    obtain ⟨op, hop, h⟩ := bind_eq_ok_iff.mp h
    cases hterm : op.isTerminator with
    | false => simp [hterm] at h
    | true =>
      rw [hterm] at h
      obtain ⟨early, hearly, h⟩ := bind_eq_ok_iff.mp h
      obtain rfl := Option.map_eq_none_iff.mp (Except.ok.inj h)
      refine ⟨block.insts.dropLast, last, op, (List.dropLast_append_getLast? last hlast).symm, hop,
        hterm, ?_, fun i hi => ?_⟩
      · simp [terminatorOp?, terminator?, hblock, hlast, hop, hterm]
      · obtain ⟨early, hearly, hfalse⟩ := bind_eq_ok_iff.mp (eq_false_of_findM? hearly hi)
        exact ⟨early, hearly, Except.ok.inj hfalse⟩

/-- An instruction without a defect has none in its targets and none in its operands. -/
theorem noDefect_of_instDefect? {f : FuncId} {arity : Nat} {b : BlockId} {i : InstId}
    {op : Operation} (h : p.instDefect? f arity b i = .ok none) (hop : p.op i = .ok op) :
    p.successorDefect? f i op = none ∧
      ∀ v ∈ op.operands, p.operandDefect? f arity i v = .ok none := by
  rw [instDefect?, hop, ok_bind] at h
  cases hsuccessor : p.successorDefect? f i op with
  | some kind => rw [hsuccessor] at h; cases h
  | none =>
    rw [hsuccessor] at h
    obtain ⟨kind?, hoperands, h⟩ := bind_eq_ok_iff.mp h
    cases kind? with
    | some kind => cases h
    | none => exact ⟨rfl, fun v hv => eq_none_of_findSomeM? hoperands hv⟩

/-- What an instruction without a defect names: blocks of its own function, and its parameters. -/
theorem of_instDefect? {f : FuncId} {arity : Nat} {b : BlockId} {i : InstId} {op : Operation}
    (h : p.instDefect? f arity b i = .ok none) (hop : p.op i = .ok op) :
    (∀ target ∈ op.successors, p.InFunction f target) ∧
      ∀ owner n, Value.arg owner n ∈ op.operands → owner = f ∧ n < arity := by
  obtain ⟨hsuccessor, hoperands⟩ := noDefect_of_instDefect? h hop
  refine ⟨fun target htarget => ?_, fun owner n harg => ?_⟩
  · have hfind := Option.map_eq_none_iff.mp hsuccessor
    have howned := List.find?_eq_none.mp hfind target htarget
    rw [Bool.not_eq_true, Bool.not_eq_false', Option.any_eq_true] at howned
    obtain ⟨block, hblock, hown⟩ := howned
    exact ⟨block, Arena.block_eq_ok_iff.mpr hblock, eq_of_beq hown⟩
  · have hnone := Except.ok.inj (hoperands _ harg)
    by_contra hne
    simp [hne] at hnone

/-- An instruction without a defect uses the results of its own function only. -/
theorem functionOf_of_instDefect? {f : FuncId} {arity : Nat} {b : BlockId} {i used : InstId}
    {op : Operation} (h : p.instDefect? f arity b i = .ok none) (hop : p.op i = .ok op)
    (hused : .inst used ∈ op.operands) : p.functionOf used = .ok f := by
  obtain ⟨g, hg, hnone⟩ := bind_eq_ok_iff.mp ((noDefect_of_instDefect? h hop).2 _ hused)
  by_cases heq : g = f
  · exact heq ▸ hg
  · simp [heq] at hnone

/-- **In a function without a defect each block ends in its one terminator**, which leads to all
its targets, and these are in the function too. -/
theorem exists_terminator_of_defect? {ds : List Directive} (hbuild : build ds = .ok p) {f : FuncId}
    (h : p.defect? f = .ok none) {b : BlockId} {block : Block} (hblock : p.block b = .ok block)
    (hown : block.function = f) : ∃ body last op, block.insts = body ++ [last] ∧
      p.op last = .ok op ∧ op.isTerminator = true ∧
      (∀ i ∈ body, ∃ op, p.op i = .ok op ∧ op.isTerminator = false) ∧
      p.successors b = op.successors ∧ ∀ target ∈ op.successors, p.InFunction f target := by
  have howned := Arena.owned_of_edits (edits_of_build hbuild).1
  obtain ⟨-, hsucc, -⟩ := Arena.freeze_eq_ok (edits_of_build hbuild).2
  obtain ⟨function, hf, -⟩ := bind_eq_ok_iff.mp h
  have hdefect := blockDefect?_of_defect? h hf
    ((mem_blocks_iff howned hf).mpr ⟨block, hblock, hown⟩)
  obtain ⟨hterminator, hinsts⟩ := of_blockDefect? hdefect hblock
  obtain ⟨body, last, op, heq, hop, hterm, hend, hbody⟩ := of_terminatorDefect? hterminator hblock
  have hlast : last ∈ block.insts := by rw [heq]; exact List.mem_concat_self
  have htargets := (of_instDefect? (hinsts last hlast) hop).1
  obtain ⟨t, ht, hsuccessors⟩ := exists_successors_eq (closed_of_build hbuild) hsucc hblock
  obtain rfl := Except.ok.inj (hend.symm.trans ht)
  refine ⟨body, last, op, heq, hop, hterm, hbody, ?_, htargets⟩
  -- no edge is left out, for there is a block at its end
  rw [hsuccessors]
  exact List.filter_eq_self.mpr fun s hs => decide_eq_true (htargets s hs).hasBlock

/-- In a function without a defect, what ends a block is its terminator. -/
theorem terminator?_of_isTerminator {ds : List Directive} (hbuild : build ds = .ok p) {f : FuncId}
    (h : p.defect? f = .ok none) {b : BlockId} {block : Block} (hblock : p.block b = .ok block)
    (hown : block.function = f) {i : InstId} (hi : i ∈ block.insts) {op : Operation}
    (hop : p.op i = .ok op) (hterm : op.isTerminator = true) : p.terminator? b = .ok (some i) := by
  obtain ⟨body, last, op', hinsts, -, -, hbody, -⟩ :=
    exists_terminator_of_defect? hbuild h hblock hown
  have hlast : i = last := by
    rw [hinsts] at hi
    rcases List.mem_append.mp hi with hi | hi
    · obtain ⟨op'', hop'', hfalse⟩ := hbody i hi
      obtain rfl := Except.ok.inj (hop.symm.trans hop'')
      rw [hterm] at hfalse
      cases hfalse
    · exact List.mem_singleton.mp hi
  rw [terminator?, hblock, ok_bind, hinsts, List.getLast?_concat]
  dsimp only
  rw [← hlast, hop, ok_bind, if_pos hterm]
  rfl

/-- The targets of what ends a block are successors of the block, in a function without a defect. -/
theorem mem_successors_of_isTerminator {ds : List Directive} (hbuild : build ds = .ok p)
    {f : FuncId} (h : p.defect? f = .ok none) {i : InstId} (hi : p.functionOf i = .ok f)
    {op : Operation} (hop : p.op i = .ok op) (hterm : op.isTerminator = true) {b : BlockId}
    (hb : p.blockOf i = .ok b) {target : BlockId} (htarget : target ∈ op.successors) :
    target ∈ p.successors b := by
  have howned := Arena.owned_of_edits (edits_of_build hbuild).1
  obtain ⟨b', hb', block, hblock, hown⟩ := functionOf_eq_ok_iff.mp hi
  obtain rfl := Except.ok.inj (hb.symm.trans hb')
  obtain ⟨body, last, op', hinsts, hop', -, hbody, hsuccessors, -⟩ :=
    exists_terminator_of_defect? hbuild h hblock hown
  have hmem := (mem_insts_iff howned hblock).mpr hb
  rw [hinsts] at hmem
  rcases List.mem_append.mp hmem with hmem | hmem
  · obtain ⟨op'', hop'', hfalse⟩ := hbody i hmem
    obtain rfl := Except.ok.inj (hop.symm.trans hop'')
    rw [hterm] at hfalse
    cases hfalse
  · obtain rfl := List.mem_singleton.mp hmem
    obtain rfl := Except.ok.inj (hop.symm.trans hop')
    rw [hsuccessors]
    exact htarget

end ErrorReturns.Program
