import ErrorReturns.Proofs.Flow.Linear
import ErrorReturns.Proofs.Program.WellFormed

/-!
# Functions that keep to themselves

A function with a defect is left out, but its blocks remain in the program, and so do its jumps.
What does this mean for the functions without defects? An edge has two ends, and only one of them is
looked at when a function is examined. The edges out of a function without defects stay in it, and
so does everything that follows edges forwards: such a function is `Program.Enclosed`.

An edge into the function may come from anywhere. A block that can only be entered from a function
with a defect is `Program.Intruded`, and the chain before it leaves the function. There is no other
way out: the chain before a block stays in the function as long as none of its blocks is intruded.
-/

namespace ErrorReturns.Program

open Checked

variable {p : Program} {F : Fault → Prop}

/-! ## Looking for defects -/

/-- Whether a block ends as it should is found out for any instructions that exist. -/
theorem meets_terminatorDefect? (b : BlockId) {insts : List InstId}
    (h : ∀ i ∈ insts, p.HasInst i) : Meets F (fun _ => True) (p.terminatorDefect? b insts) := by
  unfold terminatorDefect?
  split
  · exact meets_pure trivial
  case h_2 last hlast =>
    refine (meets_op (h last (List.mem_of_getLast? hlast))).bind fun op _ => ?_
    split
    · exact meets_pure trivial
    · refine (meets_findM? fun i hi => ?_).bind fun _ _ => meets_pure trivial
      exact (meets_op (h i (List.dropLast_subset _ hi))).map fun _ _ => trivial

namespace Inside

variable (hp : p.Inside)
include hp

theorem meets_operandDefect? (f : FuncId) (arity : Nat) (i : InstId) {v : Value} (h : p.Has v) :
    Meets F (fun _ => True) (p.operandDefect? f arity i v) := by
  cases v with
  | inst used => exact (hp.meets_functionOf h).map fun _ _ => trivial
  | _ => exact meets_pure trivial

theorem meets_instDefect? (f : FuncId) (arity : Nat) (b : BlockId) {i : InstId}
    (h : p.HasInst i) : Meets F (fun _ => True) (p.instDefect? f arity b i) := by
  refine (meets_op h).bind fun op hop => ?_
  split
  · exact meets_pure trivial
  · refine (meets_findSomeM? (Q := fun _ => True) fun v hv => ?_).bind fun kind? _ => ?_
    · exact (hp.meets_operandDefect? f arity i (hp.operands_of op hop v hv)).imp
        fun _ _ _ _ => trivial
    · split <;> exact meets_pure trivial

/-- The defects of a block are those of its end and of its instructions. -/
theorem meets_blockDefect? (f : FuncId) (arity : Nat) {b : BlockId} (h : p.HasBlock b) :
    Meets F (fun _ => True) (p.blockDefect? f arity b) := by
  refine (meets_block h).bind fun block hblock => ?_
  have hinsts := hp.insts_of block hblock
  refine (meets_terminatorDefect? b hinsts).bind fun kind? _ => ?_
  split
  · exact meets_pure trivial
  · refine (meets_findSomeM? (Q := fun _ => True) fun i hi => ?_).trivial
    exact (hp.meets_instDefect? f arity b (hinsts i hi)).imp fun _ _ _ _ => trivial

/-- A function of the program has a defect or has none. -/
theorem meets_defect? {f : FuncId} (h : p.HasFunction f) :
    Meets F (fun _ => True) (p.defect? f) := by
  refine (meets_function h).bind fun function hfunction => ?_
  refine (meets_findSomeM? (Q := fun _ => True) fun b hb => ?_).map fun _ _ => trivial
  exact (hp.meets_blockDefect? f _ (hp.blocks_of function hfunction b hb)).imp
    fun _ _ _ _ => trivial

end Inside

/-! ## Forwards -/

section Forwards

variable {ds : List Directive} (hbuild : build ds = .ok p) {f : FuncId}
  (h : p.defect? f = .ok none)
include hbuild h

/-- **The edges out of a function without defects stay in it.** -/
theorem inFunction_of_mem_successors {b s : BlockId} (hb : p.InFunction f b)
    (hs : s ∈ p.successors b) : p.InFunction f s := by
  obtain ⟨block, hblock, hown⟩ := hb
  obtain ⟨body, last, op, -, -, -, -, hsuccessors, htargets⟩ :=
    exists_terminator_of_defect? hbuild h hblock hown
  rw [hsuccessors] at hs
  exact htargets s hs

theorem inFunction_chainForward {b : BlockId} (hb : p.InFunction f b) :
    ∀ x ∈ p.chainForward b, p.InFunction f x :=
  forall_mem_follow _ _ hb fun _ _ hx _ hc =>
    inFunction_of_mem_successors hbuild h hx (mem_of_onlyOne? hc)

theorem exists_pathsFrom_inFunction {b : BlockId} (hb : p.InFunction f b) (boundary : List BlockId)
    (seed : Path) : ∃ paths, p.pathsFrom boundary b seed = .ok paths ∧
      ∀ q ∈ paths, ∃ v, q = seed.append v ∧ ∀ x ∈ v, p.InFunction f x :=
  Meets.exists_eq_ok <| (inside_of_build hbuild).meets_pathsFrom_of_closed
    (fun _ hb => hb.hasBlock) (fun _ hb _ hs => inFunction_of_mem_successors hbuild h hb hs)
    boundary hb seed

end Forwards

variable (p) in
/-- **A function that keeps to itself**: no edge, and nothing that follows edges forwards, leads out
of it, and what its instructions read is its own. -/
structure Enclosed (f : FuncId) (function : Function) : Prop where
  /-- A block ends in its one terminator, and leads wherever the terminator does. -/
  ends : ∀ b ∈ function.blocks, ∃ block body last op, p.block b = .ok block ∧
    block.insts = body ++ [last] ∧ p.op last = .ok op ∧ op.isTerminator = true ∧
    (∀ i ∈ body, ∃ op, p.op i = .ok op ∧ op.isTerminator = false) ∧
    p.successors b = op.successors
  chain : ∀ b ∈ function.blocks, ∀ x ∈ p.chainForward b, x ∈ function.blocks
  paths : ∀ b ∈ function.blocks, ∀ boundary seed, ∃ paths,
    p.pathsFrom boundary b seed = .ok paths ∧
      ∀ q ∈ paths, ∃ v, q = seed.append v ∧ ∀ x ∈ v, x ∈ function.blocks
  results : ∀ b ∈ function.blocks, ∀ block, p.block b = .ok block → ∀ i ∈ block.insts, ∀ op,
    p.op i = .ok op → ∀ used, .inst used ∈ op.operands →
      ∃ b' ∈ function.blocks, ∃ block', p.block b' = .ok block' ∧ used ∈ block'.insts
  parameters : ∀ b ∈ function.blocks, ∀ block, p.block b = .ok block → ∀ i ∈ block.insts, ∀ op,
    p.op i = .ok op → ∀ owner n, .arg owner n ∈ op.operands → owner = f ∧ n < function.params.length

/-- **A function without defects is enclosed**, whatever the others jump to. -/
theorem enclosed_of_defect? {ds : List Directive} (hbuild : build ds = .ok p) {f : FuncId}
    (h : p.defect? f = .ok none) : ∃ function, p.function f = .ok function ∧
      p.Enclosed f function := by
  have howned := Arena.owned_of_edits (edits_of_build hbuild).1
  obtain ⟨function, hf, -⟩ := bind_eq_ok_iff.mp h
  -- a function lists exactly the blocks that name it as their owner, so that each clause can be
  -- proved for whichever of the two is at hand
  have hmem : ∀ {b}, b ∈ function.blocks ↔ p.InFunction f b := mem_blocks_iff howned hf
  refine ⟨function, hf,
    { ends := fun b hb => ?_
      chain := fun b hb x hx => ?_
      paths := fun b hb boundary seed => ?_
      results := fun b hb block hblock i hi op hop used hused => ?_
      parameters := fun b hb block hblock i hi op hop => ?_ }⟩
  · obtain ⟨block, hblock, hown⟩ := hmem.mp hb
    obtain ⟨body, last, op, hinsts, hop, hterm, hbody, hsuccessors, -⟩ :=
      exists_terminator_of_defect? hbuild h hblock hown
    exact ⟨block, body, last, op, hblock, hinsts, hop, hterm, hbody, hsuccessors⟩
  · exact hmem.mpr (inFunction_chainForward hbuild h (hmem.mp hb) x hx)
  · obtain ⟨paths, hpaths, hin⟩ := exists_pathsFrom_inFunction hbuild h (hmem.mp hb) boundary seed
    refine ⟨paths, hpaths, fun q hq => ?_⟩
    obtain ⟨v, hv, hin⟩ := hin q hq
    exact ⟨v, hv, fun x hx => hmem.mpr (hin x hx)⟩
  · have hinst := instDefect?_of_defect? h hf hb hblock hi
    obtain ⟨b', hb', block', hblock', hown⟩ :=
      functionOf_eq_ok_iff.mp (functionOf_of_instDefect? hinst hop hused)
    exact ⟨b', hmem.mpr ⟨block', hblock', hown⟩, block', hblock',
      (mem_insts_iff howned hblock').mpr hb'⟩
  · exact (of_instDefect? (instDefect?_of_defect? h hf hb hblock hi) hop).2

/-- A loop that only `stray` jumps to. The jump makes `stray` a function with a defect. -/
def enteredLoop : List Directive :=
  [.module "m", .declare ⟨0⟩ "loop" [.int 32] (.int 32), .declare ⟨0⟩ "stray" [] .void,
    .define ⟨0⟩ [.block, .block, .block, .block,
      .moveTo ⟨0⟩, .jump ⟨1⟩,
      .moveTo ⟨1⟩, .phi (.int 32) [(⟨0⟩, .arg ⟨0⟩ 0), (⟨2⟩, .inst ⟨3⟩)],
      .branch .undef ⟨2⟩ ⟨3⟩,
      .moveTo ⟨2⟩, .binop .add (.inst ⟨1⟩) (.inst ⟨1⟩), .jump ⟨1⟩,
      .moveTo ⟨3⟩, .ret (some (.inst ⟨1⟩))],
    .define ⟨1⟩ [.block, .moveTo ⟨4⟩, .jump ⟨0⟩]]

/-- A block of `stray` branches into the loop, which has no defect itself. -/
theorem exists_build_enteredLoop : ∃ p, build enteredLoop = .ok p ∧ p.defect? ⟨0⟩ = .ok none ∧
    p.defect? ⟨1⟩ = .ok (some ⟨"stray", .foreignSuccessor ⟨6⟩ ⟨0⟩⟩) ∧
    (∀ n < 4, p.InFunction ⟨0⟩ ⟨n⟩) ∧ p.InFunction ⟨1⟩ ⟨4⟩ ∧
    p.blocks.size = 5 ∧ p.predecessorsOf = #[[⟨4⟩], [⟨0⟩, ⟨2⟩], [⟨1⟩], [⟨1⟩], []] := by
  obtain ⟨p, hp, hnone, hsome, hfunctions, hpredecessors⟩ : ∃ p, build enteredLoop = .ok p ∧
      p.defect? ⟨0⟩ = .ok none ∧ p.defect? ⟨1⟩ = .ok (some ⟨"stray", .foreignSuccessor ⟨6⟩ ⟨0⟩⟩) ∧
      p.blocks.map Block.function = #[⟨0⟩, ⟨0⟩, ⟨0⟩, ⟨0⟩, ⟨1⟩] ∧
      p.predecessorsOf = #[[⟨4⟩], [⟨0⟩, ⟨2⟩], [⟨1⟩], [⟨1⟩], []] := by decide +kernel
  have hin : ∀ b f, (p.blocks.map Block.function)[b]? = some f → p.InFunction f ⟨b⟩ := by
    intro b f hb
    rw [Array.getElem?_map] at hb
    obtain ⟨block, hblock, hown⟩ := Option.map_eq_some_iff.mp hb
    exact ⟨block, Arena.block_eq_ok_iff.mpr hblock, hown⟩
  rw [hfunctions] at hin
  refine ⟨p, hp, hnone, hsome, fun n hn => hin n _ ?_, hin 4 _ rfl, ?_, hpredecessors⟩
  · revert n
    decide
  · simpa using congrArg Array.size hfunctions

/-- `loop` keeps to itself all the same. -/
theorem enteredLoop_enclosed : ∃ p function, build enteredLoop = .ok p ∧
    p.defect? ⟨0⟩ = .ok none ∧ p.function ⟨0⟩ = .ok function ∧ p.Enclosed ⟨0⟩ function ∧
    (∀ n < 4, ⟨n⟩ ∈ function.blocks) ∧ p.predecessors ⟨0⟩ = [⟨4⟩] := by
  obtain ⟨p, hp, hnone, -, hin, -, -, hpredecessors⟩ := exists_build_enteredLoop
  obtain ⟨function, hf, henclosed⟩ := enclosed_of_defect? hp hnone
  have howned := Arena.owned_of_edits (edits_of_build hp).1
  refine ⟨p, function, hp, hnone, hf, henclosed, fun n hn => ?_, ?_⟩
  · exact (mem_blocks_iff howned hf).mpr (hin n hn)
  · rw [predecessors, hpredecessors]
    rfl

/-! ## Backwards -/

variable (p) in
/-- A block that is entered from one block only, and that one belongs to a function with a
defect. -/
def Intruded (b : BlockId) : Prop :=
  ∃ d g defect, p.uniquePredecessor? b = some d ∧ p.InFunction g d ∧ p.defect? g = .ok (some defect)

variable (p) in
theorem self_mem_chainBackward (b : BlockId) : b ∈ p.chainBackward b := self_mem_follow _ _ _ b

/-- A path is extended by the chain before its first block, which is on the path already. -/
theorem mem_extendBackward_iff {b x : BlockId} {rest : List BlockId} :
    x ∈ p.extendBackward (b :: rest) ↔ x ∈ p.chainBackward b ∨ x ∈ rest := by
  obtain ⟨tail, htail⟩ : ∃ tail, p.chainBackward b = b :: tail := exists_follow_eq_cons _ _ _ b
  rw [extendBackward, htail]
  simp only [List.tail_cons, List.mem_append, List.mem_reverse, List.mem_cons]
  tauto

section Backwards

variable {ds : List Directive} (hbuild : build ds = .ok p) {f : FuncId}
  (h : p.defect? f = .ok none)
include hbuild h

/-- An edge into a function without defects comes from the function, or from one with a defect. -/
theorem inFunction_uniquePredecessor?_iff {b d : BlockId} (hb : p.InFunction f b)
    (hd : p.uniquePredecessor? b = some d) : p.InFunction f d ↔ ¬ p.Intruded b := by
  have hp := inside_of_build hbuild
  constructor
  · rintro hin ⟨d', g, defect, hd', hg, hdefect⟩
    obtain rfl := Option.some.inj (hd.symm.trans hd')
    rw [← hin.unique hg, h] at hdefect
    cases hdefect
  · intro hfree
    obtain ⟨block, hblock, hmem⟩ :=
      (meets_block (hp.hasBlock_of_uniquePredecessor? hd)).exists_eq_ok
    have hin : p.InFunction block.function d := ⟨block, hblock, rfl⟩
    obtain ⟨defect?, hdefect, -⟩ := (hp.meets_defect? (hp.function_of block hmem)).exists_eq_ok
    cases defect? with
    | some defect => exact absurd ⟨d, _, defect, hd, hin, hdefect⟩ hfree
    | none =>
      -- the function of `d` keeps to itself, so it is the function of `b`
      have hedge := mem_successors_of_mem_predecessors hbuild (mem_of_onlyOne? hd)
      have hin' := inFunction_of_mem_successors hbuild hdefect hin hedge
      exact hb.unique hin' ▸ hin

/-- The chain before a block stays in its function exactly as long as no other function branches
into it. -/
theorem inFunction_chainBackward_iff {b : BlockId} (hb : p.InFunction f b) :
    (∀ x ∈ p.chainBackward b, p.InFunction f x) ↔ ∀ x ∈ p.chainBackward b, ¬ p.Intruded x := by
  constructor
  · rintro hin x hx ⟨d, g, defect, hd, hg⟩
    have hmem := mem_follow_of_onlyOne? (hasBlock_of_mem_edges hbuild).1 hx hd
    exact (inFunction_uniquePredecessor?_iff hbuild h (hin x hx) hd).mp (hin d hmem)
      ⟨d, g, defect, hd, hg⟩
  · intro hfree
    exact forall_mem_follow _ _ hb fun x hx hin d hd =>
      (inFunction_uniquePredecessor?_iff hbuild h hin hd).mpr (hfree x hx)

/-- **The chain before a block stays in its function as long as no block on it is intruded**, and
so does a path of the function that is extended by it. -/
theorem backward_keeps_to_function_iff {b : BlockId} (hb : p.InFunction f b) :
    ((∀ x ∈ p.chainBackward b, p.InFunction f x) ↔ ∀ x ∈ p.chainBackward b, ¬ p.Intruded x) ∧
      ∀ rest, (∀ x ∈ rest, p.InFunction f x) →
        ((∀ x ∈ p.extendBackward (b :: rest), p.InFunction f x) ↔
          ∀ x ∈ p.chainBackward b, ¬ p.Intruded x) := by
  refine ⟨inFunction_chainBackward_iff hbuild h hb, fun rest hrest => ?_⟩
  rw [← inFunction_chainBackward_iff hbuild h hb]
  constructor
  · exact fun hin x hx => hin x (mem_extendBackward_iff.mpr (Or.inl hx))
  · intro hin x hx
    rcases mem_extendBackward_iff.mp hx with hx | hx
    · exact hin x hx
    · exact hrest x hx

end Backwards

/-- The chain before the second half of the loop stays in it, and the one before its entry does
not. -/
theorem enteredLoop_backward : ∃ p, build enteredLoop = .ok p ∧ p.defect? ⟨0⟩ = .ok none ∧
    (∀ n < 4, p.InFunction ⟨0⟩ ⟨n⟩) ∧
    (∀ x ∈ p.extendBackward [⟨2⟩, ⟨1⟩], p.InFunction ⟨0⟩ x) ∧
    ¬ ∀ x ∈ p.chainBackward ⟨0⟩, p.InFunction ⟨0⟩ x := by
  obtain ⟨p, hp, hnone, hsome, hin, hout, hsize, hpredecessors⟩ := exists_build_enteredLoop
  have hunique : ∀ b, p.uniquePredecessor? b =
      onlyOne? ((#[[⟨4⟩], [⟨0⟩, ⟨2⟩], [⟨1⟩], [⟨1⟩], []])[b.index]?.getD []) := by
    intro b
    rw [uniquePredecessor?, predecessors, hpredecessors]
  have hchain : p.chainBackward ⟨2⟩ = [⟨2⟩, ⟨1⟩] := by
    rw [chainBackward, hsize, funext hunique]
    decide
  refine ⟨p, hp, hnone, hin, ?_, fun hall => ?_⟩
  · refine ((backward_keeps_to_function_iff hp hnone (hin 2 (by decide))).2 [⟨1⟩]
      (List.forall_mem_singleton.mpr (hin 1 (by decide)))).mpr ?_
    rw [hchain]
    rintro x hx ⟨d, g, defect, hd, hg, hdefect⟩
    rw [hunique] at hd
    rcases List.mem_cons.mp hx with rfl | hx
    · obtain rfl := Option.some.inj hd
      rw [← (hin 1 (by decide)).unique hg, hnone] at hdefect
      cases hdefect
    · obtain rfl := List.mem_singleton.mp hx
      cases hd
  · have hfree := (backward_keeps_to_function_iff hp hnone (hin 0 (by decide))).1.mp hall
    exact hfree ⟨0⟩ (p.self_mem_chainBackward ⟨0⟩) ⟨⟨4⟩, ⟨1⟩, _, hunique ⟨0⟩, hout, hsome⟩

/-- The chain before the entry of the loop, and a path that starts there, lead to `stray`. -/
theorem enteredLoop_leaves : ∃ p, build enteredLoop = .ok p ∧ p.defect? ⟨0⟩ = .ok none ∧
    p.InFunction ⟨0⟩ ⟨0⟩ ∧ p.chainBackward ⟨0⟩ = [⟨0⟩, ⟨4⟩] ∧
    p.extendBackward [⟨0⟩] = [⟨4⟩, ⟨0⟩] ∧ ¬ p.InFunction ⟨0⟩ ⟨4⟩ := by
  obtain ⟨p, hp, hnone, -, hin, hout, hsize, hpredecessors⟩ := exists_build_enteredLoop
  have hchain : p.chainBackward ⟨0⟩ = [⟨0⟩, ⟨4⟩] := by
    unfold chainBackward uniquePredecessor? predecessors
    rw [hsize, hpredecessors]
    decide
  refine ⟨p, hp, hnone, hin 0 (by decide), hchain, ?_, fun hin' => ?_⟩
  · rw [extendBackward, hchain]
    rfl
  · cases hin'.unique hout

end ErrorReturns.Program
