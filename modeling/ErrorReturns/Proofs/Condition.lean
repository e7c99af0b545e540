import ErrorReturns.Learning.Evidence
import ErrorReturns.Proofs.Meets
import ErrorReturns.Proofs.Program.WellFormed

/-!
# Where conditions come from

The conditions of a block have four sources (`CheckFinder.Source`): a case of the switch that ends
the block, the default of this switch, a comparison that the block branches on, and a comparison
that an instruction of the block extends. Whatever the search goes through to find out what is
tested, a condition that it yields has one of these sources (`CheckFinder.ensures_source`).

A condition is kept with its origin, the switch or the comparison, and is later looked up in the
block of the origin. A switch ends its block, but a comparison need not be in the block that
branches on it. A condition that decides a branch is therefore anchored at the block that it was
found in unless this block branches on a comparison from elsewhere
(`Program.branch_checks_anchored_iff`). If it does, the block of the condition may not even end in a
branch, and the values of the true side are taken for those of the false side
(`Program.hoistedFlag_misplaced`).
-/

namespace ErrorReturns

open Checked

namespace CheckFinder

/-- **The sources of the conditions of a block.** -/
inductive Source (s : CheckFinder) : Condition → Prop
  /-- A case of the switch that ends the block. -/
  | case {last : InstId} {v : Value} {default : BlockId} {cases : List (Constant × BlockId)}
      (hlast : s.program.terminator? s.block = .ok (some last))
      (hop : s.program.op last = .ok (.switch v default cases)) {k : Constant} {target : BlockId}
      (hk : (k, target) ∈ cases) (checked : CheckedValue) :
      Source s (.comparison checked .eq (.const k) last true)
  /-- The default of the switch that ends the block. -/
  | fallback {last : InstId} {v : Value} {default : BlockId} {cases : List (Constant × BlockId)}
      (hlast : s.program.terminator? s.block = .ok (some last))
      (hop : s.program.op last = .ok (.switch v default cases)) (checked : CheckedValue) :
      Source s (.fallback checked last)
  /-- A comparison that an instruction of the block branches on. -/
  | branch {block : Block} {i origin : InstId} {ifTrue ifFalse : BlockId} {pred : Predicate}
      {lhs rhs : Value} (hblock : s.program.block s.block = .ok block) (hi : i ∈ block.insts)
      (hop : s.program.op i = .ok (.branch (.inst origin) ifTrue ifFalse))
      (hcmp : s.program.op origin = .ok (.cmp pred lhs rhs)) (checked : CheckedValue)
      (q : Predicate) (v : Value) : Source s (.comparison checked q v origin true)
  /-- A comparison that an instruction of the block extends. -/
  | extension {block : Block} {i origin : InstId} {kind : Cast} {pred : Predicate} {lhs rhs : Value}
      (hblock : s.program.block s.block = .ok block) (hi : i ∈ block.insts)
      (hop : s.program.op i = .ok (.cast kind (.inst origin)))
      (hcmp : s.program.op origin = .ok (.cmp pred lhs rhs)) (checked : CheckedValue)
      (q : Predicate) (v : Value) : Source s (.comparison checked q v origin false)

variable {s : CheckFinder} {Q : Condition → Prop}

/-- Whether something holds of every condition that an instruction contributes. -/
def Contribution.All (Q : Condition → Prop) : Contribution → Prop
  | .conditions found => ∀ cond ∈ found, Q cond
  | .stop => True

/-- What every case and the default of a switch are built with, holds of all its conditions. -/
theorem ensures_ofSwitch {last : InstId} {v : Value} {cases : List (Constant × BlockId)}
    (hcase : ∀ checked, ∀ c ∈ cases, Q (.comparison checked .eq (.const c.1) last true))
    (hfallback : ∀ checked, Q (.fallback checked last)) :
    Ensures (fun found => ∀ cond ∈ found, Q cond) (s.ofSwitch last v cases) := by
  unfold ofSwitch
  split
  · refine (ensures_eq _).bind fun checked? _ => ?_
    split
    · refine (ensures_eq _).bind fun isCmp _ => ?_
      split
      · exact meets_nil
      · refine meets_pure fun cond hcond => ?_
        rcases List.mem_append.mp hcond with hcond | hcond
        · obtain ⟨c, hc, rfl⟩ := List.mem_map.mp hcond
          exact hcase _ c hc
        · obtain rfl := List.mem_singleton.mp hcond
          exact hfallback _
    · exact meets_nil
  · exact meets_nil

/-- A comparison expresses at most one condition, of which it is the origin. -/
theorem ensures_ofComparison {origin : InstId} {fromBranch : Bool}
    (h : ∀ checked q v, Q (.comparison checked q v origin fromBranch)) (pred : Predicate)
    (lhs rhs : Value) :
    Ensures (Contribution.All Q) (s.ofComparison origin fromBranch pred lhs rhs) := by
  have hnone : Ensures (Contribution.All Q) (pure (.conditions [])) :=
    meets_pure fun _ hcond => absurd hcond List.not_mem_nil
  have hone : ∀ checked q v, Ensures (Contribution.All Q)
      (pure (.conditions [.comparison checked q v origin fromBranch])) :=
    fun checked q v => meets_pure (List.forall_mem_singleton.mpr (h checked q v))
  unfold ofComparison
  split
  · refine (ensures_eq _).bind fun checked? _ => ?_
    split
    · refine (ensures_eq _).bind fun op? _ => ?_
      split
      · split
        · exact meets_pure trivial
        · split
          · refine (ensures_eq _).bind fun nested? _ => ?_
            split
            · split
              · exact hone _ _ _
              · exact meets_pure trivial
            · exact meets_pure trivial
          · exact meets_pure trivial
      · exact hone _ _ _
    · exact hnone
  · exact hnone

/-- A flag leads to a condition only if it is the result of a comparison. -/
theorem ensures_ofFlag {v : Value} {fromBranch : Bool}
    (h : ∀ origin pred lhs rhs, v = .inst origin → s.program.op origin = .ok (.cmp pred lhs rhs) →
      ∀ checked q w, Q (.comparison checked q w origin fromBranch)) :
    Ensures (Contribution.All Q) (s.ofFlag v fromBranch) := by
  refine (ensures_eq _).bind fun op? hop => ?_
  split
  case h_1 origin pred lhs rhs =>
    obtain ⟨op, hop, heq⟩ := bind_eq_ok_iff.mp hop
    obtain rfl := Option.some.inj (Except.ok.inj heq)
    exact ensures_ofComparison (h origin pred lhs rhs rfl hop) pred lhs rhs
  case h_2 => exact meets_pure fun _ hcond => absurd hcond List.not_mem_nil

/-- Every instruction of the block contributes conditions that have their source in the block. -/
theorem ensures_ofInst {block : Block} (hblock : s.program.block s.block = .ok block) {i : InstId}
    (hi : i ∈ block.insts) : Ensures (Contribution.All s.Source) (s.ofInst i) := by
  refine (ensures_eq _).bind fun op hop => ?_
  split
  · refine ensures_ofFlag fun origin pred lhs rhs heq hcmp => ?_
    exact .extension hblock hi (heq ▸ hop) hcmp
  · refine ensures_ofFlag fun origin pred lhs rhs heq hcmp => ?_
    exact .extension hblock hi (heq ▸ hop) hcmp
  · refine ensures_ofFlag fun origin pred lhs rhs heq hcmp => ?_
    exact .branch hblock hi (heq ▸ hop) hcmp
  · exact meets_pure fun _ hcond => absurd hcond List.not_mem_nil

/-- What the instructions contribute one by one, they contribute together. -/
theorem ensures_ofInsts {is : List InstId}
    (h : ∀ i ∈ is, Ensures (Contribution.All Q) (s.ofInst i)) :
    Ensures (fun found => ∀ cond ∈ found, Q cond) (s.ofInsts is) := by
  induction is with
  | nil => exact meets_nil
  | cons i rest ih =>
    rw [List.forall_mem_cons] at h
    refine h.1.bind fun contribution hcontribution => ?_
    cases contribution with
    | conditions found =>
      exact (ih h.2).map fun more hmore => List.forall_mem_append.mpr ⟨hcontribution, hmore⟩
    | stop => exact meets_nil

/-- What holds of the conditions of a switch that ends the block, and of those that each instruction
contributes, holds of all conditions of the block. -/
theorem ensures_conditions
    (hswitch : ∀ last v default cases, s.program.terminator? s.block = .ok (some last) →
      s.program.op last = .ok (.switch v default cases) →
      Ensures (fun found => ∀ cond ∈ found, Q cond) (s.ofSwitch last v cases))
    (hinst : ∀ block, s.program.block s.block = .ok block → ∀ i ∈ block.insts,
      Ensures (Contribution.All Q) (s.ofInst i)) :
    Ensures (fun found => ∀ cond ∈ found, Q cond) s.conditions := by
  have hinsts : Ensures (fun found => ∀ cond ∈ found, Q cond)
      (do s.ofInsts (← s.program.block s.block).insts) :=
    (ensures_eq _).bind fun block hblock => ensures_ofInsts (hinst block hblock)
  refine (ensures_eq _).bind fun last? hlast => ?_
  cases last? with
  | none => exact hinsts
  | some last =>
    refine (ensures_eq _).bind fun op hop => ?_
    split
    · exact hswitch last _ _ _ hlast hop
    · exact hinsts

/-- **Every condition of a block has a source.** -/
theorem ensures_source : Ensures (fun found => ∀ cond ∈ found, s.Source cond) s.conditions := by
  refine ensures_conditions (fun last v default cases hlast hop => ?_) fun block hblock i hi => ?_
  · exact ensures_ofSwitch (fun checked c hc => .case hlast hop hc checked)
      fun checked => .fallback hlast hop checked
  · exact ensures_ofInst hblock hi

/-- A condition comes from an instruction of the block, or from a result that one of them uses. -/
theorem Source.exists_mem_insts {cond : Condition} (h : s.Source cond) :
    ∃ block, s.program.block s.block = .ok block ∧ ∃ i ∈ block.insts, cond.origin = i ∨
      ∃ op, s.program.op i = .ok op ∧ .inst cond.origin ∈ op.operands := by
  cases h with
  | case hlast _ _ _ | fallback hlast _ _ =>
    obtain ⟨block, hblock, -⟩ := bind_eq_ok_iff.mp hlast
    exact ⟨block, hblock, _, Program.mem_insts_of_terminator? hblock hlast, Or.inl rfl⟩
  | branch hblock hi hop _ _ _ _ | extension hblock hi hop _ _ _ _ =>
    exact ⟨_, hblock, _, hi, Or.inr ⟨_, hop, List.mem_singleton_self _⟩⟩

/-- A comparison whose origin is a switch is one of the cases of this switch, which ends the
block. -/
theorem Source.exists_case {cond : Condition} (h : s.Source cond) (hcmp : cond.isComparison = true)
    {v : Value} {default : BlockId} {cases : List (Constant × BlockId)}
    (hop : s.program.op cond.origin = .ok (.switch v default cases)) :
    s.program.terminator? s.block = .ok (some cond.origin) ∧ ∃ checked k target,
      cond = .comparison checked .eq (.const k) cond.origin true ∧ (k, target) ∈ cases := by
  cases h with
  | @case last _ _ _ hlast hop' k target hk checked =>
    obtain ⟨-, -, rfl⟩ := Operation.switch.inj (Except.ok.inj (hop'.symm.trans hop))
    exact ⟨hlast, checked, k, target, rfl, hk⟩
  | fallback => cases hcmp
  | branch _ _ _ hflag | extension _ _ _ hflag => cases hflag.symm.trans hop

end CheckFinder

namespace Program

variable {p : Program}

/-- A condition of a function has its source in a block of the function. -/
theorem exists_source_of_mem_conditionsOf {mayAlias : AliasOracle} {f : FuncId}
    {found : List Condition} (h : p.conditionsOf mayAlias f = .ok found) {cond : Condition}
    (hcond : cond ∈ found) : ∃ function b, p.function f = .ok function ∧ b ∈ function.blocks ∧
      CheckFinder.Source ⟨p, mayAlias, b⟩ cond := by
  simp only [conditionsOf, bind_eq_ok_iff] at h
  obtain ⟨function, hf, founds, hfounds, h⟩ := h
  obtain ⟨here, hhere, hcond⟩ := List.mem_flatten.mp (of_mem_filterM h hcond).1
  obtain ⟨b, hb, hhere⟩ := exists_of_mem_mapM hfounds hhere
  exact ⟨function, b, hf, hb, CheckFinder.ensures_source.of_eq_ok hhere cond hcond⟩

/-! ## Anchoring -/

variable (p) in
/-- Whether the end of a block tests what a condition of a given origin says: it is this switch, or
it branches on this comparison. -/
def TestsAt (b : BlockId) (origin : InstId) : Prop :=
  (p.terminator? b = .ok (some origin) ∧
    ∃ v default cases, p.op origin = .ok (.switch v default cases)) ∨
  ∃ ifTrue ifFalse, p.terminatorOp? b = .ok (some (.branch (.inst origin) ifTrue ifFalse))

variable (p) in
/-- Whether a block branches on a comparison that is not in the block. -/
def BranchesFromAfar (b : BlockId) (origin : InstId) : Prop :=
  ∃ block ifTrue ifFalse, p.block b = .ok block ∧
    p.terminatorOp? b = .ok (some (.branch (.inst origin) ifTrue ifFalse)) ∧ origin ∉ block.insts

theorem terminatorOp?_of_terminator? {b : BlockId} {i : InstId} {op : Operation}
    (h : p.terminator? b = .ok (some i)) (hop : p.op i = .ok op) :
    p.terminatorOp? b = .ok (some op) := by
  rw [terminatorOp?, h, ok_bind]
  dsimp only
  rw [hop]
  rfl

/-- **Where a condition that decides a branch is anchored.** In a function without a defect, the
block that a comparison is found in ends by testing it. The block that the comparison is looked up
in is one of the function, and it is the same one, unless that block branches on a comparison from
elsewhere. -/
theorem branch_checks_anchored_iff {ds : List Directive} (hbuild : build ds = .ok p) {f : FuncId}
    (hdefect : p.defect? f = .ok none) {b : BlockId} (hb : p.InFunction f b)
    {mayAlias : AliasOracle} {found : List Condition}
    (h : p.conditionsOfBlock mayAlias b = .ok found) {lhs : CheckedValue} {pred : Predicate}
    {rhs : Value} {origin : InstId} (hcond : .comparison lhs pred rhs origin true ∈ found) :
    p.TestsAt b origin ∧ ∃ b', (Condition.comparison lhs pred rhs origin true).block p = .ok b' ∧
      p.InFunction f b' ∧ (b' = b ↔ ¬ p.BranchesFromAfar b origin) := by
  have howned := Arena.owned_of_edits (edits_of_build hbuild).1
  obtain ⟨block, hblock, hown⟩ := hb
  have hmem : ∀ b', p.blockOf origin = .ok b' → (b' = b ↔ origin ∈ block.insts) := by
    intro b' hb'
    rw [mem_insts_iff howned hblock, hb', Except.ok.injEq]
  cases CheckFinder.ensures_source.of_eq_ok h _ hcond with
  | case hlast hop hk =>
    have horigin := mem_insts_of_terminator? hblock hlast
    refine ⟨Or.inl ⟨hlast, _, _, _, hop⟩, b, (mem_insts_iff howned hblock).mp horigin,
      ⟨block, hblock, hown⟩, iff_of_true rfl ?_⟩
    rintro ⟨block', ifTrue, ifFalse, hblock', -, hafar⟩
    obtain rfl := Except.ok.inj (hblock.symm.trans hblock')
    exact hafar horigin
  | @branch _ i _ ifTrue ifFalse _ _ _ hblock' hi hop _ =>
    obtain rfl := Except.ok.inj (hblock.symm.trans hblock')
    have hbranch := terminatorOp?_of_terminator?
      (terminator?_of_isTerminator hbuild hdefect hblock hown hi hop rfl) hop
    -- the comparison is an operand of the branch, so it is in the same function
    obtain ⟨function, hf, -⟩ := bind_eq_ok_iff.mp hdefect
    have hb := (mem_blocks_iff howned hf).mpr ⟨block, hblock, hown⟩
    have hfunction := functionOf_of_instDefect? (instDefect?_of_defect? hdefect hf hb hblock hi) hop
      (List.mem_singleton_self _)
    obtain ⟨b', hb', hown'⟩ := functionOf_eq_ok_iff.mp hfunction
    refine ⟨Or.inr ⟨ifTrue, ifFalse, hbranch⟩, b', hb', hown', ?_⟩
    rw [hmem b' hb', ← not_iff_not, not_not]
    constructor
    · exact fun hafar => ⟨block, ifTrue, ifFalse, hblock, hbranch, hafar⟩
    · rintro ⟨block'', -, -, hblock'', -, hafar⟩
      obtain rfl := Except.ok.inj (hblock.symm.trans hblock'')
      exact hafar

/-- `user` checks `source` twice, and the second time it compares in one block and branches in the
next. -/
def hoistedFlag : List Directive :=
  [.module "m", .declare ⟨0⟩ "source" [] (.int 32), .declare ⟨0⟩ "user" [] (.int 32),
    .define ⟨1⟩ [.block, .block, .block, .block, .block, .block,
      .moveTo ⟨0⟩, .call ⟨0⟩ [], .cmp .slt (.inst ⟨0⟩) (.int 0 32), .branch (.inst ⟨1⟩) ⟨1⟩ ⟨2⟩,
      .moveTo ⟨1⟩, .ret (some (.int (-1) 32)),
      .moveTo ⟨2⟩, .call ⟨0⟩ [], .cmp .slt (.inst ⟨4⟩) (.int 0 32), .jump ⟨3⟩,
      .moveTo ⟨3⟩, .branch (.inst ⟨5⟩) ⟨4⟩ ⟨5⟩,
      .moveTo ⟨4⟩, .ret (some (.int (-1) 32)),
      .moveTo ⟨5⟩, .ret (some (.int 0 32))]]

/-- What is found at a block of `user`, and where it is looked up. -/
theorem hoistedFlag_found (b anchor : BlockId) (cond : Condition) (hrun : (do
      let p ← build hoistedFlag
      let defect? ← p.defect? ⟨1⟩
      let block ← p.block b
      let found ← p.conditionsOfBlock .basic b
      return (defect?.isNone, block.function, found, ← cond.block p)) =
      (.ok (true, ⟨1⟩, [cond], anchor) : Checked (Bool × FuncId × List Condition × BlockId))) :
    ∃ p, build hoistedFlag = .ok p ∧ p.defect? ⟨1⟩ = .ok none ∧ p.InFunction ⟨1⟩ b ∧
      p.conditionsOfBlock .basic b = .ok [cond] ∧ cond.block p = .ok anchor := by
  simp only [bind_eq_ok_iff] at hrun
  obtain ⟨p, hp, defect?, hdefect, block, hblock, found, hfound, b', hb, hrun⟩ := hrun
  simp only [pure_eq_ok, Except.ok.injEq, Prod.mk.injEq] at hrun
  obtain ⟨hnone, hown, rfl, rfl⟩ := hrun
  rw [Option.isNone_iff_eq_none.mp hnone] at hdefect
  exact ⟨p, hp, hdefect, ⟨block, hblock, hown⟩, hfound, hb⟩

/-- The first check compares where it branches, and is anchored there. -/
theorem hoistedFlag_first_anchored : ∃ p, build hoistedFlag = .ok p ∧ p.defect? ⟨1⟩ = .ok none ∧
    p.InFunction ⟨1⟩ ⟨0⟩ ∧
    let cond := Condition.comparison ⟨.inst ⟨0⟩, 0⟩ .slt (.int 0 32) ⟨1⟩ true
    p.conditionsOfBlock .basic ⟨0⟩ = .ok [cond] ∧ cond.block p = .ok ⟨0⟩ ∧
      p.TestsAt ⟨0⟩ ⟨1⟩ ∧ ¬ p.BranchesFromAfar ⟨0⟩ ⟨1⟩ := by
  obtain ⟨p, hp, hdefect, hin, hfound, hb⟩ :=
    hoistedFlag_found ⟨0⟩ ⟨0⟩ (.comparison ⟨.inst ⟨0⟩, 0⟩ .slt (.int 0 32) ⟨1⟩ true)
      (by decide +kernel)
  obtain ⟨htests, b', hb', -, hiff⟩ :=
    branch_checks_anchored_iff hp hdefect hin hfound List.mem_cons_self
  exact ⟨p, hp, hdefect, hin, hfound, hb, htests, hiff.mp (Except.ok.inj (hb'.symm.trans hb))⟩

/-- **A condition may be looked up in the wrong block.** The second check is anchored where it
compares, at a block that ends in a jump. So the block of its false side is not recognised, and the
values that are taken for those on the false side are the ones on the true side. -/
theorem hoistedFlag_misplaced : ∃ p, build hoistedFlag = .ok p ∧ p.defect? ⟨1⟩ = .ok none ∧
    p.InFunction ⟨1⟩ ⟨3⟩ ∧
    let cond := Condition.comparison ⟨.inst ⟨4⟩, 0⟩ .slt (.int 0 32) ⟨5⟩ true
    p.conditionsOfBlock .basic ⟨3⟩ = .ok [cond] ∧ cond.block p = .ok ⟨2⟩ ∧
      p.terminatorOp? ⟨3⟩ = .ok (some (.branch (.inst ⟨5⟩) ⟨4⟩ ⟨5⟩)) ∧
      p.errorValues? cond (.ofErrorBlock ⟨5⟩) =
        .ok (some (⟨⟨4⟩, 0⟩, RangeSet.full.narrow .slt 0)) := by
  obtain ⟨p, hp, hdefect, hin, hfound, hb⟩ :=
    hoistedFlag_found ⟨3⟩ ⟨2⟩ (.comparison ⟨.inst ⟨4⟩, 0⟩ .slt (.int 0 32) ⟨5⟩ true)
      (by decide +kernel)
  obtain ⟨p', hp', hlast, hvalues⟩ : ∃ p, build hoistedFlag = .ok p ∧
      p.terminatorOp? ⟨3⟩ = .ok (some (.branch (.inst ⟨5⟩) ⟨4⟩ ⟨5⟩)) ∧
      p.errorValues? (.comparison ⟨.inst ⟨4⟩, 0⟩ .slt (.int 0 32) ⟨5⟩ true) (.ofErrorBlock ⟨5⟩) =
        .ok (some (⟨⟨4⟩, 0⟩, RangeSet.full.narrow .slt 0)) := by
    decide +kernel
  obtain rfl := Except.ok.inj (hp.symm.trans hp')
  exact ⟨p, hp, hdefect, hin, hfound, hb, hlast, hvalues⟩

end Program

end ErrorReturns
