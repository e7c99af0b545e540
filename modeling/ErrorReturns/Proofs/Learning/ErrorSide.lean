import ErrorReturns.Proofs.Flow.Inside
import ErrorReturns.Proofs.Learning.Handlers
import Mathlib.Data.Set.Card

/-!
# The error side of a block

The successor on the error side is found by counting, for each successor, the calls to handlers in
the blocks that follow it without a choice. What is counted is a set of instructions
(`Program.handlerCallsAfter`). A chain is cut before it meets itself, and no instruction is in two
blocks, so that each call is counted once even where blocks loop
(`Program.countHandlerCalls_eq_ncard`).

The answer is the successor with more such calls than any other one, and none if there is no such
successor. It depends on the blocks that edges lead to, and not on how many edges lead there or in
which order they are listed (`Program.SameSides.errorSuccessor?_eq`).
-/

namespace ErrorReturns

open Checked

namespace Program

variable {p p' : Program} {g : CallGraph} {handlers : SortedSet FuncId} {b s : BlockId}

/-! ## Calls to handlers -/

variable (p g handlers) in
/-- **A call to a handler after a block**: it is in a block of the chain, and one of the functions
that it may reach is a handler. -/
structure CallsHandlerAfter (s : BlockId) (i : InstId) : Prop where
  onChain : ∃ b ∈ p.chainForward s, p.blockOf i = .ok b
  isCall : ∃ op, p.op i = .ok op ∧ op.isCall = true
  reaches : ∃ f ∈ g.calleeList i, f ∈ handlers

variable (p g handlers) in
/-- The calls to handlers after a block. -/
def handlerCallsAfter (s : BlockId) : Set InstId := {i | p.CallsHandlerAfter g handlers s i}

theorem finite_handlerCallsAfter (s : BlockId) : (p.handlerCallsAfter g handlers s).Finite := by
  refine ((Set.finite_lt_nat p.insts.size).image InstId.mk).subset fun i hi => ?_
  obtain ⟨op, hop, -⟩ := hi.isCall
  exact ⟨i.index, hasInst_of_op_eq_ok hop, rfl⟩

/-- Every call is counted, and counted once. -/
theorem ncard_of_countHandlerCalls (hp : p.toArena.Owned) {n : Nat}
    (h : p.countHandlerCalls g handlers (p.chainForward s) = .ok n) :
    (p.handlerCallsAfter g handlers s).ncard = n := by
  simp only [countHandlerCalls, bind_eq_ok_iff, pure_eq_ok, Except.ok.injEq] at h
  obtain ⟨lists, hlists, calls, hcalls, rfl⟩ := h
  have hnodup : calls.Nodup :=
    (nodup_flatten_insts hp (nodup_chainForward s) hlists).sublist (sublist_of_filterM hcalls)
  have hset : p.handlerCallsAfter g handlers s =
      (calls.filter fun i => (g.calleeList i).any (· ∈ handlers)).toFinset := by
    ext i
    rw [Finset.mem_coe, List.mem_toFinset, List.mem_filter, mem_filterM_op_iff hcalls,
      mem_flatten_insts_iff hp hlists, List.any_eq_true]
    constructor
    · rintro ⟨hchain, hkind, f, hf, hhandler⟩
      exact ⟨⟨hchain, hkind⟩, f, hf, decide_eq_true hhandler⟩
    · rintro ⟨⟨hchain, hkind⟩, f, hf, hhandler⟩
      exact ⟨hchain, hkind, f, hf, of_decide_eq_true hhandler⟩
  rw [hset, Set.ncard_coe_finset, List.toFinset_card_of_nodup (hnodup.filter _),
    List.countP_eq_length_filter]

namespace Inside

variable {F : Fault → Prop} (hp : p.Inside)
include hp

theorem meets_countHandlerCalls (g : CallGraph) (handlers : SortedSet FuncId)
    {blocks : List BlockId} (hblocks : p.HasBlocks blocks) :
    Meets F (fun _ => True) (p.countHandlerCalls g handlers blocks) := by
  refine (hp.meets_mapM_insts hblocks).bind fun is his => ?_
  exact (meets_filterM_op his Operation.isCall).map fun _ _ => trivial

/-- The successor that is found is a block of the program. -/
theorem meets_errorSuccessor? (g : CallGraph) (handlers : SortedSet FuncId) (b : BlockId) :
    Meets F (fun s? => ∀ s ∈ s?, p.HasBlock s) (p.errorSuccessor? g handlers b) := by
  have hcounts : Meets F (fun _ => True) (p.errorSuccessor? g handlers b) := by
    refine Meets.map (meets_mapM (Q := fun _ => True) fun s hs => ?_) fun _ _ => trivial
    have hblock := hp.successors_of b s (SortedSet.mem_ofList.mp hs)
    exact (hp.meets_countHandlerCalls g handlers
      (hp.hasBlocks_chainForward hblock)).map fun _ _ => trivial
  refine hcounts.and_eq.imp fun s? hfound s hs => ?_
  exact hp.successors_of b s ((errorSuccessor?_eq_some_iff hfound.2).mp hs).1

end Inside

/-- **Counting calls to handlers** gives the number of these calls. -/
theorem countHandlerCalls_eq_ncard (hp : p.Inside) (howned : p.toArena.Owned) (hs : p.HasBlock s) :
    p.countHandlerCalls g handlers (p.chainForward s) =
      .ok (p.handlerCallsAfter g handlers s).ncard := by
  obtain ⟨n, hn, -⟩ := Meets.exists_eq_ok
    (hp.meets_countHandlerCalls g handlers (hp.hasBlocks_chainForward hs))
  rw [hn, ncard_of_countHandlerCalls howned hn]

/-- The side with the most handlers, by numbers. -/
theorem handlesMost_iff (hp : p.Inside) (howned : p.toArena.Owned) :
    p.HandlesMost g handlers b s ↔
      s ∈ p.successors b ∧ 0 < (p.handlerCallsAfter g handlers s).ncard ∧
        ∀ t ∈ p.successors b, t ≠ s →
          (p.handlerCallsAfter g handlers t).ncard < (p.handlerCallsAfter g handlers s).ncard := by
  have hcount : ∀ t ∈ p.successors b, p.countHandlerCalls g handlers (p.chainForward t) =
      .ok (p.handlerCallsAfter g handlers t).ncard := fun t ht =>
    countHandlerCalls_eq_ncard hp howned (hp.successors_of b t ht)
  refine and_congr_right fun hs => ?_
  rw [hcount s hs]
  constructor
  · rintro ⟨n, hn, hpos, hmost⟩
    obtain rfl := Except.ok.inj hn
    refine ⟨hpos, fun t ht hne => ?_⟩
    obtain ⟨m, hm, hlt⟩ := hmost t ht hne
    rw [hcount t ht] at hm
    exact Except.ok.inj hm ▸ hlt
  · rintro ⟨hpos, hmost⟩
    exact ⟨_, rfl, hpos, fun t ht hne => ⟨_, hcount t ht, hmost t ht hne⟩⟩

/-! ## Order and number of edges -/

variable (p p') in
/-- **Programs with the same sides**: their blocks hold the same instructions, of which the same are
calls, and lead to the same blocks. The edges may be in another order, and several of them may lead
to one block. -/
structure SameSides : Prop where
  blocks : p'.blocks.map (·.insts) = p.blocks.map (·.insts)
  calls : p'.insts.map (·.op.isCall) = p.insts.map (·.op.isCall)
  successors : ∀ b s, s ∈ p'.successors b ↔ s ∈ p.successors b

theorem insts_eq_elim (p : Program) (b : BlockId) : (do return (← p.block b).insts) =
    ((p.blocks.map (·.insts))[b.index]?).elim (.error (.noBlock b)) .ok := by
  rw [Array.getElem?_map, Arena.block]
  cases p.blocks[b.index]? <;> rfl

theorem isCall_eq_elim (p : Program) (i : InstId) : (do return (← p.op i).isCall) =
    ((p.insts.map (·.op.isCall))[i.index]?).elim (.error (.noInst i)) .ok := by
  rw [Array.getElem?_map, Arena.op, Arena.inst]
  cases p.insts[i.index]? <;> rfl

namespace SameSides

variable (h : p.SameSides p')
include h

theorem uniqueSuccessor?_eq : p'.uniqueSuccessor? = p.uniqueSuccessor? :=
  funext fun b => onlyOne?_congr (h.successors b)

theorem chainForward_eq (b : BlockId) : p'.chainForward b = p.chainForward b := by
  have hsize : p'.blocks.size = p.blocks.size := by simpa using congrArg Array.size h.blocks
  rw [chainForward, chainForward, h.uniqueSuccessor?_eq, hsize]

theorem countHandlerCalls_eq (blocks : List BlockId) :
    p'.countHandlerCalls g handlers blocks = p.countHandlerCalls g handlers blocks := by
  simp only [countHandlerCalls, insts_eq_elim, isCall_eq_elim, h.blocks, h.calls]

/-- **Programs with the same sides have the same error side.** -/
theorem errorSuccessor?_eq (b : BlockId) :
    p'.errorSuccessor? g handlers b = p.errorSuccessor? g handlers b := by
  have hsuccessors : SortedSet.ofList (p'.successors b) = SortedSet.ofList (p.successors b) := by
    refine SortedSet.ext fun s => ?_
    rw [SortedSet.mem_ofList, SortedSet.mem_ofList, h.successors]
  simp only [errorSuccessor?, hsuccessors, h.chainForward_eq, h.countHandlerCalls_eq]

end SameSides

/-! ## The error side -/

/-- **The error side is the unique maximum.** In a program that was built the search for the
successor on the error side has an answer, for every call graph, all handlers and every block. It is
a successor after which there are calls to handlers, and more of them than after any other
successor. There is no such successor exactly if the answer is none. Every program with the same
sides gives the same answer. -/
theorem errorSuccessor?_exact {ds : List Directive} (hbuild : build ds = .ok p) (g : CallGraph)
    (handlers : SortedSet FuncId) (b : BlockId) :
    (∀ s, (p.handlerCallsAfter g handlers s).Finite) ∧
    ∃ s?, p.errorSuccessor? g handlers b = .ok s? ∧
      (∀ s, s? = some s ↔
        s ∈ p.successors b ∧ 0 < (p.handlerCallsAfter g handlers s).ncard ∧
          ∀ t ∈ p.successors b, t ≠ s →
            (p.handlerCallsAfter g handlers t).ncard < (p.handlerCallsAfter g handlers s).ncard) ∧
      ∀ p', p.SameSides p' → p'.errorSuccessor? g handlers b = .ok s? := by
  have hp := inside_of_build hbuild
  have howned : p.toArena.Owned := Arena.owned_of_edits (edits_of_build hbuild).1
  obtain ⟨s?, hs, -⟩ := Meets.exists_eq_ok (hp.meets_errorSuccessor? g handlers b)
  refine ⟨finite_handlerCallsAfter, s?, hs, fun s => ?_, fun p' hsame => ?_⟩
  · exact (errorSuccessor?_eq_some_iff hs).trans (handlesMost_iff hp howned)
  · exact (hsame.errorSuccessor?_eq b).trans hs

/-- `user` goes one of four ways. Two log once. The third logs, and then warns, over and over. The
last does neither. -/
def logging (cases : List (Int × BlockId)) : List Directive :=
  [.module "m", .declare ⟨0⟩ "source" [] (.int 32), .declare ⟨0⟩ "log" [] .void,
    .declare ⟨0⟩ "warn" [] .void, .declare ⟨0⟩ "user" [] .void,
    .define ⟨3⟩ [.block, .block, .block, .block, .block, .block,
      .moveTo ⟨0⟩, .call ⟨0⟩ [], .switch (.inst ⟨0⟩) ⟨5⟩ cases,
      .moveTo ⟨1⟩, .call ⟨1⟩ [], .ret none,
      .moveTo ⟨2⟩, .call ⟨1⟩ [], .ret none,
      .moveTo ⟨3⟩, .call ⟨1⟩ [], .jump ⟨4⟩,
      .moveTo ⟨4⟩, .call ⟨2⟩ [], .jump ⟨3⟩,
      .moveTo ⟨5⟩, .ret none]]

/-- One case for each way but the last. -/
def loggingCases : List (Int × BlockId) := [(0, ⟨1⟩), (1, ⟨2⟩), (2, ⟨3⟩)]

/-- Some ways have several cases, and the loop comes first. -/
def shuffledCases : List (Int × BlockId) := [(2, ⟨3⟩), (3, ⟨3⟩), (1, ⟨2⟩), (4, ⟨5⟩), (0, ⟨1⟩)]

/-- Shuffling the cases of the switch leaves the sides as they are. -/
theorem sameSides_logging : ∃ p p', build (logging loggingCases) = .ok p ∧
    build (logging shuffledCases) = .ok p' ∧ p.SameSides p' := by
  obtain ⟨p, hp, p', hp', hblocks, hcalls, hedges, hedges'⟩ :
      ∃ p, build (logging loggingCases) = .ok p ∧ ∃ p', build (logging shuffledCases) = .ok p' ∧
      p'.blocks.map (·.insts) = p.blocks.map (·.insts) ∧
      p'.insts.map (·.op.isCall) = p.insts.map (·.op.isCall) ∧
      p.successorsOf.toList = [[⟨5⟩, ⟨1⟩, ⟨2⟩, ⟨3⟩], [], [], [⟨4⟩], [⟨3⟩], []] ∧
      p'.successorsOf.toList = [[⟨5⟩, ⟨3⟩, ⟨3⟩, ⟨2⟩, ⟨5⟩, ⟨1⟩], [], [], [⟨4⟩], [⟨3⟩], []] := by
    decide +kernel
  refine ⟨p, p', hp, hp', hblocks, hcalls, fun b s => ?_⟩
  rw [successors, successors, ← Array.getElem?_toList, ← Array.getElem?_toList, hedges, hedges']
  obtain ⟨n⟩ := b
  cases n with
  | zero =>
    show s ∈ [⟨5⟩, ⟨3⟩, ⟨3⟩, ⟨2⟩, ⟨5⟩, ⟨1⟩] ↔ s ∈ [⟨5⟩, ⟨1⟩, ⟨2⟩, ⟨3⟩]
    simp only [List.mem_cons, List.not_mem_nil, or_false]
    tauto
  | succ n => rfl

/-- With `log` and `warn` as handlers the loop is the error side, although the two ways before it
are tied and the one after it has no calls. With `log` alone three ways are tied. Both are found by
the edges in either order. -/
theorem logging_error_side : ∃ p p' g, build (logging loggingCases) = .ok p ∧
    build (logging shuffledCases) = .ok p' ∧ p.SameSides p' ∧ CallGraph.ofDirectCalls p = .ok g ∧
    (0 < (p.handlerCallsAfter g (.ofList [⟨1⟩, ⟨2⟩]) ⟨3⟩).ncard ∧
      (∀ t ∈ p.successors ⟨0⟩, t ≠ ⟨3⟩ → (p.handlerCallsAfter g (.ofList [⟨1⟩, ⟨2⟩]) t).ncard <
        (p.handlerCallsAfter g (.ofList [⟨1⟩, ⟨2⟩]) ⟨3⟩).ncard) ∧
      p'.errorSuccessor? g (.ofList [⟨1⟩, ⟨2⟩]) ⟨0⟩ = .ok (some ⟨3⟩)) ∧
    p'.errorSuccessor? g (.ofList [⟨1⟩]) ⟨0⟩ = .ok none := by
  obtain ⟨p, p', hp, hp', hsame⟩ := sameSides_logging
  obtain ⟨q, hq, g, hg, hboth, hlog⟩ : ∃ p, build (logging loggingCases) = .ok p ∧
      ∃ g, CallGraph.ofDirectCalls p = .ok g ∧
      p.errorSuccessor? g (.ofList [⟨1⟩, ⟨2⟩]) ⟨0⟩ = .ok (some ⟨3⟩) ∧
      p.errorSuccessor? g (.ofList [⟨1⟩]) ⟨0⟩ = .ok none := by
    decide +kernel
  obtain rfl := Except.ok.inj (hp.symm.trans hq)
  refine ⟨p, p', g, hp, hp', hsame, hg, ?_, ?_⟩
  · obtain ⟨-, s?, hfound, hmost, hsides⟩ := errorSuccessor?_exact hp g (.ofList [⟨1⟩, ⟨2⟩]) ⟨0⟩
    obtain rfl := Except.ok.inj (hboth.symm.trans hfound)
    obtain ⟨-, hpos, hmore⟩ := (hmost ⟨3⟩).mp rfl
    exact ⟨hpos, hmore, hsides p' hsame⟩
  · obtain ⟨-, s?, hfound, -, hsides⟩ := errorSuccessor?_exact hp g (.ofList [⟨1⟩]) ⟨0⟩
    obtain rfl := Except.ok.inj (hlog.symm.trans hfound)
    exact hsides p' hsame

end Program

end ErrorReturns
