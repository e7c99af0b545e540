import ErrorReturns.Proofs.Program.Consistent
import ErrorReturns.Proofs.Trace.Decision
import ErrorReturns.Proofs.Trace.Inside

/-!
# What a load sees

A load sees the past of its slice: the instructions of the blocks that the execution has run through
before it comes to the load's block for the last time, and those that stand before the load in this
block (`Resolver.Past`). A block that the slice goes through twice is in the past once for each time
before the last. How the slice is written down makes no difference, since a past is in the order of
execution.

An address may have other names in the past (`Resolver.SamePlace`). A load is resolved like the
value of the latest store there under one of these names, and without such a store it is resolved by
its address alone (`Resolver.load_sees_latest_store`).

Both are statements about resolution as it is carried out, with a depth that is enough, although the
value of a store is one level closer to the end than the load: a resolution that ends is not changed
by more depth, and one that does not end uses up every depth (`Resolver.resolveSeeing_congr`).
-/

namespace ErrorReturns

open Checked

/-- Of the elements at two places of a list, one is the other or stands after it. -/
theorem eq_or_mem_of_append_cons_eq {α : Type} {before before' after after' : List α} {x y : α}
    (h : before ++ x :: after = before' ++ y :: after') : x = y ∨ y ∈ after ∨ x ∈ after' := by
  induction before generalizing before' with
  | nil =>
    cases before' with
    | nil => exact Or.inl (List.cons.inj h).1
    | cons z before' =>
      rw [(List.cons.inj h).2]
      exact Or.inr (Or.inl (List.mem_append_right before' List.mem_cons_self))
  | cons z before ih =>
    cases before' with
    | nil =>
      rw [← (List.cons.inj h).2]
      exact Or.inr (Or.inr (List.mem_append_right before List.mem_cons_self))
    | cons z' before' => exact ih (List.cons.inj h).2

/-! ## Slices in the order of execution -/

namespace Slice

variable {s : Slice} {b : BlockId} {blocks : List BlockId}

/-- The blocks of a slice in the order of execution. -/
def executed (s : Slice) : List BlockId := if s.backwards then s.blocks.reverse else s.blocks

/-- **What comes before a block**: the blocks that an execution runs through before it comes to the
block for the last time, and none if it never does. -/
def Before (s : Slice) (b : BlockId) (blocks : List BlockId) : Prop :=
  (∃ rest, s.executed = blocks ++ b :: rest ∧ b ∉ rest) ∨ b ∉ s.executed ∧ blocks = []

@[simp] theorem length_executed (s : Slice) : s.executed.length = s.length := by
  unfold executed
  split
  · exact List.length_reverse
  · rfl

@[simp] theorem mem_executed : b ∈ s.executed ↔ b ∈ s.blocks := by
  unfold executed
  split
  · exact List.mem_reverse
  · exact Iff.rfl

/-- Positions count in the order of execution. -/
theorem get?_eq_getElem?_executed (s : Slice) (n : Nat) : s.get? n = s.executed[n]? := by
  unfold get?
  split
  case isTrue hn =>
    unfold executed
    split
    · exact (List.getElem?_reverse hn).symm
    · rfl
  case isFalse hn =>
    exact (List.getElem?_eq_none (s.length_executed ▸ Nat.le_of_not_lt hn)).symm

theorem exists_before (s : Slice) (b : BlockId) : ∃ blocks, s.Before b blocks := by
  by_cases hb : b ∈ s.executed
  · -- the last place of the block is the first one from behind
    obtain ⟨rest, blocks, heq, hrest⟩ := List.eq_append_cons_of_mem (List.mem_reverse.mpr hb)
    refine ⟨blocks.reverse, Or.inl ⟨rest.reverse, ?_, fun hmem => hrest (List.mem_reverse.mp hmem)⟩⟩
    rw [← List.reverse_reverse s.executed, heq]
    simp
  · exact ⟨[], Or.inr ⟨hb, rfl⟩⟩

theorem Before.get_eq_ok (h : s.Before b blocks) {n : Nat} {c : BlockId}
    (hn : blocks[n]? = some c) :
    s.get n = .ok c := by
  rw [get_eq_ok_iff, get?_eq_getElem?_executed]
  obtain ⟨rest, heq, -⟩ | ⟨-, rfl⟩ := h
  · rw [heq, List.getElem?_append_left (List.getElem?_eq_some_iff.mp hn).1, hn]
  · cases hn

theorem Before.subset (h : s.Before b blocks) : blocks ⊆ s.blocks := by
  intro c hc
  rw [← mem_executed]
  obtain ⟨rest, heq, -⟩ | ⟨-, rfl⟩ := h
  · rw [heq]
    exact List.mem_append_left _ hc
  · cases hc

/-- Before a block are the positions up to its last one. -/
theorem Before.lastIndex?_getD (h : s.Before b blocks) :
    (s.lastIndex? b).getD 0 = blocks.length := by
  obtain ⟨rest, heq, hrest⟩ | ⟨hb, rfl⟩ := h
  · have hlast : s.IsLast b blocks.length := by
      refine ⟨?_, fun m hm hmem => hrest ?_⟩
      · rw [get?_eq_getElem?_executed, heq,
          List.getElem?_append_right (Nat.le_refl _), Nat.sub_self]
        rfl
      · rw [get?_eq_getElem?_executed, heq, List.getElem?_append_right (Nat.le_of_lt hm),
          List.getElem?_cons, if_neg (by omega)] at hmem
        exact List.mem_of_getElem? hmem
    rw [lastIndex?_eq_some_iff.mpr hlast]
    rfl
  · cases hlast : s.lastIndex? b with
    | none => rfl
    | some n =>
      have hn := (isLast_of_lastIndex? hlast).1
      rw [get?_eq_getElem?_executed] at hn
      exact absurd (List.mem_of_getElem? hn) hb

end Slice

/-! ## The past of an instruction -/

theorem Program.Consistent.nodup_insts {p : Program} (hp : p.Consistent)
    {b : BlockId} {block : Block}
    (hb : p.block b = .ok block) : block.insts.Nodup := by
  have hnodup : (p.blocks.toList.flatMap Block.insts).Nodup :=
    hp.insts_once.nodup_iff.mpr (List.nodup_range.map InstId.mk_injective)
  refine (List.nodup_flatMap.mp hnodup).1 block ?_
  exact Array.mem_toList_iff.mpr (Array.mem_of_getElem? (Arena.block_eq_ok_iff.mp hb))

namespace Resolver

variable (r : Resolver)

/-- The instructions that stand before an instruction in its block. -/
def StandBefore (i : InstId) (earlier : List InstId) : Prop :=
  ∃ home block later, r.program.blockOf i = .ok home ∧ r.program.block home = .ok block ∧
    block.insts = earlier ++ i :: later ∧ i ∉ earlier

/-- The instructions of the blocks that come before the block of an instruction. -/
def RunBefore (i : InstId) (run : List InstId) : Prop :=
  ∃ home blocks lists, r.program.blockOf i = .ok home ∧ r.slice.Before home blocks ∧
    (blocks.mapM fun b => return (← r.program.block b).insts) = .ok lists ∧ run = lists.flatten

/-- **The past of an instruction** on a slice, in the order of execution: the instructions of the
blocks before its own, and those before it in its own block. -/
def Past (i : InstId) (past : List InstId) : Prop :=
  ∃ run earlier, r.RunBefore i run ∧ r.StandBefore i earlier ∧ past = run ++ earlier

variable {r} {i : InstId} {past : List InstId}

/-- Looking back in the block goes through what stands before, latest first. -/
theorem StandBefore.earlierInBlock_eq (hp : r.program.Consistent) {earlier : List InstId}
    (h : r.StandBefore i earlier) : r.earlierInBlock i = .ok earlier.reverse := by
  obtain ⟨home, block, later, hhome, hblock, hinsts, -⟩ := h
  obtain ⟨x, hx, hxhome⟩ := bind_eq_ok_iff.mp hhome
  obtain ⟨block', n, hblock', hposition, hn⟩ := hp.inst_placed i x hx
  rw [Except.ok.inj hxhome, hblock] at hblock'
  obtain rfl := Except.ok.inj hblock'
  -- an instruction is in its block once, so that it stands where it is listed
  have hat : block.insts[earlier.length]? = some i := by
    rw [hinsts, List.getElem?_append_right (Nat.le_refl _), Nat.sub_self]
    rfl
  have hsame : earlier.length = n :=
    (List.getElem?_inj (List.getElem?_eq_some_iff.mp hat).1 (hp.nodup_insts hblock)).mp
      (hat.trans hn.symm)
  have hle : earlier.length ≤ block.insts.length :=
    Nat.le_of_lt (List.getElem?_eq_some_iff.mp hat).1
  rw [earlierInBlock, hhome, ok_bind, hblock, ok_bind, hposition, ok_bind, ← hsame,
    Block.before_eq_ok hle, hinsts, List.take_left]
  rfl

/-- Looking back along the slice goes through the blocks before, latest first. -/
theorem RunBefore.exists_positions {run : List InstId} (h : r.RunBefore i run) :
    ∃ ns lists, r.earlierPositions i = .ok ns ∧ ns.mapM r.instsAt = .ok lists ∧
      lists.flatten = run.reverse := by
  obtain ⟨home, blocks, lists, hhome, hbefore, hlists, rfl⟩ := h
  refine ⟨(List.range blocks.length).reverse, (lists.map List.reverse).reverse, ?_, ?_,
    List.reverse_flatten.symm⟩
  · rw [← hbefore.lastIndex?_getD, earlierPositions, hhome, ok_bind]
    cases r.slice.lastIndex? home <;> rfl
  · rw [mapM_eq_ok_iff, List.map_reverse, List.map_reverse]
    -- reading by position and reading the blocks themselves agree at each place of the list
    refine congrArg List.reverse (List.ext_getElem? fun n => ?_)
    have heq := congrArg (·[n]?) (mapM_eq_ok_iff.mp hlists)
    simp only [List.getElem?_map] at heq ⊢
    cases hn : blocks[n]? with
    | none =>
      rw [hn] at heq
      rw [List.getElem?_eq_none (by simpa using hn), Option.map_eq_none_iff.mp heq.symm]
      rfl
    | some c =>
      rw [hn] at heq
      obtain ⟨insts, hinsts, hc⟩ := Option.map_eq_some_iff.mp heq.symm
      obtain ⟨block, hblock, hpure⟩ := bind_eq_ok_iff.mp hc.symm
      obtain rfl := Except.ok.inj hpure
      rw [List.getElem?_range (List.getElem?_eq_some_iff.mp hn).1, hinsts, Option.map_some, instsAt,
        hbefore.get_eq_ok hn, ok_bind, hblock]
      rfl

theorem Past.before_eq (hp : r.program.Consistent) (h : r.Past i past) :
    r.before i = .ok past.reverse := by
  obtain ⟨run, earlier, hrun, hstand, rfl⟩ := h
  obtain ⟨ns, lists, hns, hlists, hflatten⟩ := hrun.exists_positions
  rw [before, hstand.earlierInBlock_eq hp, ok_bind, hns, ok_bind, hlists, ok_bind, hflatten,
    List.reverse_append]
  rfl

/-- **Looking back** for something is looking for it in the past, from behind. -/
theorem Past.findBack_eq {α : Type} (hp : r.program.Consistent) (h : r.Past i past)
    (visit : InstId → Checked (Option α)) : r.findBack i visit = past.reverse.findSomeM? visit := by
  obtain ⟨run, earlier, hrun, hstand, rfl⟩ := h
  obtain ⟨ns, lists, hns, hlists, hflatten⟩ := hrun.exists_positions
  rw [findBack, hstand.earlierInBlock_eq hp, ok_bind, List.reverse_append, findSomeM?_append]
  refine bind_congr fun found? => ?_
  cases found? with
  | some found => rfl
  | none =>
    dsimp only
    rw [hns, ok_bind, findSomeM?_flatten visit hlists, hflatten]
    rfl

/-- Every instruction of the program has a past on a slice of blocks of the program. -/
theorem exists_past (hp : r.program.Consistent) (hslice : r.program.HasBlocks r.slice.blocks)
    (hi : r.program.HasInst i) : ∃ past, r.Past i past := by
  obtain ⟨x, hx, -⟩ := (Program.meets_inst hi).exists_eq_ok
  obtain ⟨block, n, hblock, -, hn⟩ := hp.inst_placed i x hx
  have hhome : r.program.blockOf i = .ok x.block := by
    rw [Program.blockOf, hx]
    rfl
  obtain ⟨earlier, later, hinsts, hfirst⟩ := List.eq_append_cons_of_mem (List.mem_of_getElem? hn)
  obtain ⟨blocks, hbefore⟩ := r.slice.exists_before x.block
  have hexists : ∀ b ∈ blocks, ∃ insts,
      (do return (← r.program.block b).insts : Checked (List InstId)) = .ok insts := by
    intro b hb
    obtain ⟨block, hblock, -⟩ := (Program.meets_block (hslice b (hbefore.subset hb))).exists_eq_ok
    exact ⟨block.insts, by rw [hblock]; rfl⟩
  obtain ⟨lists, hlists, -⟩ := exists_mapM_eq_ok hexists
  exact ⟨_, lists.flatten, earlier, ⟨x.block, blocks, lists, hhome, hbefore, hlists, rfl⟩,
    ⟨x.block, block, later, hhome, hblock, hinsts, hfirst⟩, rfl⟩

/-! ## The place of an address -/

variable (r)

/-- **Other names of an address**: a load of the place that it was itself loaded from, or an address
that is computed at the same offset from another base which may be the same object. -/
inductive OtherName (ptr : Value) (j : InstId) : Prop
  | loaded {inner : Value} (hptr : r.program.opOf? ptr = .ok (some (.load inner)))
      (hj : r.program.op j = .ok (.load inner))
  | computed {from₁ from₂ base base' : Value} {step₁ step₂ : Option Int} {offset : Int}
      (hptr : r.program.opOf? ptr = .ok (some (.gep from₁ step₁)))
      (hj : r.program.op j = .ok (.gep from₂ step₂))
      (hbase : r.program.stripOffsets ptr = .ok (base, offset))
      (hbase' : r.program.stripOffsets (.inst j) = .ok (base', offset)) (hne : base' ≠ base)
      (halias : r.mayAlias r.program base base' = .ok true)

/-- **The names of the place** that an address is of: itself, and its other names in the past. -/
def SamePlace (past : List InstId) (ptr v : Value) : Prop :=
  v = ptr ∨ ∃ j ∈ past, v = .inst j ∧ r.OtherName ptr j

/-- An instruction stores a value in the place of an address. -/
def Stores (past : List InstId) (ptr : Value) (i : InstId) (v : Value) : Prop :=
  ∃ target, r.program.op i = .ok (.store target v) ∧ r.SamePlace past ptr target

/-- **The latest value** that the past has stored in the place of an address. -/
def LastStored (past : List InstId) (ptr v : Value) : Prop :=
  ∃ earlier i later, past = earlier ++ i :: later ∧ r.Stores past ptr i v ∧
    ∀ j ∈ later, ∀ w, ¬ r.Stores past ptr j w

variable {r} {ptr : Value}

/-- A computed address is another name if it is at the same offset from another base that may be the
same object. -/
theorem isGepAlias_eq_true_iff {from₁ base : Value} {step₁ : Option Int} {offset : Int}
    (hptr : r.program.opOf? ptr = .ok (some (.gep from₁ step₁)))
    (hbase : r.program.stripOffsets ptr = .ok (base, offset)) {j : InstId} :
    r.isGepAlias base offset j = .ok true ↔ r.OtherName ptr j := by
  constructor
  · intro h
    obtain ⟨op, hop, h⟩ := bind_eq_ok_iff.mp h
    split at h
    case h_1 from₂ step₂ =>
      obtain ⟨⟨base', offset'⟩, hbase', hanswer⟩ := bind_eq_ok_iff.mp h
      dsimp only at hanswer
      split at hanswer
      case isTrue hsame => exact .computed hptr hop hbase (hsame.1 ▸ hbase') hsame.2 hanswer
      case isFalse => cases hanswer
    case h_2 => cases h
  · rintro (⟨hptr', -⟩ | ⟨hptr', hj, hbase₁, hbase', hne, halias⟩)
    · rw [hptr] at hptr'
      cases hptr'
    · obtain ⟨rfl, rfl⟩ := Prod.mk.inj (Except.ok.inj (hbase.symm.trans hbase₁))
      rw [isGepAlias, hj, ok_bind]
      dsimp only
      rw [hbase', ok_bind]
      dsimp only
      rw [if_pos ⟨rfl, hne⟩, halias]

/-- An address that was loaded has other names in the other loads from there. -/
theorem isLoad_eq_true_iff {inner : Value} (hptr : r.program.opOf? ptr = .ok (some (.load inner)))
    {j : InstId} : (do return (← r.program.op j) == .load inner : Checked Bool) = .ok true ↔
      r.OtherName ptr j := by
  constructor
  · intro h
    obtain ⟨op, hop, h⟩ := bind_eq_ok_iff.mp h
    exact .loaded hptr (eq_of_beq (Except.ok.inj h) ▸ hop)
  · rintro (⟨hptr', hj⟩ | ⟨hptr', -⟩)
    · rw [hptr] at hptr'
      cases hptr'
      rw [hj, ok_bind, beq_self_eq_true]
      rfl
    · rw [hptr] at hptr'
      cases hptr'

/-- **The addresses that stand for a load's address** are the names of its place. -/
theorem mem_addressesOf {load : InstId} (hbefore : r.before load = .ok past.reverse)
    {addresses : List Value} (h : r.addressesOf load ptr = .ok addresses) {v : Value} :
    v ∈ addresses ↔ r.SamePlace past ptr v := by
  -- the two ways to find other names filter the same instructions by different tests
  have hnames : ∀ {test : InstId → Checked Bool} {others : List InstId},
      past.reverse.filterM test = .ok others →
      (∀ j, test j = .ok true ↔ r.OtherName ptr j) →
      (v ∈ ptr :: others.map .inst ↔ r.SamePlace past ptr v) := by
    intro test others hothers htest
    have hmem : ∀ j, j ∈ others ↔ j ∈ past ∧ r.OtherName ptr j := by
      intro j
      rw [← htest]
      refine ⟨fun hj => (of_mem_filterM hothers hj).imp_left List.mem_reverse.mp, fun hj => ?_⟩
      exact mem_filterM hothers (List.mem_reverse.mpr hj.1) hj.2
    rw [List.mem_cons, List.mem_map]
    refine or_congr_right (exists_congr fun j => ?_)
    rw [hmem, and_assoc, and_comm (b := Value.inst j = v), eq_comm]
  obtain ⟨op?, hop, h⟩ := bind_eq_ok_iff.mp h
  split at h
  case h_1 inner =>
    rw [hbefore, ok_bind] at h
    obtain ⟨others, hothers, h⟩ := bind_eq_ok_iff.mp h
    rw [← Except.ok.inj h]
    exact hnames hothers fun j => isLoad_eq_true_iff hop
  case h_2 =>
    obtain ⟨⟨base, offset⟩, hbase, h⟩ := bind_eq_ok_iff.mp h
    dsimp only at h
    rw [hbefore, ok_bind] at h
    obtain ⟨others, hothers, h⟩ := bind_eq_ok_iff.mp h
    rw [← Except.ok.inj h]
    exact hnames hothers fun j => isGepAlias_eq_true_iff hop hbase
  case h_3 hload hgep =>
    rw [← Except.ok.inj h, List.mem_singleton]
    refine (or_iff_left ?_).symm
    rintro ⟨j, -, -, hj⟩
    cases hj with
    | loaded hptr => exact hload _ (Except.ok.inj (hop.symm.trans hptr))
    | computed hptr => exact hgep _ _ (Except.ok.inj (hop.symm.trans hptr))

/-! ## The latest store -/

theorem Stores.unique {v w : Value} (hv : r.Stores past ptr i v) (hw : r.Stores past ptr i w) :
    v = w := by
  obtain ⟨_, hv, -⟩ := hv
  obtain ⟨_, hw, -⟩ := hw
  exact (Operation.store.inj (Except.ok.inj (hv.symm.trans hw))).2

theorem LastStored.exists_stores {v : Value} (h : r.LastStored past ptr v) :
    ∃ i ∈ past, r.Stores past ptr i v := by
  obtain ⟨earlier, i, later, rfl, hi, -⟩ := h
  exact ⟨i, List.mem_append_right _ List.mem_cons_self, hi⟩

theorem LastStored.unique {v w : Value} (hv : r.LastStored past ptr v)
    (hw : r.LastStored past ptr w) : v = w := by
  obtain ⟨earlier, i, later, heq, hi, hlater⟩ := hv
  obtain ⟨earlier', j, later', heq', hj, hlater'⟩ := hw
  rcases eq_or_mem_of_append_cons_eq (heq.symm.trans heq') with rfl | hmem | hmem
  · exact hi.unique hj
  · exact absurd hj (hlater j hmem w)
  · exact absurd hi (hlater' i hmem v)

/-- Looking for a store from behind finds the latest one. -/
theorem of_findSomeM?_reverse {visit : InstId → Checked (Option Value)}
    (hvisit : ∀ i found?, visit i = .ok found? → ∀ v, found? = some v ↔ r.Stores past ptr i v)
    {stored? : Option Value} (h : past.reverse.findSomeM? visit = .ok stored?) :
    (∀ v ∈ stored?, r.LastStored past ptr v) ∧
      (stored? = none → ∀ i ∈ past, ∀ v, ¬ r.Stores past ptr i v) := by
  have hnothing : ∀ {i}, visit i = .ok none → ∀ v, ¬ r.Stores past ptr i v := fun hi v hv => by
    cases (hvisit _ _ hi v).mpr hv
  cases stored? with
  | none =>
    refine ⟨nofun, fun _ i hi => ?_⟩
    exact hnothing (eq_none_of_findSomeM? h (List.mem_reverse.mpr hi))
  | some v =>
    refine ⟨fun w hw => ?_, nofun⟩
    obtain rfl := Option.some.inj hw
    obtain ⟨later, i, earlier, heq, hi, hlater⟩ := exists_split_of_findSomeM? h
    refine ⟨earlier.reverse, i, later.reverse, ?_, (hvisit i _ hi v).mp rfl, fun j hj => ?_⟩
    · rw [← List.reverse_reverse past, heq]
      simp
    · exact hnothing (hlater j (List.mem_reverse.mp hj))

/-- **The value of the nearest store** is the latest one in the past. -/
theorem Past.of_storedValue? (hp : r.program.Consistent) (h : r.Past i past)
    {stored? : Option Value}
    (hstored : r.storedValue? i ptr = .ok stored?) :
    (∀ v ∈ stored?, r.LastStored past ptr v) ∧
      (stored? = none → ∀ j ∈ past, ∀ v, ¬ r.Stores past ptr j v) := by
  obtain ⟨addresses, haddresses, hstored⟩ := bind_eq_ok_iff.mp hstored
  rw [h.findBack_eq hp] at hstored
  have hmem : ∀ v, v ∈ addresses ↔ r.SamePlace past ptr v := fun v =>
    mem_addressesOf (h.before_eq hp) haddresses
  refine of_findSomeM?_reverse (fun j found? hfound v => ?_) hstored
  obtain ⟨op, hop, hfound⟩ := bind_eq_ok_iff.mp hfound
  split at hfound
  case h_1 target value =>
    rw [← Except.ok.inj hfound, Option.ite_none_right_eq_some, hmem]
    constructor
    · rintro ⟨hplace, hv⟩
      obtain rfl := Option.some.inj hv
      exact ⟨target, hop, hplace⟩
    · rintro ⟨target', hop', hplace⟩
      obtain ⟨rfl, rfl⟩ := Operation.store.inj (Except.ok.inj (hop.symm.trans hop'))
      exact ⟨hplace, rfl⟩
  case h_2 hstore =>
    rw [← Except.ok.inj hfound]
    refine iff_of_false nofun ?_
    rintro ⟨target, hop', -⟩
    exact hstore _ _ (Except.ok.inj (hop.symm.trans hop'))

/-! ## Resolving a load -/

/-- **A value that is resolved like another one**, one level further down, is resolved like it with
the depth that is enough. -/
theorem resolveSeeing_congr (hr : r.mayAlias.Shallow) {v w : Value} {seen : List Value}
    (h : ∀ depth, r.resolve (depth + 1) v seen = r.resolve depth w seen) :
    r.resolveSeeing v seen = r.resolveSeeing w seen := by
  by_cases hdeep : r.resolveSeeing v seen = .error .tooDeep
  · rw [hdeep, resolveSeeing, ← h, resolve_eq_tooDeep_of_resolveSeeing hr hdeep]
  · -- the depth is enough already, and one level more changes nothing
    have hmore : r.resolve (r.enoughDepth + 1) v seen = r.resolve r.enoughDepth v seen := by
      rw [resolveSeeing, resolve_eq_eval] at hdeep
      rw [resolve_eq_eval, resolve_eq_eval]
      exact Plan.eval_eq_of_le (Nat.le_succ _) hdeep
    rw [resolveSeeing, resolveSeeing, ← h, hmore]

variable {load : InstId}

theorem resolve_load_of_stored (hop : r.program.op load = .ok (.load ptr)) {v : Value}
    (hstored : r.storedValue? load ptr = .ok (some v)) (depth : Nat) (seen : List Value) :
    r.resolve (depth + 1) (.inst load) seen = r.resolve depth v seen := by
  simp only [resolve, step, liftM, monadLift_self, hop, ok_bind, hstored]

/-- If nothing was stored, a load from a loaded address is resolved like that address, one from a
computed address to the address, and any other to nothing. -/
theorem resolve_load_of_nothing_stored (hop : r.program.op load = .ok (.load ptr))
    (hstored : r.storedValue? load ptr = .ok none) {op? : Option Operation}
    (hptr : r.program.opOf? ptr = .ok op?) (depth : Nat) (seen : List Value) :
    (∀ inner, op? = some (.load inner) →
      r.resolve (depth + 1) (.inst load) seen = r.resolve depth ptr seen) ∧
    (∀ base step, op? = some (.gep base step) →
      r.resolve (depth + 1) (.inst load) seen = .ok (some ptr, seen)) ∧
    ((∀ inner, op? ≠ some (.load inner)) → (∀ base step, op? ≠ some (.gep base step)) →
      r.resolve (depth + 1) (.inst load) seen = .ok (none, seen)) := by
  simp only [resolve, step, liftM, monadLift_self, hop, ok_bind, hstored, hptr]
  refine ⟨?_, ?_, fun hload hgep => ?_⟩
  · rintro inner rfl
    rfl
  · rintro base step rfl
    rfl
  · split
    case h_1 inner => exact absurd rfl (hload inner)
    case h_2 base step => exact absurd rfl (hgep base step)
    case h_3 => rfl

/-- **What a load sees.** Take a load of a program along any slice of its blocks, written down
forwards or backwards, with an oracle that answers. It has a past, in which there is a latest store
to the place of its address, or none at all. Whatever has been seen before, the load is resolved
like the value of the latest store. If there is none, it is resolved like its address if this was
itself loaded; it is resolved to its address if this was computed; and otherwise it has no
resolution. -/
theorem load_sees_latest_store {ds : List Directive} (hbuild : Program.build ds = .ok r.program)
    (hslice : r.program.HasBlocks r.slice.blocks) (halias : r.mayAlias.Answers r.program)
    (hshallow : r.mayAlias.Shallow) (hop : r.program.op load = .ok (.load ptr)) :
    ∃ past, r.Past load past ∧
      ((∃ v, r.LastStored past ptr v) ∨ ∀ i ∈ past, ∀ v, ¬ r.Stores past ptr i v) ∧
      ∀ seen,
        (∀ v, r.LastStored past ptr v →
          r.resolveSeeing (.inst load) seen = r.resolveSeeing v seen) ∧
        ((∀ i ∈ past, ∀ v, ¬ r.Stores past ptr i v) →
          (∀ inner, r.program.opOf? ptr = .ok (some (.load inner)) →
            r.resolveSeeing (.inst load) seen = r.resolveSeeing ptr seen) ∧
          (∀ base step, r.program.opOf? ptr = .ok (some (.gep base step)) →
            r.resolveSeeing (.inst load) seen = .ok (some ptr, seen)) ∧
          ((∀ inner, r.program.opOf? ptr ≠ .ok (some (.load inner))) →
            (∀ base step, r.program.opOf? ptr ≠ .ok (some (.gep base step))) →
            r.resolveSeeing (.inst load) seen = .ok (none, seen))) := by
  have hinside := Program.inside_of_build hbuild
  have hp := Program.consistent_of_build hbuild
  have hload : r.program.HasInst load := Program.hasInst_of_op_eq_ok hop
  have hperforms : r.program.Performs (.load ptr) :=
    (Program.meets_op (F := fun _ => False) hload).of_eq_ok hop
  have hhas : r.program.Has ptr := hinside.has hperforms List.mem_cons_self
  obtain ⟨past, hpast⟩ := exists_past hp hslice hload
  obtain ⟨stored?, hstored, -⟩ :=
    (meets_storedValue? (F := fun _ => False) hinside hslice halias hload hhas).exists_eq_ok
  obtain ⟨op?, hptr, -⟩ := (Program.meets_opOf? (F := fun _ => False) hhas).exists_eq_ok
  obtain ⟨hlast, hnothing⟩ := hpast.of_storedValue? hp hstored
  -- at most one value is the last stored, so the search and the statement speak of the same one
  cases stored? with
  | some stored =>
    have hstored' := hlast stored rfl
    refine ⟨past, hpast, Or.inl ⟨stored, hstored'⟩, fun seen => ⟨fun v hv => ?_, fun hnone => ?_⟩⟩
    · obtain rfl := hv.unique hstored'
      exact resolveSeeing_congr hshallow fun depth => resolve_load_of_stored hop hstored depth seen
    · obtain ⟨i, hi, hstores⟩ := hstored'.exists_stores
      exact absurd hstores (hnone i hi stored)
  | none =>
    have hnone := hnothing rfl
    refine ⟨past, hpast, Or.inr hnone, fun seen => ⟨fun v hv => ?_, fun _ => ?_⟩⟩
    · obtain ⟨i, hi, hstores⟩ := hv.exists_stores
      exact absurd hstores (hnone i hi v)
    · simp only [hptr, Except.ok.injEq, ne_eq]
      have hresolve := fun depth => resolve_load_of_nothing_stored hop hstored hptr depth seen
      refine ⟨fun inner hinner => ?_, (hresolve _).2.1, (hresolve _).2.2⟩
      exact resolveSeeing_congr hshallow fun depth => (hresolve depth).1 inner hinner

/-- `f` stores through its first argument, and in a loop it loads through its second one before it
stores through the first again. -/
def twoArguments : List Directive :=
  [.module "m", .declare ⟨0⟩ "f" [.ptr, .ptr] .void,
    .define ⟨0⟩ [.block, .block, .block,
      .moveTo ⟨0⟩, .gep (.arg ⟨0⟩ 0) (some 8), .store (.inst ⟨0⟩) (.int 1 32), .jump ⟨1⟩,
      .moveTo ⟨1⟩, .gep (.arg ⟨0⟩ 1) (some 8), .load (.inst ⟨3⟩) (.int 32),
      .store (.inst ⟨0⟩) (.int 2 32), .branch .undef ⟨1⟩ ⟨2⟩,
      .moveTo ⟨2⟩, .ret none]]

/-- Twice around the loop, written down backwards, the load sees the store that stands after it, of
the time before: the two addresses may be the same. -/
theorem twoArguments_load_sees_store : ∃ p past, Program.build twoArguments = .ok p ∧
    past = [⟨0⟩, ⟨1⟩, ⟨2⟩, ⟨3⟩, ⟨4⟩, ⟨5⟩, ⟨6⟩, ⟨3⟩] ∧
    Past ⟨p, .basic, .backward [⟨1⟩, ⟨1⟩, ⟨0⟩]⟩ ⟨4⟩ past ∧
    LastStored ⟨p, .basic, .backward [⟨1⟩, ⟨1⟩, ⟨0⟩]⟩ past (.inst ⟨3⟩) (.int 2 32) ∧
    ∀ seen, resolveSeeing ⟨p, .basic, .backward [⟨1⟩, ⟨1⟩, ⟨0⟩]⟩ (.inst ⟨4⟩) seen =
      .ok (some (.int 2 32), seen) := by
  obtain ⟨p, hbuild, hblocks, hbefore, hbase₀, hbase₃, hsame⟩ :
      ∃ p, Program.build twoArguments = .ok p ∧ p.blocks.size = 3 ∧
      before ⟨p, .basic, .backward [⟨1⟩, ⟨1⟩, ⟨0⟩]⟩ ⟨4⟩ =
        .ok [⟨3⟩, ⟨6⟩, ⟨5⟩, ⟨4⟩, ⟨3⟩, ⟨2⟩, ⟨1⟩, ⟨0⟩] ∧
      p.stripOffsets (.inst ⟨0⟩) = .ok (.arg ⟨0⟩ 0, 8) ∧
      p.stripOffsets (.inst ⟨3⟩) = .ok (.arg ⟨0⟩ 1, 8) ∧
      AliasOracle.basic p (.arg ⟨0⟩ 1) (.arg ⟨0⟩ 0) = .ok true := by
    decide +kernel
  obtain ⟨p', hbuild', hop₀, hop₃, hop₄, hop₅, hop₆⟩ :
      ∃ p, Program.build twoArguments = .ok p ∧ p.op ⟨0⟩ = .ok (.gep (.arg ⟨0⟩ 0) (some 8)) ∧
        p.op ⟨3⟩ = .ok (.gep (.arg ⟨0⟩ 1) (some 8)) ∧ p.op ⟨4⟩ = .ok (.load (.inst ⟨3⟩)) ∧
        p.op ⟨5⟩ = .ok (.store (.inst ⟨0⟩) (.int 2 32)) ∧
        p.op ⟨6⟩ = .ok (.branch .undef ⟨1⟩ ⟨2⟩) :=
    ⟨_, rfl, rfl, rfl, rfl, rfl, rfl⟩
  obtain rfl := Except.ok.inj (hbuild.symm.trans hbuild')
  have hslice : p.HasBlocks [⟨1⟩, ⟨1⟩, ⟨0⟩] := by
    simp [Program.HasBlocks, Program.HasBlock, hblocks]
  obtain ⟨past, hpast, -, hsees⟩ := load_sees_latest_store
    (r := ⟨p, .basic, .backward [⟨1⟩, ⟨1⟩, ⟨0⟩]⟩) hbuild hslice
    (AliasOracle.answers_basic (Program.inside_of_build hbuild)) AliasOracle.shallow_basic hop₄
  have hreverse := Except.ok.inj (hbefore.symm.trans
    (hpast.before_eq (Program.consistent_of_build hbuild)))
  have hlist : past = [⟨0⟩, ⟨1⟩, ⟨2⟩, ⟨3⟩, ⟨4⟩, ⟨5⟩, ⟨6⟩, ⟨3⟩] :=
    List.reverse_eq_iff.mp hreverse.symm
  have hlast : LastStored ⟨p, .basic, .backward [⟨1⟩, ⟨1⟩, ⟨0⟩]⟩ past (.inst ⟨3⟩) (.int 2 32) := by
    have hplace :
        SamePlace ⟨p, .basic, .backward [⟨1⟩, ⟨1⟩, ⟨0⟩]⟩ past (.inst ⟨3⟩) (.inst ⟨0⟩) := by
      refine Or.inr ⟨⟨0⟩, by simp [hlist], rfl, ?_⟩
      have hptr : p.opOf? (.inst ⟨3⟩) = .ok (some (.gep (.arg ⟨0⟩ 1) (some 8))) := by
        rw [Arena.opOf?, hop₃]
        rfl
      exact .computed hptr hop₀ hbase₃ hbase₀ (by decide) hsame
    refine ⟨[⟨0⟩, ⟨1⟩, ⟨2⟩, ⟨3⟩, ⟨4⟩], ⟨5⟩, [⟨6⟩, ⟨3⟩], hlist, ⟨.inst ⟨0⟩, hop₅, hplace⟩, ?_⟩
    simp [Stores, hop₆, hop₃]
  refine ⟨p, past, hbuild, hlist, hpast, hlast, fun seen => ?_⟩
  rw [(hsees seen).1 _ hlast]
  rfl

end Resolver

end ErrorReturns
