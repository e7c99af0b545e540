import ErrorReturns.Proofs.Flow.Inside
import ErrorReturns.Proofs.Table.Keys
import ErrorReturns.Proofs.Table.Lookup
import ErrorReturns.Proofs.Trace.Termination

/-!
# Resolutions stay in the program

Along a slice of blocks of the program, a value of the program is resolved to a value of the
program: what is looked up on the way is an instruction of a block of the slice or an operand of
one, and positions are taken from the slice itself, before the last place of some block, so that
there is always a next one. The only fault that can be met is that the depth is used up. It is used
up only by a resolution that uses up every depth (`Resolver.resolve_eq_tooDeep_of_resolveSeeing`),
which is to say by one that never ends.
-/

namespace ErrorReturns

open Checked

/-- A fold that keeps the best element so far ends with one that it was offered. -/
theorem mem_foldl_best {α : Type} {pick : Option α → α → Option α}
    (hpick : ∀ best x, ∀ y ∈ pick best x, y = x ∨ y ∈ best) {l : List α} {best : Option α} :
    ∀ y ∈ l.foldl pick best, y ∈ l ∨ y ∈ best := by
  induction l generalizing best with
  | nil => exact fun y hy => Or.inr hy
  | cons x rest ih =>
    intro y hy
    rcases ih y hy with hrest | hbest
    · exact Or.inl (List.mem_cons_of_mem x hrest)
    · refine (hpick best x y hbest).imp_left fun heq => ?_
      rw [heq]
      exact List.mem_cons_self

/-! ## Positions on a slice -/

namespace Slice

variable {s : Slice} {F : Fault → Prop}

/-- What holds of all blocks of a slice holds of the one at a place. -/
theorem meets_get {P : BlockId → Prop} (h : ∀ b ∈ s.blocks, P b) {n : Nat} (hn : n < s.length) :
    Meets F P (s.get n) := by
  have hlt : (if s.backwards then s.length - 1 - n else n) < s.blocks.length := by
    unfold length at hn ⊢
    split <;> omega
  have hget : s.get? n = some s.blocks[if s.backwards then s.length - 1 - n else n] := by
    rw [get?, if_pos hn, List.getElem?_eq_getElem hlt]
  rw [get, hget]
  exact meets_ok (h _ (List.getElem_mem hlt))

theorem lt_of_lastIndex? {b : BlockId} {n : Nat} (h : s.lastIndex? b = some n) : n < s.length :=
  List.mem_range.mp (List.mem_reverse.mp (List.mem_of_find?_eq_some h))

end Slice

namespace Resolver

variable {r : Resolver}

/-- A depth that is not enough is never enough. -/
theorem resolve_eq_tooDeep_of_resolveSeeing (hr : r.mayAlias.Shallow) {v : Value}
    {seen : List Value} (h : r.resolveSeeing v seen = .error .tooDeep) (depth : Nat) :
    r.resolve depth v seen = .error .tooDeep := by
  -- an end at any depth rules out cycles, and without cycles the depth provided is enough
  by_contra hends
  rw [resolve_eq_eval] at hends
  have hacc := Plan.acc_calls_of_eval_ne_tooDeep hends
  exact resolveSeeing_ne_tooDeep_of_acyclic hr
    (fun c hreach => Plan.not_transGen_calls_of_acc hacc hreach) h

/-! ## Looking back -/

section Inside

variable {F : Fault → Prop} (hp : r.program.Inside) (hslice : r.program.HasBlocks r.slice.blocks)
include hp

theorem meets_earlierInBlock {origin : InstId} (h : r.program.HasInst origin) :
    Meets F (fun is => ∀ i ∈ is, r.program.HasInst i) (r.earlierInBlock origin) := by
  refine (hp.meets_blockOf h).and_eq.bind fun b ⟨hb, hhome⟩ => ?_
  refine (Program.meets_block hb).and_eq.bind fun x ⟨hx, hblock⟩ => ?_
  refine (hp.meets_position h).bind fun n hn => ?_
  rw [Block.before_eq_ok (Nat.le_of_lt (hn b x hhome hblock))]
  exact meets_pure fun i hi => hp.insts_of x hx i (List.mem_of_mem_take (List.mem_reverse.mp hi))

/-- After each of these positions there is another one. -/
theorem meets_earlierPositions {origin : InstId} (h : r.program.HasInst origin) :
    Meets F (fun ns => ∀ n ∈ ns, n + 1 < r.slice.length) (r.earlierPositions origin) := by
  refine (hp.meets_blockOf h).bind fun b _ => ?_
  split
  case h_1 last hlast =>
    refine meets_pure fun n hn => ?_
    have hn := List.mem_range.mp (List.mem_reverse.mp hn)
    have hlast := Slice.lt_of_lastIndex? hlast
    omega
  case h_2 => exact meets_nil

include hslice

theorem meets_instsAt {n : Nat} (hn : n < r.slice.length) :
    Meets F (fun is => ∀ i ∈ is, r.program.HasInst i) (r.instsAt n) := by
  refine (Slice.meets_get hslice hn).bind fun b hb => ?_
  refine (Program.meets_block hb).map fun x hx i hi => ?_
  exact hp.insts_of x hx i (List.mem_reverse.mp hi)

/-- A search in the past has a result if every visit has one. -/
theorem meets_findBack {α : Type} {Q : α → Prop} {origin : InstId} (h : r.program.HasInst origin)
    {visit : InstId → Checked (Option α)}
    (hvisit : ∀ i, r.program.HasInst i → Meets F (fun x? => ∀ x ∈ x?, Q x) (visit i)) :
    Meets F (fun x? => ∀ x ∈ x?, Q x) (r.findBack origin visit) := by
  refine (meets_earlierInBlock hp h).bind fun is his => ?_
  refine (meets_findSomeM? fun i hi => hvisit i (his i hi)).bind fun found? hfound => ?_
  cases found? with
  | some found => exact meets_pure hfound
  | none =>
    refine (meets_earlierPositions hp h).bind fun ns hns => meets_findSomeM? fun n hn => ?_
    refine (meets_instsAt hp hslice (Nat.lt_of_succ_lt (hns n hn))).bind fun is his => ?_
    exact meets_findSomeM? fun i hi => hvisit i (his i hi)

theorem meets_before {origin : InstId} (h : r.program.HasInst origin) :
    Meets F (fun is => ∀ i ∈ is, r.program.HasInst i) (r.before origin) := by
  refine (meets_earlierInBlock hp h).bind fun is his => ?_
  refine (meets_earlierPositions hp h).bind fun ns hns => ?_
  refine (meets_mapM_flatten fun n hn =>
    meets_instsAt hp hslice (Nat.lt_of_succ_lt (hns n hn))).map fun js hjs => ?_
  exact List.forall_mem_append.mpr ⟨his, hjs⟩

/-! ## Loads -/

variable (halias : r.mayAlias.Answers r.program)
include halias

omit hslice in
theorem meets_isGepAlias {base : Value} (hbase : r.program.Has base) (offset : Int) {i : InstId}
    (hi : r.program.HasInst i) : Meets F (fun _ => True) (r.isGepAlias base offset i) := by
  refine (Program.meets_op hi).bind fun op _ => ?_
  split
  · refine (hp.meets_stripOffsets (v := .inst i) hi).bind fun x hx => ?_
    dsimp only
    split
    · exact halias.meets hbase hx
    · exact meets_pure trivial
  · exact meets_pure trivial

/-- The other names of an address are found. -/
theorem meets_addressesOf {load : InstId} (hload : r.program.HasInst load) {ptr : Value}
    (hptr : r.program.Has ptr) : Meets F (fun _ => True) (r.addressesOf load ptr) := by
  refine (Program.meets_opOf? hptr).bind fun op? _ => ?_
  split
  · refine (meets_before hp hslice hload).bind fun is his => ?_
    exact (meets_filterM fun i hi => (Program.meets_op (his i hi)).map fun _ _ => trivial).map
      fun _ _ => trivial
  · refine (hp.meets_stripOffsets hptr).bind fun x hx => ?_
    refine (meets_before hp hslice hload).bind fun is his => ?_
    exact (meets_filterM fun i hi => meets_isGepAlias hp halias hx _ (his i hi)).map
      fun _ _ => trivial
  · exact meets_pure trivial

/-- What was stored last exists. -/
theorem meets_storedValue? {load : InstId} (hload : r.program.HasInst load) {ptr : Value}
    (hptr : r.program.Has ptr) :
    Meets F (fun v? => ∀ v ∈ v?, r.program.Has v) (r.storedValue? load ptr) := by
  refine (meets_addressesOf hp hslice halias hload hptr).bind fun addresses _ => ?_
  refine meets_findBack hp hslice hload fun i hi => ?_
  refine (Program.meets_op hi).bind fun op hop => ?_
  split
  · split
    · exact meets_some (hp.has hop (by simp [Operation.operands]))
    · exact meets_none
  · exact meets_none

omit hp hslice halias in
/-- The nearest incoming value is one of those that come in. -/
theorem mem_of_nearestIncoming? {own : BlockId} {incoming : List (BlockId × Value)} {v : Value}
    (h : r.nearestIncoming? own incoming = some v) : v ∈ incoming.map (·.2) := by
  obtain ⟨c, hc, rfl⟩ := Option.map_eq_some_iff.mp h
  -- the latest one so far is one of the candidates, and none is there at first
  have hmem := (mem_foldl_best (fun best x y hy => ?_) c hc).resolve_right (Option.not_mem_none c)
  case refine_1 =>
    cases best with
    | none => exact Or.inl (Option.some.inj hy).symm
    | some b =>
      dsimp only at hy
      split at hy
      · exact Or.inl (Option.some.inj hy).symm
      · exact Or.inr hy
  obtain ⟨e, he, hc⟩ := List.mem_filterMap.mp hmem
  dsimp only at hc
  split at hc
  · cases hc
  · obtain ⟨n, -, rfl⟩ := Option.map_eq_some_iff.mp hc
    exact List.mem_map_of_mem he

/-! ## One level -/

section Step

variable {resolve : Value → List Value → Checked Resolution}
  (hresolve : ∀ v, r.program.Has v → ∀ seen,
    Meets F (fun out => ∀ w ∈ out.1, r.program.Has w) (resolve v seen))
include hresolve

omit hslice halias in
/-- A branch is asked without a fault, as long as resolution meets none. -/
theorem meets_answerOfBranch (q : Question) {cond : Value} (hcond : r.program.Has cond)
    (taken : Bool) (seen : List Value) :
    Meets F (fun _ => True) (r.answerOfBranch resolve q cond taken seen) := by
  refine Meets.bind (Program.meets_opOf? hcond) fun op? hop => ?_
  split
  case h_1 pred lhs rhs =>
    have hlhs : r.program.Has lhs := hp.has (hop _ rfl) (by simp [Operation.operands])
    have hrhs : r.program.Has rhs := hp.has (hop _ rfl) (by simp [Operation.operands])
    split
    · exact meets_pure trivial
    · refine (hresolve lhs hlhs _).bind fun out _ => ?_
      dsimp only
      split
      · exact meets_pure trivial
      · refine (hresolve rhs hrhs _).bind fun out _ => ?_
        split <;> exact meets_pure trivial
  case h_2 => exact meets_pure trivial

omit hp hslice halias in
theorem meets_answerOfSwitch (q : Question) {cond : Value} (hcond : r.program.Has cond)
    (cases : List (Constant × BlockId)) (next : BlockId) (seen : List Value) :
    Meets F (fun _ => True) (answerOfSwitch resolve q cond cases next seen) := by
  refine (hresolve cond hcond _).bind fun out _ => ?_
  dsimp only
  split
  · exact meets_pure trivial
  · split <;> exact meets_pure trivial

omit halias in
theorem meets_answerAt (q : Question) {n : Nat} (hn : n + 1 < r.slice.length) (seen : List Value) :
    Meets F (fun _ => True) (r.answerAt resolve q n seen) := by
  refine Meets.bind (Slice.meets_get hslice (Nat.lt_of_succ_lt hn)) fun block hblock => ?_
  -- the block that the branch went to is the next one, which is why `n + 1` has to be a position
  refine Meets.bind (Slice.meets_get hslice hn) fun next _ => ?_
  refine Meets.bind (hp.meets_terminatorOp? hblock) fun op? hop => ?_
  split
  · exact meets_answerOfBranch hp hresolve q (hp.has (hop _ rfl) (by simp [Operation.operands])) _ _
  · exact meets_answerOfSwitch hresolve q (hp.has (hop _ rfl) (by simp [Operation.operands])) _ _ _
  · exact meets_pure trivial

omit halias in
/-- So is the whole past, and an answer is a value that exists. -/
theorem meets_answer {q : Question} (hq : r.program.HasInst q.cmp) {ns : List Nat}
    (hns : ∀ n ∈ ns, n + 1 < r.slice.length) (seen : List Value) :
    Meets F (fun out => ∀ w ∈ out.1, r.program.Has w) (r.answer resolve q ns seen) := by
  induction ns generalizing seen with
  | nil => exact meets_pure fun w hw => Option.some.inj hw ▸ hq
  | cons n rest ih =>
    rw [List.forall_mem_cons] at hns
    refine (meets_answerAt hp hslice hresolve q hns.1 seen).bind fun answer? _ => ?_
    split
    · exact meets_pure fun w hw => Option.some.inj hw ▸ trivial
    · exact ih hns.2 _

omit halias in
theorem meets_resolveCmp {cmp : InstId} (hcmp : r.program.HasInst cmp) (pred : Predicate)
    {lhs rhs : Value} (hlhs : r.program.Has lhs) (hrhs : r.program.Has rhs) (seen : List Value) :
    Meets F (fun out => ∀ w ∈ out.1, r.program.Has w)
      (r.resolveCmp resolve cmp pred lhs rhs seen) := by
  have hself : ∀ seen, Meets F (fun out : Resolution => ∀ w ∈ out.1, r.program.Has w)
      (pure (some (.inst cmp), seen)) :=
    fun seen => meets_pure fun w hw => Option.some.inj hw ▸ hcmp
  refine (hresolve lhs hlhs seen).bind fun out _ => ?_
  split
  · exact hself _
  · refine (hresolve rhs hrhs _).bind fun out _ => ?_
    split
    · exact hself _
    · refine Meets.bind (meets_earlierPositions hp hcmp) fun ns hns => ?_
      exact meets_answer hp hslice hresolve hcmp hns _

/-- **One level of a resolution** stays in the program if the levels inside it do. -/
theorem meets_step {v : Value} (hv : r.program.Has v) (seen : List Value) :
    Meets F (fun out => ∀ w ∈ out.1, r.program.Has w) (r.step resolve v seen) := by
  -- the two ways a step ends by itself; every other case hands an operand of the instruction to
  -- `resolve`, and an operand of the program is in the program
  have hsome : ∀ {w}, r.program.Has w → ∀ seen,
      Meets F (fun out : Resolution => ∀ w ∈ out.1, r.program.Has w) (pure (some w, seen)) :=
    fun hw seen => meets_pure fun _ heq => Option.some.inj heq ▸ hw
  have hnone : ∀ seen,
      Meets F (fun out : Resolution => ∀ w ∈ out.1, r.program.Has w) (pure (none, seen)) :=
    fun seen => meets_pure fun _ heq => absurd heq (Option.not_mem_none _)
  cases v with
  | inst id =>
    refine Meets.bind (Program.meets_op hv) fun op hop => ?_
    have hoperand : ∀ {w}, w ∈ op.operands → r.program.Has w := fun hw => hp.has hop hw
    cases op with
    | load ptr =>
      have hptr : r.program.Has ptr := hoperand (by simp [Operation.operands])
      refine Meets.bind (meets_storedValue? hp hslice halias hv hptr) fun stored? hstored => ?_
      cases stored? with
      | some stored => exact hresolve stored (hstored stored rfl) seen
      | none =>
        refine Meets.bind (Program.meets_opOf? hptr) fun op? _ => ?_
        split
        · exact hresolve ptr hptr seen
        · exact hsome hptr seen
        · exact hnone seen
    | cast kind inner => exact hresolve inner (hoperand (by simp [Operation.operands])) seen
    | freeze inner => exact hresolve inner (hoperand (by simp [Operation.operands])) seen
    | select cond ifTrue ifFalse =>
      refine (hresolve cond (hoperand (by simp [Operation.operands])) seen).bind fun out _ => ?_
      dsimp only
      split
      · split
        · exact hresolve ifFalse (hoperand (by simp [Operation.operands])) _
        · exact hresolve ifTrue (hoperand (by simp [Operation.operands])) _
      · exact hsome hv _
    | cmp pred lhs rhs =>
      exact meets_resolveCmp hp hslice hresolve hv pred (hoperand (by simp [Operation.operands]))
        (hoperand (by simp [Operation.operands])) seen
    | phi incoming =>
      dsimp only
      split
      · exact hnone seen
      · refine Meets.bind (hp.meets_blockOf hv) fun b _ => ?_
        split
        case h_1 w hw => exact hresolve w (hoperand (mem_of_nearestIncoming? hw)) _
        case h_2 => exact hnone _
    | call _ _ | alloca | gep _ _ | extract _ _ => exact hsome hv seen
    | _ => exact hnone seen
  | _ => exact hsome hv seen

end Step

/-! ## Resolutions -/

/-- To whatever depth a value is resolved, only the depth may be missing. -/
theorem meets_resolve (depth : Nat) {v : Value} (hv : r.program.Has v) (seen : List Value) :
    Meets (· = .tooDeep) (fun out => ∀ w ∈ out.1, r.program.Has w) (r.resolve depth v seen) := by
  induction depth generalizing v seen with
  | zero => exact rfl
  | succ depth ih => exact meets_step hp hslice halias (fun v hv seen => ih hv seen) hv seen

end Inside

end Resolver

namespace Program

variable {p : Program} {mayAlias : AliasOracle}

/-- **A resolution that never ends**, as a fault: along some slice of the program, a value uses up
every depth. -/
def Unending (p : Program) (mayAlias : AliasOracle) (e : Fault) : Prop :=
  e = .tooDeep ∧ ∃ slice v, p.HasBlocks slice.blocks ∧ p.Has v ∧
    ∀ depth, Resolver.resolve ⟨p, mayAlias, slice⟩ depth v [] = .error .tooDeep

/-- **A resolution has a result**, unless it does not end. -/
theorem meets_resolveFresh (hp : p.Inside) (halias : mayAlias.Answers p)
    (hshallow : mayAlias.Shallow) {slice : Slice} (hslice : p.HasBlocks slice.blocks) {v : Value}
    (hv : p.Has v) :
    Meets (p.Unending mayAlias) (fun w? => ∀ w ∈ w?, p.Has w)
      (Resolver.resolveFresh ⟨p, mayAlias, slice⟩ v) := by
  have hmeets := Resolver.meets_resolve (r := ⟨p, mayAlias, slice⟩) hp hslice halias
    (Resolver.enoughDepth ⟨p, mayAlias, slice⟩) hv []
  refine Meets.map (P := fun out : Resolution => ∀ w ∈ out.1, p.Has w) ?_ fun _ hout => hout
  obtain ⟨out, heq, hout⟩ | ⟨e, heq, rfl⟩ := hmeets.ok_or_error
  · exact meets_of_eq_ok heq hout
  · rw [Resolver.resolveSeeing, heq]
    exact ⟨rfl, slice, v, hslice, hv, Resolver.resolve_eq_tooDeep_of_resolveSeeing hshallow heq⟩

theorem meets_resolveAlong (hp : p.Inside) (halias : mayAlias.Answers p)
    (hshallow : mayAlias.Shallow) {path : List BlockId} (hpath : p.HasBlocks path)
    {v? : Option Value} (hv : ∀ v ∈ v?, p.Has v) :
    Meets (p.Unending mayAlias) (fun w? => ∀ w ∈ w?, p.Has w)
      (p.resolveAlong mayAlias path v?) := by
  cases v? with
  | none => exact meets_none
  | some v => exact meets_resolveFresh hp halias hshallow hpath (hv v rfl)

end Program

end ErrorReturns
