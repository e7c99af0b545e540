import ErrorReturns.Program.Pointer
import ErrorReturns.Proofs.Meets
import ErrorReturns.Proofs.Program.Consistent

/-!
# Looking around in a program

In a program that has been built, whatever is read off one of its parts is again one of its parts:
its lists, its operands, its edges and its users lead nowhere else (`Program.Inside`). Looking
up something found in this way therefore meets no fault, and what is found is again inside. One
contract for each way of looking around says so, and callers rely on the contract alone.

Two ways lead outside even so. A call by name may name a function that does not exist, and a
parameter may belong to one; neither is looked up when a program is built.
-/

namespace ErrorReturns

open Checked

namespace Program

variable (p : Program)

abbrev HasFunction (f : FuncId) : Prop := f.index < p.functions.size

abbrev HasBlock (b : BlockId) : Prop := b.index < p.blocks.size

abbrev HasInst (i : InstId) : Prop := i.index < p.insts.size

/-- Whether an operand is one of the program's: the result of an instruction has to exist. -/
def Has : Value → Prop
  | .inst i => p.HasInst i
  | _ => True

/-- Whether some instruction performs an operation. -/
def Performs (op : Operation) : Prop := ∃ i ∈ p.insts, i.op = op

/-- Whether some instruction reads an operand. -/
def Reads (v : Value) : Prop := ∃ op, p.Performs op ∧ v ∈ op.operands

/-- **A program that is closed**: what its parts refer to are parts of it. -/
structure Inside : Prop where
  functions_of : ∀ m ∈ p.modules, ∀ f ∈ m.functions, p.HasFunction f
  blocks_of : ∀ f ∈ p.functions, ∀ b ∈ f.blocks, p.HasBlock b
  insts_of : ∀ b ∈ p.blocks, ∀ i ∈ b.insts, p.HasInst i
  function_of : ∀ b ∈ p.blocks, p.HasFunction b.function
  block_of : ∀ i ∈ p.insts, p.HasBlock i.block
  position_of : ∀ i x, p.inst i = .ok x →
    ∃ b n, p.block x.block = .ok b ∧ p.position i = .ok n ∧ n < b.insts.length
  users_of : ∀ i, p.HasInst i → ∃ us, p.users i = .ok us ∧ ∀ u ∈ us, p.HasInst u
  operands_of : ∀ op, p.Performs op → ∀ v ∈ op.operands, p.Has v
  successors_of : ∀ b, ∀ s ∈ p.successors b, p.HasBlock s
  predecessors_of : ∀ b, ∀ s ∈ p.predecessors b, p.HasBlock s

variable {p}

theorem hasInst_of_op_eq_ok {i : InstId} {op : Operation} (h : p.op i = .ok op) : p.HasInst i := by
  obtain ⟨x, hx, -⟩ := bind_eq_ok_iff.mp h
  exact (Array.getElem?_eq_some_iff.mp (Arena.inst_eq_ok_iff.mp hx)).1

theorem hasFunction_of_function_eq_ok {f : FuncId} {x : Function} (h : p.function f = .ok x) :
    p.HasFunction f :=
  (Array.getElem?_eq_some_iff.mp (Arena.function_eq_ok_iff.mp h)).1

theorem mem_functionIds_of_function {f : FuncId} {x : Function} (h : p.function f = .ok x) :
    f ∈ p.functionIds :=
  List.mem_map.mpr ⟨f.index, List.mem_range.mpr (hasFunction_of_function_eq_ok h), rfl⟩

/-- A function is called by name in a direct call. -/
theorem directCallee?_eq_some_iff {i : InstId} {f : FuncId} :
    p.directCallee? i = .ok (some f) ↔ ∃ args, p.op i = .ok (.call (.direct f) args) := by
  constructor
  · intro h
    obtain ⟨op, hop, h⟩ := bind_eq_ok_iff.mp h
    split at h
    case h_1 f' args =>
      obtain rfl := Option.some.inj (Except.ok.inj h)
      exact ⟨args, hop⟩
    case h_2 => cases h
  · rintro ⟨args, hop⟩
    rw [directCallee?, hop]
    rfl

theorem hasBlock_of_mem_successors (hsucc : p.successorsOf = p.toArena.successors) {b s : BlockId}
    (h : s ∈ p.successors b) : p.HasBlock b := by
  by_contra hb
  have hnone : p.successorsOf[b.index]? = none := by
    rw [hsucc, Array.getElem?_eq_none_iff, Arena.successors, Array.size_map]
    exact Nat.le_of_not_lt hb
  rw [successors, hnone] at h
  cases h

/-- An edge into a block leads out of another. -/
theorem mem_successors_of_mem_predecessors {ds : List Directive} (h : build ds = .ok p)
    {b s : BlockId} (hs : s ∈ p.predecessors b) : b ∈ p.successors s := by
  obtain ⟨-, hsucc, hpred, -⟩ := Arena.freeze_eq_ok (edits_of_build h).2
  rw [← List.count_pos_iff, count_successors_eq_count_predecessors hsucc hpred s b,
    List.count_pos_iff]
  exact hs

/-- **Every program that is built is closed.** -/
theorem inside_of_build {ds : List Directive} (h : build ds = .ok p) : p.Inside := by
  obtain ⟨hedits, hfreeze⟩ := edits_of_build h
  obtain ⟨-, hsucc, -, hus, hpos⟩ := Arena.freeze_eq_ok hfreeze
  -- ownership holds after every edit; the tables of successors, users and positions are filled
  -- once, when the program is frozen
  have howned := Arena.owned_of_edits hedits
  refine
    { functions_of := fun m hm f hf => ?_
      blocks_of := fun f hf b hb => ?_
      insts_of := closed_of_build h
      function_of := howned.blocks.owner_lt
      block_of := howned.insts.owner_lt
      position_of := fun i x hx => ?_
      users_of := fun i hi => ?_
      operands_of := fun op hop v hv => ?_
      successors_of := fun b s hs => lt_of_mem_successors h hs
      predecessors_of := fun b s hs =>
        hasBlock_of_mem_successors hsucc (mem_successors_of_mem_predecessors h hs) }
  · obtain ⟨n, hn⟩ := Array.mem_iff_getElem?.mp hm
    obtain ⟨x, hx, -⟩ := (howned.functions.mem_list_iff FuncId.mk_injective hn).mp hf
    exact (Array.getElem?_eq_some_iff.mp hx).1
  · obtain ⟨n, hn⟩ := Array.mem_iff_getElem?.mp hf
    obtain ⟨x, hx, -⟩ := (howned.blocks.mem_list_iff BlockId.mk_injective hn).mp hb
    exact (Array.getElem?_eq_some_iff.mp hx).1
  · obtain ⟨b, n, hb, hn, hat⟩ := exists_position_eq_ok howned hpos hx
    exact ⟨b, n, hb, hn, (List.getElem?_eq_some_iff.mp hat).1⟩
  · obtain ⟨us, hus, -, hmem⟩ := exists_users_eq_ok hus hi
    refine ⟨us, hus, fun u hu => ?_⟩
    obtain ⟨op, hop, -⟩ := (hmem u).mp hu
    exact hasInst_of_op_eq_ok hop
  · obtain ⟨i, hi, rfl⟩ := hop
    cases v with
    | inst used => exact (Arena.getElem?_users hus).1 i hi used hv
    | _ => trivial

/-! ## Places -/

/-- A block lists the instructions that it holds. -/
theorem mem_insts_iff (hp : p.toArena.Owned) {b : BlockId} {block : Block}
    (hb : p.block b = .ok block) {i : InstId} : i ∈ block.insts ↔ p.blockOf i = .ok b := by
  refine (hp.insts.mem_list_iff InstId.mk_injective (Arena.block_eq_ok_iff.mp hb)).trans ?_
  constructor
  · rintro ⟨x, hx, hown⟩
    rw [blockOf, Arena.inst_eq_ok_iff.mpr hx]
    exact congrArg (Except.ok ∘ BlockId.mk) hown
  · intro h
    obtain ⟨x, hx, h⟩ := bind_eq_ok_iff.mp h
    exact ⟨x, Arena.inst_eq_ok_iff.mp hx, congrArg BlockId.index (Except.ok.inj h)⟩

/-- A function lists the blocks that it holds. -/
theorem mem_blocks_iff (hp : p.toArena.Owned) {f : FuncId} {function : Function}
    (hf : p.function f = .ok function) {b : BlockId} :
    b ∈ function.blocks ↔ ∃ block, p.block b = .ok block ∧ block.function = f := by
  refine (hp.blocks.mem_list_iff BlockId.mk_injective (Arena.function_eq_ok_iff.mp hf)).trans ?_
  refine exists_congr fun block => ?_
  rw [Arena.block_eq_ok_iff]
  exact and_congr_right fun _ => ⟨congrArg FuncId.mk, congrArg FuncId.index⟩

/-- The instructions of some blocks are those that one of the blocks holds. -/
theorem mem_flatten_insts_iff (hp : p.toArena.Owned) {bs : List BlockId}
    {lists : List (List InstId)}
    (h : (bs.mapM fun b => return (← p.block b).insts) = .ok lists) {i : InstId} :
    i ∈ lists.flatten ↔ ∃ b ∈ bs, p.blockOf i = .ok b := by
  rw [List.mem_flatten]
  constructor
  · rintro ⟨list, hlist, hi⟩
    obtain ⟨b, hb, hlist⟩ := exists_of_mem_mapM h hlist
    simp only [bind_eq_ok_iff, pure_eq_ok, Except.ok.injEq] at hlist
    obtain ⟨block, hblock, rfl⟩ := hlist
    exact ⟨b, hb, (mem_insts_iff hp hblock).mp hi⟩
  · rintro ⟨b, hb, hi⟩
    obtain ⟨list, hlist, heq⟩ := exists_mem_of_mapM h hb
    simp only [bind_eq_ok_iff, pure_eq_ok, Except.ok.injEq] at heq
    obtain ⟨block, hblock, rfl⟩ := heq
    exact ⟨block.insts, hlist, (mem_insts_iff hp hblock).mpr hi⟩

/-- Different blocks hold different instructions. -/
theorem nodup_flatten_insts (hp : p.toArena.Owned) {bs : List BlockId} (hbs : bs.Nodup)
    {lists : List (List InstId)}
    (h : (bs.mapM fun b => return (← p.block b).insts) = .ok lists) : lists.flatten.Nodup := by
  induction bs generalizing lists with
  | nil =>
    obtain rfl := Except.ok.inj h
    exact List.nodup_nil
  | cons b rest ih =>
    obtain ⟨hnew, hrest⟩ := List.nodup_cons.mp hbs
    rw [List.mapM_cons] at h
    obtain ⟨list, hlist, h⟩ := bind_eq_ok_iff.mp h
    obtain ⟨lists, hlists, h⟩ := bind_eq_ok_iff.mp h
    obtain rfl := Except.ok.inj h
    simp only [bind_eq_ok_iff, pure_eq_ok, Except.ok.injEq] at hlist
    obtain ⟨block, hblock, rfl⟩ := hlist
    rw [List.flatten_cons, List.nodup_append]
    refine ⟨?_, ih hrest hlists, fun i hi j hj heq => hnew ?_⟩
    · exact hp.insts.list_nodup InstId.mk_injective (Arena.block_eq_ok_iff.mp hblock)
    · obtain ⟨b', hb', hj⟩ := (mem_flatten_insts_iff hp hlists).mp hj
      rw [← heq, (mem_insts_iff hp hblock).mp hi] at hj
      exact Except.ok.inj hj ▸ hb'

/-- Instructions of a kind, out of some. -/
theorem mem_filterM_op_iff {is is' : List InstId} {kind : Operation → Bool}
    (h : (is.filterM fun i => return kind (← p.op i)) = .ok is') {i : InstId} :
    i ∈ is' ↔ i ∈ is ∧ ∃ op, p.op i = .ok op ∧ kind op = true := by
  constructor
  · intro hi
    obtain ⟨hi, hkind⟩ := of_mem_filterM h hi
    obtain ⟨op, hop, hkind⟩ := bind_eq_ok_iff.mp hkind
    exact ⟨hi, op, hop, Except.ok.inj hkind⟩
  · rintro ⟨hi, op, hop, hkind⟩
    exact mem_filterM h hi (bind_eq_ok_iff.mpr ⟨op, hop, congrArg Except.ok hkind⟩)

/-- **The instructions of a function** are those that it holds. -/
theorem mem_instsIn_iff (hp : p.toArena.Owned) {f : FuncId} {insts : List InstId}
    (h : p.instsIn f = .ok insts) {i : InstId} : i ∈ insts ↔ p.functionOf i = .ok f := by
  simp only [instsIn, bind_eq_ok_iff, pure_eq_ok, Except.ok.injEq] at h
  obtain ⟨function, hf, lists, hlists, rfl⟩ := h
  rw [mem_flatten_insts_iff hp hlists]
  constructor
  · rintro ⟨b, hb, hi⟩
    obtain ⟨block, hblock, rfl⟩ := (mem_blocks_iff hp hf).mp hb
    rw [functionOf, hi, ok_bind, hblock]
    rfl
  · intro hi
    simp only [functionOf, bind_eq_ok_iff] at hi
    obtain ⟨b, hb, block, hblock, hi⟩ := hi
    exact ⟨b, (mem_blocks_iff hp hf).mpr ⟨block, hblock, Except.ok.inj hi⟩, hb⟩

/-! ## Looking up -/

section Lookups

variable {F : Fault → Prop}

theorem meets_function {f : FuncId} (h : p.HasFunction f) :
    Meets F (· ∈ p.functions) (p.function f) :=
  meets_of_eq_ok (Arena.function_eq_ok_iff.mpr (Array.getElem?_eq_getElem h)) (Array.getElem_mem h)

theorem meets_block {b : BlockId} (h : p.HasBlock b) : Meets F (· ∈ p.blocks) (p.block b) :=
  meets_of_eq_ok (Arena.block_eq_ok_iff.mpr (Array.getElem?_eq_getElem h)) (Array.getElem_mem h)

theorem meets_inst {i : InstId} (h : p.HasInst i) : Meets F (· ∈ p.insts) (p.inst i) :=
  meets_of_eq_ok (Arena.inst_eq_ok_iff.mpr (Array.getElem?_eq_getElem h)) (Array.getElem_mem h)

theorem meets_op {i : InstId} (h : p.HasInst i) : Meets F p.Performs (p.op i) :=
  (meets_inst h).map fun x hx => ⟨x, hx, rfl⟩

theorem meets_opOf? {v : Value} (h : p.Has v) :
    Meets F (fun op? => ∀ op ∈ op?, p.Performs op) (p.opOf? v) := by
  cases v with
  | inst i =>
    exact (meets_op h).bind fun op hop => meets_some hop
  | _ => exact meets_none

theorem meets_isCall {v : Value} (h : p.Has v) : Meets F (fun _ => True) (p.isCall v) :=
  (meets_opOf? h).map fun _ _ => trivial

/-- The call that a value is the result of exists. -/
theorem meets_callOf? {v : Value} (h : p.Has v) :
    Meets F (fun call? => ∀ call ∈ call?, p.HasInst call) (p.callOf? v) := by
  cases v with
  | inst i =>
    refine (meets_op h).bind fun op _ => ?_
    split
    · exact meets_some h
    · exact meets_none
  | _ => exact meets_none

end Lookups

namespace Inside

variable {F : Fault → Prop} (hp : p.Inside)
include hp

/-- What an operation of the program reads, the program has. -/
theorem has {op : Operation} (hop : p.Performs op) {v : Value} (hv : v ∈ op.operands) : p.Has v :=
  hp.operands_of op hop v hv

theorem has_of_reads {v : Value} (h : p.Reads v) : p.Has v := by
  obtain ⟨op, hop, hv⟩ := h
  exact hp.has hop hv

theorem meets_blockOf {i : InstId} (h : p.HasInst i) : Meets F p.HasBlock (p.blockOf i) :=
  (meets_inst h).map fun x hx => hp.block_of x hx

theorem meets_functionOf {i : InstId} (h : p.HasInst i) : Meets F p.HasFunction (p.functionOf i) :=
  (hp.meets_blockOf h).bind fun _ hb => (meets_block hb).map fun x hx => hp.function_of x hx

/-- **An instruction stands in its block**: its position lies before the end. -/
theorem meets_position {i : InstId} (h : p.HasInst i) :
    Meets F (fun n => ∀ b x, p.blockOf i = .ok b → p.block b = .ok x → n < x.insts.length)
      (p.position i) := by
  have hx : p.inst i = .ok p.insts[i.index] :=
    Arena.inst_eq_ok_iff.mpr (Array.getElem?_eq_getElem h)
  obtain ⟨block, n, hblock, hn, hlt⟩ := hp.position_of i _ hx
  refine meets_of_eq_ok hn fun b x hb hbx => ?_
  rw [blockOf, hx] at hb
  obtain rfl := Except.ok.inj hb
  obtain rfl := Except.ok.inj (hblock.symm.trans hbx)
  exact hlt

theorem meets_users {i : InstId} (h : p.HasInst i) :
    Meets F (fun us => ∀ u ∈ us, p.HasInst u) (p.users i) := by
  obtain ⟨us, hus, hmem⟩ := hp.users_of i h
  exact meets_of_eq_ok hus hmem

/-- So does the last instruction of a block. -/
theorem meets_terminator? {b : BlockId} (h : p.HasBlock b) :
    Meets F (fun last? => ∀ i ∈ last?, p.HasInst i) (p.terminator? b) := by
  refine (meets_block h).bind fun x hx => ?_
  cases hlast : x.insts.getLast? with
  | none => exact meets_none
  | some last =>
    have hinst := hp.insts_of x hx last (List.mem_of_getLast? hlast)
    refine (meets_op hinst).bind fun op _ => ?_
    split
    · exact meets_some hinst
    · exact meets_none

theorem meets_terminatorOp? {b : BlockId} (h : p.HasBlock b) :
    Meets F (fun op? => ∀ op ∈ op?, p.Performs op) (p.terminatorOp? b) := by
  refine (hp.meets_terminator? h).bind fun last? hlast => ?_
  cases last? with
  | none => exact meets_none
  | some last =>
    exact (meets_op (hlast last rfl)).bind fun op hop => meets_some hop

/-! ## Instructions of a function -/

/-- The instructions of some blocks. -/
theorem meets_mapM_insts {bs : List BlockId} (h : ∀ b ∈ bs, p.HasBlock b) :
    Meets F (fun is => ∀ i ∈ is.flatten, p.HasInst i)
      (bs.mapM fun b => return (← p.block b).insts) :=
  meets_mapM_flatten fun b hb => (meets_block (h b hb)).map fun x hx => hp.insts_of x hx

theorem meets_instsIn {f : FuncId} (h : p.HasFunction f) :
    Meets F (fun is => ∀ i ∈ is, p.HasInst i) (p.instsIn f) :=
  (meets_function h).bind fun x hx => (hp.meets_mapM_insts (hp.blocks_of x hx)).map fun _ his => his

omit hp in
/-- Instructions of a kind. -/
theorem meets_filterM_op {is : List InstId} (h : ∀ i ∈ is, p.HasInst i) (kind : Operation → Bool) :
    Meets F (fun is => ∀ i ∈ is, p.HasInst i) (is.filterM fun i => return kind (← p.op i)) := by
  have hkind : ∀ i ∈ is, Meets F (fun _ => True) (do return kind (← p.op i)) :=
    fun i hi => (meets_op (h i hi)).map fun _ _ => trivial
  exact (meets_filterM hkind).imp fun js hjs j hj => h j (hjs j hj)

theorem meets_callsIn {f : FuncId} (h : p.HasFunction f) :
    Meets F (fun is => ∀ i ∈ is, p.HasInst i) (p.callsIn f) :=
  (hp.meets_instsIn h).bind fun _ his => meets_filterM_op his Operation.isCall

theorem meets_returnsIn {f : FuncId} (h : p.HasFunction f) :
    Meets F (fun is => ∀ i ∈ is, p.HasInst i) (p.returnsIn f) :=
  (hp.meets_instsIn h).bind fun _ his => meets_filterM_op his Operation.isReturn

theorem meets_returnsSingleConstant {f : FuncId} (h : p.HasFunction f) :
    Meets F (fun _ => True) (p.returnsSingleConstant f) := by
  refine (hp.meets_returnsIn h).bind fun is his => ?_
  refine Meets.map (meets_mapM (Q := fun _ => True) fun i hi => ?_) fun _ _ => trivial
  refine (meets_op (his i hi)).bind fun op _ => ?_
  split <;> exact meets_pure trivial

/-! ## Addresses -/

/-- What is left when offsets are stripped exists. -/
theorem meets_stripFrom (steps : Nat) {v : Value} (h : p.Has v) (offset : Int) :
    Meets F (fun x => p.Has x.1) (p.stripFrom steps v offset) := by
  induction steps generalizing v offset with
  | zero => exact meets_pure h
  | succ steps ih =>
    refine (meets_opOf? h).bind fun op? hop => ?_
    split
    · exact ih (hp.has (hop _ rfl) List.mem_cons_self) _
    · exact ih (hp.has (hop _ rfl) List.mem_cons_self) _
    · exact meets_pure h

theorem meets_stripOffsets {v : Value} (h : p.Has v) :
    Meets F (fun x => p.Has x.1) (p.stripOffsets v) :=
  hp.meets_stripFrom _ h 0

end Inside

theorem meets_isIdentified {F : Fault → Prop} {v : Value} (h : p.Has v) :
    Meets F (fun _ => True) (p.isIdentified v) := by
  cases v with
  | inst i => exact (meets_op h).map fun _ _ => trivial
  | _ => exact meets_pure trivial

/-! ## Instructions that are left

A search that marks the instructions it meets has ever fewer of them left. -/

section Unmet

variable {met met' : InstId → Prop} [DecidablePred met] [DecidablePred met']

variable (p) in
/-- How many instructions have not been met. -/
def unmet (met : InstId → Prop) [DecidablePred met] : Nat :=
  (List.range p.insts.size).countP fun i => ¬met ⟨i⟩

theorem unmet_le_size : p.unmet met ≤ p.insts.size := by
  have hle := List.countP_le_length (l := List.range p.insts.size) (p := fun i => ¬met ⟨i⟩)
  rwa [List.length_range] at hle

theorem unmet_le (h : ∀ i, met i → met' i) : p.unmet met' ≤ p.unmet met := by
  refine List.countP_mono_left fun i _ hi => ?_
  exact decide_eq_true fun hmet => of_decide_eq_true hi (h _ hmet)

/-- **Meeting a new instruction leaves fewer.** -/
theorem unmet_lt (h : ∀ i, met i → met' i) {id : InstId} (hid : p.HasInst id) (hnew : ¬met id)
    (hmet : met' id) : p.unmet met' < p.unmet met := by
  unfold unmet
  rw [List.countP_eq_length_filter, List.countP_eq_length_filter]
  have hleft : (List.range p.insts.size).filter (fun i => ¬met' ⟨i⟩) =
      ((List.range p.insts.size).filter fun i => ¬met ⟨i⟩).filter fun i => ¬met' ⟨i⟩ := by
    rw [List.filter_filter]
    refine List.filter_congr fun i _ => ?_
    have himp : ¬met' ⟨i⟩ → ¬met ⟨i⟩ := mt (h ⟨i⟩)
    simpa using himp
  rw [hleft]
  refine List.length_filter_lt_length_iff_exists.mpr ⟨id.index, ?_, by simpa using hmet⟩
  exact List.mem_filter.mpr ⟨List.mem_range.mpr hid, decide_eq_true hnew⟩

end Unmet

end Program

/-- **An oracle that answers** whenever it is asked about two operands of the program. -/
def AliasOracle.Answers (mayAlias : AliasOracle) (p : Program) : Prop :=
  ∀ a b, p.Has a → p.Has b → ∃ answer, mayAlias p a b = .ok answer

namespace AliasOracle

variable {mayAlias : AliasOracle} {p : Program}

theorem Answers.meets {F : Fault → Prop} (h : mayAlias.Answers p) {a b : Value} (ha : p.Has a)
    (hb : p.Has b) : Meets F (fun _ => True) (mayAlias p a b) := by
  obtain ⟨answer, hanswer⟩ := h a b ha hb
  exact meets_of_eq_ok hanswer trivial

/-- Objects and offsets can be compared. -/
theorem answers_basic (hp : p.Inside) : basic.Answers p := by
  intro a b ha hb
  suffices h : Meets (fun _ => False) (fun _ => True) (basic p a b) by
    obtain ⟨answer, hanswer, -⟩ := h.exists_eq_ok
    exact ⟨answer, hanswer⟩
  unfold basic
  split
  · exact meets_pure trivial
  · refine (hp.meets_stripOffsets ha).bind fun x hx => ?_
    refine (hp.meets_stripOffsets hb).bind fun y hy => ?_
    dsimp only
    split
    · exact meets_pure trivial
    · refine (Program.meets_isIdentified hx).bind fun known _ => ?_
      split
      · exact (Program.meets_isIdentified hy).map fun _ _ => trivial
      · exact meets_pure trivial

end AliasOracle

end ErrorReturns
