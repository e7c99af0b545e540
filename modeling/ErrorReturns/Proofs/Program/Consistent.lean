import ErrorReturns.Proofs.Program.Closed
import ErrorReturns.Proofs.Program.Ownership

/-!
# A program agrees with itself

Freezing computes three tables from the arenas: the place of each instruction in its block, the
instructions that read each result, and the edges between blocks in both directions. Each is
filled by one pass over the arenas that writes to many places, and is read off here at one place:

* an instruction stands in one list only, so no later write to its position overwrites the first
  (`Arena.getElem?_positions`);
* the readers of a result are noted in the order of the instructions, so each is new when it is
  noted first (`Arena.getElem?_users`);
* an edge is noted once where it starts and once where it ends (`Arena.count_reverseEdges`).

Together with ownership this is `Program.Consistent`, which holds of every program that is
built.
-/

namespace ErrorReturns

namespace Operation

/-- Only what ends a block leads anywhere. -/
theorem successors_eq_nil {op : Operation} (h : op.isTerminator = false) : op.successors = [] := by
  cases op <;> first | rfl | simp [isTerminator] at h

end Operation

namespace Arena

open Checked (bind_eq_ok_iff)

/-! ## Positions -/

section Positions

variable {l : List (InstId × Nat)} {ps : Array Nat} {i : InstId}

theorem getElem?_foldl_setIfInBounds_of_not_mem (h : i ∉ l.map (·.1)) :
    (l.foldl (fun ps e => ps.setIfInBounds e.1.index e.2) ps)[i.index]? = ps[i.index]? := by
  induction l generalizing ps with
  | nil => rfl
  | cons e rest ih =>
    rw [List.map_cons, List.mem_cons, not_or] at h
    have hne : e.1.index ≠ i.index := fun heq => h.1 (congrArg InstId.mk heq.symm)
    rw [List.foldl_cons, ih h.2, Array.getElem?_setIfInBounds_ne hne]

/-- What is written to a place once stays there. -/
theorem getElem?_foldl_setIfInBounds (hl : (l.map (·.1)).Nodup) {n : Nat} (h : (i, n) ∈ l)
    (hi : i.index < ps.size) :
    (l.foldl (fun ps e => ps.setIfInBounds e.1.index e.2) ps)[i.index]? = some n := by
  induction l generalizing ps with
  | nil => cases h
  | cons e rest ih =>
    rw [List.map_cons, List.nodup_cons] at hl
    rw [List.foldl_cons]
    rcases List.mem_cons.mp h with rfl | h
    · rw [getElem?_foldl_setIfInBounds_of_not_mem hl.1, Array.getElem?_setIfInBounds_self_of_lt hi]
    · exact ih hl.2 h (by rwa [Array.size_setIfInBounds])

end Positions

variable (a : Arena)

/-- All writes of positions, one after another. -/
theorem positions_eq_foldl :
    a.positions = (a.blocks.toList.flatMap fun b => b.insts.zipIdx).foldl
      (fun ps e => ps.setIfInBounds e.1.index e.2) (Array.replicate a.insts.size 0) := by
  rw [positions, ← Array.foldl_toList, List.foldl_flatMap]
  rfl

variable {a}

/-- **The place of an instruction** is where its block lists it. -/
theorem getElem?_positions (ha : a.Owned) {b : Block} (hb : b ∈ a.blocks) {i : InstId} {n : Nat}
    (hi : b.insts[n]? = some i) : a.positions[i.index]? = some n := by
  have hnames : (a.blocks.toList.flatMap fun b => b.insts.zipIdx).map (·.1) =
      a.blocks.toList.flatMap Block.insts := by
    rw [List.map_flatMap]
    exact congrArg (List.flatMap · a.blocks.toList) (funext fun b => List.zipIdx_map_fst 0 b.insts)
  have hwrite : (i, n) ∈ a.blocks.toList.flatMap fun b => b.insts.zipIdx :=
    List.mem_flatMap.mpr
      ⟨b, Array.mem_toList_iff.mpr hb, List.mem_zipIdx_iff_getElem?.mpr hi⟩
  have hmem : i ∈ a.blocks.toList.flatMap Block.insts := hnames ▸ List.mem_map_of_mem hwrite
  have hmem := (ha.insts.flatMap_perm InstId.mk_injective).mem_iff.mp hmem
  obtain ⟨k, hk, rfl⟩ := List.mem_map.mp hmem
  rw [positions_eq_foldl]
  refine getElem?_foldl_setIfInBounds ?_ hwrite ?_
  · rw [hnames]
    exact ha.insts.flatMap_nodup InstId.mk_injective
  · rw [Array.size_replicate]
    exact List.mem_range.mp hk

/-! ## Readers -/

/-- Changing what stands at each place does not change how many places there are. -/
theorem size_eq_of_getElem?_eq_map {α : Type} {xs ys : Array α} {f : Nat → α → α}
    (h : ∀ k : Nat, ys[k]? = xs[k]?.map (f k)) : ys.size = xs.size := by
  have hmap : ys.map (fun _ => ()) = xs.map (fun _ => ()) := by
    refine Array.ext_getElem? fun k => ?_
    rw [Array.getElem?_map, Array.getElem?_map, h k, Option.map_map]
  simpa using congrArg Array.size hmap

/-- Note a reader, unless it has been noted. -/
def noteReader (user : InstId) (us : List InstId) : List InstId :=
  if user ∈ us then us else us ++ [user]

@[simp] theorem noteReader_noteReader (user : InstId) (us : List InstId) :
    noteReader user (noteReader user us) = noteReader user us := by
  unfold noteReader
  split <;> simp [*]

/-- An operand adds the reader to the readers of the result that it is, and to no others. -/
theorem markUser_eq_ok {user : InstId} {us us' : Array (List InstId)} {v : Value}
    (h : markUser user us v = .ok us') :
    (∀ used, v = .inst used → used.index < us.size) ∧
      ∀ k : Nat, us'[k]? = us[k]?.map fun l => if v = .inst ⟨k⟩ then noteReader user l else l := by
  cases v with
  | inst used =>
    rw [markUser] at h
    split at h
    case isFalse => cases h
    case isTrue hlt =>
      obtain rfl := Except.ok.inj h
      refine ⟨fun _ hv => Value.inst.inj hv ▸ hlt, fun k => ?_⟩
      rw [Array.getElem?_modify]
      by_cases hk : used.index = k
      · have hv : Value.inst used = .inst ⟨k⟩ := by rw [← hk]
        simp only [if_pos hk, if_pos hv]
        rfl
      · have hv : ¬ Value.inst used = .inst ⟨k⟩ := fun hv => hk (by rw [Value.inst.inj hv])
        simp only [if_neg hk, if_neg hv, Option.map_id']
  | arg | const | null | func | global | undef =>
    obtain rfl := Except.ok.inj h
    exact ⟨nofun, fun k => by simp⟩

/-- The operands of one instruction, taken together. -/
theorem foldlM_markUser_eq_ok {user : InstId} {ops : List Value} {us us' : Array (List InstId)}
    (h : ops.foldlM (markUser user) us = .ok us') :
    (∀ used, .inst used ∈ ops → used.index < us.size) ∧ ∀ k : Nat, us'[k]? =
      us[k]?.map fun l => if .inst ⟨k⟩ ∈ ops then noteReader user l else l := by
  induction ops generalizing us with
  | nil =>
    obtain rfl := Except.ok.inj h
    exact ⟨nofun, fun k => by simp⟩
  | cons v rest ih =>
    rw [List.foldlM_cons] at h
    obtain ⟨us₁, h₁, h⟩ := bind_eq_ok_iff.mp h
    obtain ⟨hv, hread⟩ := markUser_eq_ok h₁
    obtain ⟨hrest, hread'⟩ := ih h
    have hsize : us₁.size = us.size := size_eq_of_getElem?_eq_map hread
    constructor
    · intro used hused
      rcases List.mem_cons.mp hused with rfl | hused
      · exact hv used rfl
      · exact hsize ▸ hrest used hused
    · intro k
      rw [hread' k, hread k, Option.map_map]
      refine congrArg (Option.map · us[k]?) (funext fun l => ?_)
      dsimp only [Function.comp_apply]
      by_cases hk : v = .inst ⟨k⟩
      · by_cases hmem : Value.inst ⟨k⟩ ∈ rest <;> simp [hk, hmem, noteReader_noteReader]
      · by_cases hmem : Value.inst ⟨k⟩ ∈ rest <;> simp [hk, hmem, eq_comm]

/-- The instructions of a list, numbered from `start`, that read a result. -/
def readers (insts : List Inst) (start k : Nat) : List InstId :=
  ((insts.zipIdx start).filter fun e => .inst ⟨k⟩ ∈ e.1.op.operands).map fun e => ⟨e.2⟩

/-- The readers listed for an instruction are those with its result among their operands. -/
theorem mem_readers {insts : List Inst} {k : Nat} {u : InstId} :
    u ∈ readers insts 0 k ↔ ∃ i, insts[u.index]? = some i ∧ .inst ⟨k⟩ ∈ i.op.operands := by
  unfold readers
  rw [List.mem_map]
  constructor
  · rintro ⟨⟨i, n⟩, he, rfl⟩
    obtain ⟨he, hread⟩ := List.mem_filter.mp he
    exact ⟨i, List.mem_zipIdx_iff_getElem?.mp he, of_decide_eq_true hread⟩
  · rintro ⟨i, hi, hread⟩
    exact ⟨(i, u.index), List.mem_filter.mpr
      ⟨List.mem_zipIdx_iff_getElem?.mpr hi, decide_eq_true hread⟩, rfl⟩

theorem pairwise_readers (insts : List Inst) (k : Nat) :
    (readers insts 0 k).Pairwise (·.index < ·.index) := by
  have hnumbers : (insts.zipIdx.map Prod.snd).Pairwise (· < ·) := by
    rw [List.zipIdx_map_snd]
    exact List.pairwise_lt_range'
  unfold readers
  rw [List.pairwise_map]
  exact (List.pairwise_map.mp hnumbers).filter _

/-- **The pass over the instructions.** As long as no reader from `start` on has been noted, the
readers of the rest are added in order. -/
theorem foldlM_users_eq_ok {insts : List Inst} {start : Nat} {us us' : Array (List InstId)}
    (hnew : ∀ (k : Nat) (l : List InstId), us[k]? = some l → ∀ u ∈ l, u.index < start)
    (h : (insts.zipIdx start).foldlM (fun us (i, n) => i.op.operands.foldlM (markUser ⟨n⟩) us) us =
      .ok us') :
    (∀ i ∈ insts, ∀ used, .inst used ∈ i.op.operands → used.index < us.size) ∧
      ∀ k : Nat, us'[k]? = us[k]?.map (· ++ readers insts start k) := by
  induction insts generalizing start us with
  | nil =>
    rw [List.zipIdx_nil, List.foldlM_nil] at h
    obtain rfl := Except.ok.inj h
    exact ⟨fun i hi => absurd hi List.not_mem_nil, fun k => by simp [readers]⟩
  | cons i rest ih =>
    rw [List.zipIdx_cons, List.foldlM_cons] at h
    obtain ⟨us₁, h₁, h⟩ := bind_eq_ok_iff.mp h
    obtain ⟨hlt, hread⟩ := foldlM_markUser_eq_ok h₁
    -- `start` is new to every list, so noting it appends it
    have hread : ∀ k : Nat, us₁[k]? = us[k]?.map (· ++ readers [i] start k) := by
      intro k
      rw [hread k]
      cases hl : us[k]? with
      | none => rfl
      | some l =>
        have hfresh : (⟨start⟩ : InstId) ∉ l := fun hmem => Nat.lt_irrefl _ (hnew k l hl _ hmem)
        by_cases hmem : Value.inst ⟨k⟩ ∈ i.op.operands <;>
          simp [readers, noteReader, hmem, hfresh]
    have hnew' : ∀ (k : Nat) (l : List InstId), us₁[k]? = some l →
        ∀ u ∈ l, u.index < start + 1 := by
      intro k l hl u hu
      rw [hread k] at hl
      obtain ⟨l₀, hl₀, rfl⟩ := Option.map_eq_some_iff.mp hl
      rcases List.mem_append.mp hu with hu | hu
      · exact Nat.lt_succ_of_lt (hnew k l₀ hl₀ u hu)
      · obtain ⟨e, he, rfl⟩ := List.mem_map.mp hu
        obtain rfl := List.mem_singleton.mp (List.mem_filter.mp he).1
        exact Nat.lt_succ_self start
    have hsize : us₁.size = us.size := size_eq_of_getElem?_eq_map hread
    obtain ⟨hrest, hread'⟩ := ih hnew' h
    constructor
    · rw [List.forall_mem_cons]
      exact ⟨hlt, hsize ▸ hrest⟩
    · intro k
      rw [hread' k, hread k, Option.map_map]
      refine congrArg (Option.map · us[k]?) (funext fun l => ?_)
      show l ++ readers [i] start k ++ readers rest (start + 1) k = l ++ readers (i :: rest) start k
      rw [List.append_assoc]
      refine congrArg (l ++ ·) ?_
      unfold readers
      rw [← List.map_append, ← List.filter_append]
      rfl

/-- **The readers of a result**, and every result that is read exists. -/
theorem getElem?_users {us : Array (List InstId)} (h : a.users = .ok us) :
    (∀ i ∈ a.insts, ∀ used, .inst used ∈ i.op.operands → used.index < a.insts.size) ∧
      ∀ k, k < a.insts.size → us[k]? = some (readers a.insts.toList 0 k) := by
  have hnew : ∀ (k : Nat) (l : List InstId),
      (Array.replicate a.insts.size [])[k]? = some l → ∀ u ∈ l, u.index < 0 := by
    intro k l hl u hu
    rw [Array.getElem?_replicate] at hl
    split at hl
    · obtain rfl := Option.some.inj hl
      cases hu
    · cases hl
  obtain ⟨hlt, hread⟩ := foldlM_users_eq_ok hnew h
  rw [Array.size_replicate] at hlt
  refine ⟨fun i hi => hlt i (Array.mem_toList_iff.mpr hi), fun k hk => ?_⟩
  rw [hread k, Array.getElem?_replicate, if_pos hk, Option.map_some, List.nil_append]

/-! ## Edges -/

/-- The edges of one block, noted where they end. -/
theorem getElem?_foldl_modify (n : BlockId) (targets : List BlockId) (ps : Array (List BlockId))
    (k : Nat) :
    (targets.foldl (fun ps t => ps.modify t.index (· ++ [n])) ps)[k]? =
      ps[k]?.map (· ++ List.replicate (targets.count ⟨k⟩) n) := by
  induction targets generalizing ps with
  | nil => simp
  | cons t rest ih =>
    rw [List.foldl_cons, ih, Array.getElem?_modify]
    by_cases hk : t.index = k
    · obtain rfl : t = ⟨k⟩ := congrArg BlockId.mk hk
      rw [if_pos rfl, Option.map_map, List.count_cons_self]
      refine congrArg (Option.map · ps[k]?) (funext fun l => ?_)
      simp [List.replicate_succ]
    · have hne : t ≠ ⟨k⟩ := fun ht => hk (congrArg BlockId.index ht)
      rw [if_neg hk, List.count_cons_of_ne hne]

/-- The blocks of a list, numbered from `start`, that lead to a block, each as often as it does. -/
def sourcesOf (succs : List (List BlockId)) (start k : Nat) : List BlockId :=
  (succs.zipIdx start).flatMap fun e => List.replicate (e.1.count ⟨k⟩) ⟨e.2⟩

/-- Turning edges around adds to each block the blocks that lead to it. -/
theorem getElem?_foldl_reverseEdges (succs : List (List BlockId)) (start : Nat)
    (ps : Array (List BlockId)) (k : Nat) :
    ((succs.zipIdx start).foldl (fun preds (targets, n) =>
      targets.foldl (fun ps t => ps.modify t.index fun bs => bs ++ [⟨n⟩]) preds) ps)[k]? =
      ps[k]?.map (· ++ sourcesOf succs start k) := by
  induction succs generalizing start ps with
  | nil => simp [sourcesOf]
  | cons targets rest ih =>
    rw [List.zipIdx_cons, List.foldl_cons, ih, getElem?_foldl_modify, Option.map_map]
    refine congrArg (Option.map · ps[k]?) (funext fun l => ?_)
    simp [sourcesOf, List.append_assoc]

/-- It adds them as often as edges lead there. -/
theorem count_sourcesOf (succs : List (List BlockId)) (start k b : Nat) :
    (sourcesOf succs start k).count ⟨start + b⟩ = (succs[b]?.getD []).count ⟨k⟩ := by
  -- the list runs from `start` upwards, so it names no block before that
  have hbefore : ∀ (succs : List (List BlockId)) (start n : Nat), n < start →
      (sourcesOf succs start k).count ⟨n⟩ = 0 := by
    intro succs start n hn
    refine List.count_eq_zero.mpr fun hmem => ?_
    obtain ⟨e, he, hmem⟩ := List.mem_flatMap.mp hmem
    have hle := (List.mem_zipIdx he).1
    obtain ⟨-, heq⟩ := List.mem_replicate.mp hmem
    have := congrArg BlockId.index heq
    dsimp only at this
    omega
  induction succs generalizing start b with
  | nil => simp [sourcesOf]
  | cons targets rest ih =>
    have hcons : sourcesOf (targets :: rest) start k =
        List.replicate (targets.count ⟨k⟩) ⟨start⟩ ++ sourcesOf rest (start + 1) k := by
      simp [sourcesOf]
    rw [hcons, List.count_append]
    cases b with
    | zero => simp [hbefore rest (start + 1) start (Nat.lt_succ_self start)]
    | succ b =>
      have hshift : start + (b + 1) = start + 1 + b := by omega
      rw [List.count_replicate, if_neg (by simp), Nat.zero_add, hshift, ih]
      simp

/-- **An edge has two ends.** -/
theorem count_reverseEdges (succs : Array (List BlockId)) {k : Nat} (hk : k < succs.size)
    (b : BlockId) :
    ((reverseEdges succs)[k]?.getD []).count b = (succs[b.index]?.getD []).count ⟨k⟩ := by
  rw [reverseEdges, getElem?_foldl_reverseEdges, Array.getElem?_replicate, if_pos hk]
  have hcount := count_sourcesOf succs.toList 0 k b.index
  rw [Nat.zero_add] at hcount
  simpa using hcount

end Arena

namespace Program

open Checked (bind_eq_ok_iff)

/-- **A program that agrees with itself.** Every instruction, block and function stands in one
list, that of its owner, and there once; an instruction stands at its position. The users of a
result are the instructions that read it, in order. A block leads to the existing targets of its
terminator, and the edges into a block are the edges out of the others. -/
structure Consistent (p : Program) : Prop where
  insts_once : (p.blocks.toList.flatMap Block.insts).Perm
    ((List.range p.insts.size).map InstId.mk)
  inst_placed : ∀ i x, p.inst i = .ok x →
    ∃ b n, p.block x.block = .ok b ∧ p.position i = .ok n ∧ b.insts[n]? = some i
  blocks_once : (p.functions.toList.flatMap Function.blocks).Perm
    ((List.range p.blocks.size).map BlockId.mk)
  block_placed : ∀ b x, p.block b = .ok x → ∃ f, p.function x.function = .ok f ∧ b ∈ f.blocks
  functions_once : (p.modules.toList.flatMap Module.functions).Perm p.functionIds
  function_placed : ∀ f x, p.function f = .ok x →
    ∃ m, p.module x.module = .ok m ∧ f ∈ m.functions
  users_exact : ∀ i x, p.inst i = .ok x → ∃ us, p.users i = .ok us ∧
    us.Pairwise (·.index < ·.index) ∧
    ∀ u, u ∈ us ↔ ∃ op, p.op u = .ok op ∧ .inst i ∈ op.operands
  successors_exact : ∀ b x, p.block b = .ok x → ∃ t, p.terminatorOp? b = .ok t ∧
    p.successors b = ((t.map Operation.successors).getD []).filter (·.index < p.blocks.size)
  edges_inverse : ∀ b s, (p.successors b).count s = (p.predecessors s).count b

variable {p : Program}

/-- An instruction is listed by its block, at its position. -/
theorem exists_position_eq_ok (hp : p.toArena.Owned) (hpos : p.positionOf = p.toArena.positions)
    {i : InstId} {x : Inst} (hx : p.inst i = .ok x) :
    ∃ b n, p.block x.block = .ok b ∧ p.position i = .ok n ∧ b.insts[n]? = some i := by
  obtain ⟨b, hb, hmem⟩ :=
    hp.insts.exists_mem_list InstId.mk_injective (Arena.inst_eq_ok_iff.mp hx)
  obtain ⟨n, hn⟩ := List.mem_iff_getElem?.mp hmem
  refine ⟨b, n, Arena.block_eq_ok_iff.mpr hb, ?_, hn⟩
  rw [position, hpos, Arena.getElem?_positions hp (Array.mem_of_getElem? hb) hn]

/-- A block leads to the targets of its terminator, if it has one. -/
theorem exists_successors_eq (hp : p.toArena.Closed)
    (hsucc : p.successorsOf = p.toArena.successors) {b : BlockId} {x : Block}
    (hx : p.block b = .ok x) : ∃ t, p.terminatorOp? b = .ok t ∧
      p.successors b = ((t.map Operation.successors).getD []).filter (·.index < p.blocks.size) := by
  have hb := Arena.block_eq_ok_iff.mp hx
  have hlead : p.successors b = ((x.insts.getLast?.bind fun last => p.insts[last.index]?).map
      fun i => i.op.successors.filter (·.index < p.blocks.size)).getD [] := by
    rw [successors, hsucc, Arena.successors, Array.getElem?_map, hb]
    dsimp only [Option.map_some, Option.getD_some]
    cases x.insts.getLast?.bind fun last => p.insts[last.index]? <;> rfl
  unfold terminatorOp? terminator?
  rw [hx, Checked.ok_bind, hlead]
  cases hlast : x.insts.getLast? with
  | none => exact ⟨none, rfl, rfl⟩
  | some last =>
    have hlt := hp x (Array.mem_of_getElem? hb) last (List.mem_of_getLast? hlast)
    have hinst : p.insts[last.index]? = some p.insts[last.index] := Array.getElem?_eq_getElem hlt
    have hop : p.op last = .ok p.insts[last.index].op := by
      rw [Arena.op, Arena.inst_eq_ok_iff.mpr hinst]
      rfl
    dsimp only [Option.bind_some]
    rw [hop, Checked.ok_bind, hinst]
    cases hterm : p.insts[last.index].op.isTerminator with
    | true => exact ⟨some p.insts[last.index].op, by simp [hop], rfl⟩
    | false => exact ⟨none, rfl, by simp [Operation.successors_eq_nil hterm]⟩

/-- The users of a result are those that read it. -/
theorem exists_users_eq_ok (hus : p.toArena.users = .ok p.usersOf) {i : InstId}
    (hi : i.index < p.insts.size) : ∃ us, p.users i = .ok us ∧ us.Pairwise (·.index < ·.index) ∧
      ∀ u, u ∈ us ↔ ∃ op, p.op u = .ok op ∧ .inst i ∈ op.operands := by
  refine ⟨Arena.readers p.insts.toList 0 i.index, ?_, Arena.pairwise_readers _ _, fun u => ?_⟩
  · rw [users, (Arena.getElem?_users hus).2 i.index hi]
  · rw [Arena.mem_readers]
    constructor
    · rintro ⟨x, hx, hread⟩
      rw [Array.getElem?_toList] at hx
      exact ⟨x.op, by rw [Arena.op, Arena.inst_eq_ok_iff.mpr hx]; rfl, hread⟩
    · rintro ⟨op, hop, hread⟩
      simp only [Arena.op, bind_eq_ok_iff, Checked.pure_eq_ok, Except.ok.injEq] at hop
      obtain ⟨x, hx, rfl⟩ := hop
      exact ⟨x, by rw [Array.getElem?_toList]; exact Arena.inst_eq_ok_iff.mp hx, hread⟩

/-- The edges between two blocks, counted from either end. -/
theorem count_successors_eq_count_predecessors (hsucc : p.successorsOf = p.toArena.successors)
    (hpred : p.predecessorsOf = Arena.reverseEdges p.toArena.successors) (b s : BlockId) :
    (p.successors b).count s = (p.predecessors s).count b := by
  have hsize : p.toArena.successors.size = p.blocks.size := Array.size_map
  rw [predecessors, hpred]
  by_cases hs : s.index < p.toArena.successors.size
  · rw [Arena.count_reverseEdges _ hs, successors, hsucc]
  · -- a block that does not exist has no edges
    have hnone : (Arena.reverseEdges p.toArena.successors)[s.index]? = none := by
      rw [Arena.reverseEdges, Arena.getElem?_foldl_reverseEdges, Array.getElem?_replicate,
        if_neg hs, Option.map_none]
    rw [hnone, Option.getD_none, List.count_nil, List.count_eq_zero]
    intro hmem
    rw [successors, hsucc, Arena.successors, Array.getElem?_map] at hmem
    cases hb : p.blocks[b.index]? with
    | none => simp [hb] at hmem
    | some x =>
      rw [hb, Option.map_some, Option.getD_some] at hmem
      split at hmem
      · exact hs (hsize ▸ of_decide_eq_true (List.mem_filter.mp hmem).2)
      · simp at hmem

/-- **Every program that is built agrees with itself**, in whatever order its functions, blocks
and instructions were written. -/
theorem consistent_of_build {ds : List Directive} (h : build ds = .ok p) : p.Consistent := by
  obtain ⟨hedits, hfreeze⟩ := edits_of_build h
  obtain ⟨-, hsucc, hpred, hus, hpos⟩ := Arena.freeze_eq_ok hfreeze
  have howned := Arena.owned_of_edits hedits
  refine
    { insts_once := howned.insts.flatMap_perm InstId.mk_injective
      inst_placed := fun i x hx => exists_position_eq_ok howned hpos hx
      blocks_once := howned.blocks.flatMap_perm BlockId.mk_injective
      block_placed := fun b x hx => ?_
      functions_once := howned.functions.flatMap_perm FuncId.mk_injective
      function_placed := fun f x hx => ?_
      users_exact := fun i x hx => ?_
      successors_exact := fun b x hx => exists_successors_eq (closed_of_build h) hsucc hx
      edges_inverse := count_successors_eq_count_predecessors hsucc hpred }
  · obtain ⟨f, hf, hmem⟩ :=
      howned.blocks.exists_mem_list BlockId.mk_injective (Arena.block_eq_ok_iff.mp hx)
    exact ⟨f, Arena.function_eq_ok_iff.mpr hf, hmem⟩
  · obtain ⟨m, hm, hmem⟩ :=
      howned.functions.exists_mem_list FuncId.mk_injective (Arena.function_eq_ok_iff.mp hx)
    exact ⟨m, Arena.module_eq_ok_iff.mpr hm, hmem⟩
  · exact exists_users_eq_ok hus (Array.getElem?_eq_some_iff.mp (Arena.inst_eq_ok_iff.mp hx)).1

/-- Two bodies written in turn. `loop` carries a value that its phi is told of later, and may jump
to a block that does not exist; `fork` has two edges to one block, and a block without an end. -/
def loopAndFork : List Directive :=
  [.module "m", .declare ⟨0⟩ "loop" [] (.int 32), .declare ⟨0⟩ "fork" [] .void,
    .define ⟨0⟩ [.block, .block, .moveTo ⟨0⟩, .jump ⟨1⟩],
    .define ⟨1⟩ [.branch .undef ⟨3⟩ ⟨3⟩, .block, .moveTo ⟨3⟩, .alloca],
    .define ⟨0⟩ [.moveTo ⟨1⟩, .phi (.int 32) [], .binop .add (.inst ⟨3⟩) (.inst ⟨3⟩),
      .setPhi (.inst ⟨3⟩) [(⟨1⟩, .inst ⟨4⟩)], .branch .undef ⟨1⟩ ⟨9⟩]]

theorem loopAndFork_consistent : ∃ p, build loopAndFork = .ok p ∧ p.Consistent ∧
    p.users ⟨3⟩ = .ok [⟨4⟩] ∧ p.position ⟨5⟩ = .ok 2 ∧ p.successors ⟨1⟩ = [⟨1⟩] ∧
    p.successors ⟨3⟩ = [] ∧ p.predecessors ⟨3⟩ = [⟨2⟩, ⟨2⟩] := by
  obtain ⟨p, hp, hfacts⟩ : ∃ p, build loopAndFork = .ok p ∧ p.users ⟨3⟩ = .ok [⟨4⟩] ∧
      p.position ⟨5⟩ = .ok 2 ∧ p.successors ⟨1⟩ = [⟨1⟩] ∧ p.successors ⟨3⟩ = [] ∧
      p.predecessors ⟨3⟩ = [⟨2⟩, ⟨2⟩] := by
    decide +kernel
  exact ⟨p, hp, consistent_of_build hp, hfacts⟩

end Program

end ErrorReturns
