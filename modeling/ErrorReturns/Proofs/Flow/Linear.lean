import ErrorReturns.Proofs.Flow.Inside
import Mathlib.Data.List.Chain

/-!
# Chains are linear

A chain goes from a block to the one block that all of its edges name, and on from there. Lists of
edges keep repetitions, so that a block may be named several times and still be the only one, and
links may lead round in a circle of any length, back to the start or into the middle of the chain.

What a chain should be is said without following it. A list of blocks is `Program.Linear` if it
starts at the given block, has no block twice, each block is the only one that the edges of the
block before it name, and the last block has no link to a block that is not on the list. Links leave
no choice, so there is at most one such list (`Linear.unique`), and following links finds it
(`linear_follow`). Whether a link is taken depends on the blocks visited before and never on the
bound for the number of steps (`follow_eq_of_le`).
-/

namespace ErrorReturns.Program

variable {p : Program}

/-! ## Following links -/

/-- A chain begins with its first block. -/
theorem exists_follow_eq_cons (next : BlockId → Option BlockId) (steps : Nat)
    (visited : List BlockId) (b : BlockId) : ∃ rest, follow next steps visited b = b :: rest := by
  cases steps with
  | zero => exact ⟨[], rfl⟩
  | succ steps =>
    unfold follow
    split
    · exact ⟨[], rfl⟩
    · split
      · exact ⟨[], rfl⟩
      · exact ⟨_, rfl⟩

theorem self_mem_follow (next : BlockId → Option BlockId) (steps : Nat) (visited : List BlockId)
    (b : BlockId) : b ∈ follow next steps visited b := by
  obtain ⟨rest, hrest⟩ := exists_follow_eq_cons next steps visited b
  rw [hrest]
  exact List.mem_cons_self

/-- A chain is left off only where it would meet itself: as many steps as there are blocks are
enough to take every link. -/
theorem mem_follow_of_next {next : BlockId → Option BlockId}
    (hhas : ∀ b c, next b = some c → p.HasBlock c) {steps : Nat} {visited : List BlockId}
    (hnodup : visited.Nodup) (hvisited : p.HasBlocks visited)
    (hsteps : p.blocks.size < steps + visited.length) {b x c : BlockId}
    (hx : x ∈ follow next steps visited b) (hc : next x = some c) :
    c ∈ follow next steps visited b ∨ c ∈ visited := by
  induction steps generalizing visited b with
  | zero =>
    -- without steps the walk would have visited more blocks than there are
    have hle := length_le_size hnodup hvisited
    omega
  | succ steps ih =>
    unfold follow at hx ⊢
    cases hd : next b with
    | none =>
      rw [hd] at hx
      obtain rfl := List.mem_singleton.mp hx
      rw [hd] at hc
      cases hc
    | some d =>
      rw [hd] at hx
      dsimp only at hx ⊢
      by_cases hmem : d ∈ visited
      · rw [if_pos hmem] at hx
        obtain rfl := List.mem_singleton.mp hx
        exact Or.inr (Option.some.inj (hd.symm.trans hc) ▸ hmem)
      · rw [if_neg hmem] at hx ⊢
        have hself := self_mem_follow next steps (d :: visited) d
        rcases List.mem_cons.mp hx with rfl | hx
        · obtain rfl := Option.some.inj (hd.symm.trans hc)
          exact Or.inl (List.mem_cons_of_mem _ hself)
        · have hnext := ih (List.nodup_cons.mpr ⟨hmem, hnodup⟩)
            (List.forall_mem_cons.mpr ⟨hhas b d hd, hvisited⟩)
            (by rw [List.length_cons]; omega) hx
          -- the one block that the longer list has and `visited` has not is `d`, where the rest of
          -- the walk starts
          rcases hnext with hnext | hnext
          · exact Or.inl (List.mem_cons_of_mem _ hnext)
          · rcases List.mem_cons.mp hnext with rfl | hnext
            · exact Or.inl (List.mem_cons_of_mem _ hself)
            · exact Or.inr hnext

theorem follow_of_next_eq_none {next : BlockId → Option BlockId} {b : BlockId}
    (h : next b = none) (steps : Nat) (visited : List BlockId) :
    follow next steps visited b = [b] := by
  cases steps with
  | zero => rfl
  | succ steps =>
    unfold follow
    rw [h]

/-- **Every block of a chain links to the next one.** -/
theorem isChain_follow (next : BlockId → Option BlockId) (steps : Nat) (visited : List BlockId)
    (b : BlockId) : (follow next steps visited b).IsChain fun x y => next x = some y := by
  induction steps generalizing visited b with
  | zero => exact List.isChain_singleton b
  | succ steps ih =>
    unfold follow
    split
    · exact List.isChain_singleton b
    case h_2 c hc =>
      split
      · exact List.isChain_singleton b
      · obtain ⟨rest, hrest⟩ := exists_follow_eq_cons next steps (c :: visited) c
        have hchain := ih (c :: visited) c
        rw [hrest] at hchain ⊢
        exact List.isChain_cons_cons.mpr ⟨hc, hchain⟩

/-- **More steps make no difference** once there are as many as blocks left: a chain always comes to
its end by itself. -/
theorem follow_eq_of_le {next : BlockId → Option BlockId}
    (hhas : ∀ b c, next b = some c → p.HasBlock c) {steps steps' : Nat} {visited : List BlockId}
    (hnodup : visited.Nodup) (hvisited : p.HasBlocks visited)
    (hsteps : p.blocks.size < steps + visited.length) (hle : steps ≤ steps') (b : BlockId) :
    follow next steps' visited b = follow next steps visited b := by
  induction steps generalizing steps' visited b with
  | zero =>
    have hlength := length_le_size hnodup hvisited
    omega
  | succ steps ih =>
    obtain ⟨more, rfl⟩ := Nat.exists_eq_add_of_le' (Nat.le_trans (Nat.le_add_left 1 steps) hle)
    unfold follow
    cases hc : next b with
    | none => rfl
    | some c =>
      dsimp only
      split
      · rfl
      case isFalse hnew =>
        have hrest := ih (List.nodup_cons.mpr ⟨hnew, hnodup⟩)
          (List.forall_mem_cons.mpr ⟨hhas b c hc, hvisited⟩)
          (by rw [List.length_cons]; omega) (Nat.le_of_succ_le_succ hle) c
        rw [hrest]

/-! ## Linear lists -/

/-- **The only block that the edges of a block name**, once or several times. -/
def OnlyEdge (edges : BlockId → List BlockId) (b c : BlockId) : Prop :=
  c ∈ edges b ∧ ∀ x ∈ edges b, x = c

theorem OnlyEdge.unique {edges : BlockId → List BlockId} {b c d : BlockId}
    (hc : OnlyEdge edges b c) (hd : OnlyEdge edges b d) : c = d :=
  hd.2 c hc.1

/-- **A linear list of blocks** from a block: simple, linked, and as long as it can be. -/
structure Linear (edges : BlockId → List BlockId) (b : BlockId) (l : List BlockId) : Prop where
  starts : l.head? = some b
  nodup : l.Nodup
  linked : l.IsChain (OnlyEdge edges)
  ends : ∀ x ∈ l.getLast?, ∀ c, OnlyEdge edges x c → c ∈ l

/-- Of two lists that start alike and go on without a choice, one begins with the other. -/
theorem isPrefix_or_isPrefix_of_isChain {edges : BlockId → List BlockId} {l l' : List BlockId}
    (hl : l.IsChain (OnlyEdge edges)) (hl' : l'.IsChain (OnlyEdge edges))
    (hhead : l.head? = l'.head?) : l <+: l' ∨ l' <+: l := by
  induction l generalizing l' with
  | nil => exact Or.inl List.nil_prefix
  | cons a rest ih =>
    cases l' with
    | nil => exact Or.inr List.nil_prefix
    | cons a' rest' =>
      obtain rfl : a = a' := Option.some.inj hhead
      simp only [List.prefix_cons_inj]
      cases rest with
      | nil => exact Or.inl List.nil_prefix
      | cons b rest =>
        cases rest' with
        | nil => exact Or.inr List.nil_prefix
        | cons b' rest' =>
          rw [List.isChain_cons_cons] at hl hl'
          exact ih hl.2 hl'.2 (congrArg some (hl.1.unique hl'.1))

namespace Linear

variable {edges : BlockId → List BlockId} {b : BlockId} {l l' : List BlockId}

/-- A linear list cannot be continued: the next block would be on it already. -/
theorem eq_nil_of_append {more : List BlockId} (h : Linear edges b l)
    (h' : Linear edges b (l ++ more)) : more = [] := by
  cases more with
  | nil => rfl
  | cons c more =>
    obtain ⟨-, -, hjoin⟩ := List.isChain_append.mp h'.linked
    have hne : l ≠ [] := by
      rintro rfl
      cases h.starts
    have hlast := List.getLast?_eq_some_getLast hne
    have hmem : c ∈ l := h.ends _ hlast c (hjoin _ hlast c rfl)
    have hdisjoint := (List.nodup_append.mp h'.nodup).2.2
    exact absurd rfl (hdisjoint c hmem c List.mem_cons_self)

/-- **There is one linear list from a block.** -/
theorem unique (h : Linear edges b l) (h' : Linear edges b l') : l = l' := by
  rcases isPrefix_or_isPrefix_of_isChain h.linked h'.linked (h.starts.trans h'.starts.symm)
    with ⟨more, rfl⟩ | ⟨more, rfl⟩
  · rw [h.eq_nil_of_append h', List.append_nil]
  · rw [h'.eq_nil_of_append h, List.append_nil]

end Linear

section Edges

variable {edges : BlockId → List BlockId} (hedges : ∀ b, ∀ c ∈ edges b, p.HasBlock b ∧ p.HasBlock c)
include hedges

theorem hasBlock_of_onlyOne? {b c : BlockId} (h : onlyOne? (edges b) = some c) : p.HasBlock c :=
  (hedges b c (mem_of_onlyOne? h)).2

/-- A block that does not exist is all there is on its chain. -/
theorem follow_of_not_hasBlock {b : BlockId} (hb : ¬ p.HasBlock b) (steps : Nat) :
    follow (fun x => onlyOne? (edges x)) steps [b] b = [b] :=
  follow_of_next_eq_none (Option.eq_none_iff_forall_ne_some.mpr fun c h =>
    hb (hedges b c (mem_of_onlyOne? h)).1) steps [b]

/-- **A chain is closed under its links.** -/
theorem mem_follow_of_onlyOne? {b x c : BlockId}
    (hx : x ∈ follow (fun x => onlyOne? (edges x)) p.blocks.size [b] b)
    (hc : onlyOne? (edges x) = some c) :
    c ∈ follow (fun x => onlyOne? (edges x)) p.blocks.size [b] b := by
  by_cases hb : p.HasBlock b
  · rcases mem_follow_of_next (fun _ _ => hasBlock_of_onlyOne? hedges) (List.nodup_singleton b)
      (List.forall_mem_singleton.mpr hb) (Nat.lt_succ_self _) hx hc with hmem | hmem
    · exact hmem
    · rw [List.mem_singleton.mp hmem]
      exact self_mem_follow _ _ _ b
  · rw [follow_of_not_hasBlock hedges hb, List.mem_singleton] at hx
    exact absurd (hedges x c (mem_of_onlyOne? hc)).1 (hx ▸ hb)

/-- **Following links gives a linear list.** -/
theorem linear_follow (b : BlockId) :
    Linear edges b (follow (fun x => onlyOne? (edges x)) p.blocks.size [b] b) := by
  have hlink : ∀ x c, onlyOne? (edges x) = some c ↔ OnlyEdge edges x c := fun _ _ =>
    onlyOne?_eq_some_iff
  obtain ⟨rest, hrest⟩ := exists_follow_eq_cons (fun x => onlyOne? (edges x)) p.blocks.size [b] b
  refine ⟨?_, (nodup_follow _ _ _ (List.mem_singleton_self b)).1, ?_, fun x hx c hc => ?_⟩
  · rw [hrest]
    rfl
  · simpa only [hlink] using isChain_follow (fun x => onlyOne? (edges x)) p.blocks.size [b] b
  · exact mem_follow_of_onlyOne? hedges (List.mem_of_getLast? hx) ((hlink x c).mpr hc)

theorem linear_iff_eq_follow (b : BlockId) (l : List BlockId) :
    Linear edges b l ↔ l = follow (fun x => onlyOne? (edges x)) p.blocks.size [b] b :=
  ⟨fun h => h.unique (linear_follow hedges b), fun h => h ▸ linear_follow hedges b⟩

theorem follow_eq_of_size_le (b : BlockId) {steps : Nat} (hle : p.blocks.size ≤ steps) :
    follow (fun x => onlyOne? (edges x)) steps [b] b
      = follow (fun x => onlyOne? (edges x)) p.blocks.size [b] b := by
  by_cases hb : p.HasBlock b
  · exact follow_eq_of_le (fun _ _ => hasBlock_of_onlyOne? hedges) (List.nodup_singleton b)
      (List.forall_mem_singleton.mpr hb) (Nat.lt_succ_self _) hle b
  · rw [follow_of_not_hasBlock hedges hb, follow_of_not_hasBlock hedges hb]

end Edges

/-! ## Chains of a program -/

section Build

variable {ds : List Directive} (h : build ds = .ok p)
include h

/-- Edges lead from and to blocks that exist, in both directions. -/
theorem hasBlock_of_mem_edges :
    (∀ b, ∀ c ∈ p.predecessors b, p.HasBlock b ∧ p.HasBlock c) ∧
      ∀ b, ∀ c ∈ p.successors b, p.HasBlock b ∧ p.HasBlock c := by
  have hp := inside_of_build h
  obtain ⟨-, hsucc, -⟩ := Arena.freeze_eq_ok (edits_of_build h).2
  refine ⟨fun b c hc => ⟨?_, hp.predecessors_of b c hc⟩,
    fun b c hc => ⟨?_, hp.successors_of b c hc⟩⟩
  · exact hp.successors_of c b (mem_successors_of_mem_predecessors h hc)
  · exact hasBlock_of_mem_successors hsucc hc

/-- **A path is extended by a linear list**, read backwards. -/
theorem exists_extendBackward_eq (first : BlockId) (rest : List BlockId) :
    ∃ q, p.extendBackward (first :: rest) = q ++ first :: rest ∧
      Linear p.predecessors first (first :: q.reverse) := by
  obtain ⟨tail, htail⟩ : ∃ tail, p.chainBackward first = first :: tail :=
    exists_follow_eq_cons _ _ _ first
  refine ⟨tail.reverse, ?_, ?_⟩
  · rw [extendBackward, htail]
    rfl
  · rw [List.reverse_reverse, ← htail]
    exact linear_follow (hasBlock_of_mem_edges h).1 first

/-- **Chains are simple, linked and maximal.** The chain before a block is the linear list of
predecessors from it, the chain after a block is that of successors, and neither depends on a bound
for the number of steps. A path is extended by blocks that are all different, of which none is its
first block, and each is the only predecessor of the one that follows it; together with the first
block they are the linear list of predecessors, read backwards. -/
theorem chains_linear (b : BlockId) :
    ((∀ l, Linear p.predecessors b l ↔ l = p.chainBackward b) ∧
      ∀ steps, p.blocks.size ≤ steps →
        follow p.uniquePredecessor? steps [b] b = p.chainBackward b) ∧
    ((∀ l, Linear p.successors b l ↔ l = p.chainForward b) ∧
      ∀ steps, p.blocks.size ≤ steps →
        follow p.uniqueSuccessor? steps [b] b = p.chainForward b) ∧
    ∀ rest, ∃ q, p.extendBackward (b :: rest) = q ++ b :: rest ∧ q.Nodup ∧ b ∉ q ∧
      (q ++ [b]).IsChain (fun x y => OnlyEdge p.predecessors y x) ∧
      Linear p.predecessors b (b :: q.reverse) := by
  obtain ⟨hback, hforward⟩ := hasBlock_of_mem_edges h
  refine ⟨⟨linear_iff_eq_follow hback b, fun _ => follow_eq_of_size_le hback b⟩,
    ⟨linear_iff_eq_follow hforward b, fun _ => follow_eq_of_size_le hforward b⟩, fun rest => ?_⟩
  obtain ⟨q, hq, hlinear⟩ := exists_extendBackward_eq h b rest
  have hnodup := List.nodup_cons.mp hlinear.nodup
  have hchain : (b :: q.reverse).reverse.IsChain fun x y => OnlyEdge p.predecessors y x :=
    List.isChain_reverse.mpr hlinear.linked
  rw [List.reverse_cons, List.reverse_reverse] at hchain
  exact ⟨q, hq, List.nodup_reverse.mp hnodup.2, fun hmem => hnodup.1 (List.mem_reverse.mpr hmem),
    hchain, hlinear⟩

end Build

/-- Two blocks in a circle, a switch with one target for every value, a block that is entered from
itself as well, and a block that is entered from itself alone. -/
def circles : List Directive :=
  [.module "m", .declare ⟨0⟩ "spin" [.int 32] .void,
    .define ⟨0⟩ [.block, .block, .block, .block, .block, .block,
      .moveTo ⟨0⟩, .jump ⟨1⟩,
      .moveTo ⟨1⟩, .jump ⟨0⟩,
      .moveTo ⟨2⟩, .switch (.arg ⟨0⟩ 0) ⟨3⟩ [(1, ⟨3⟩), (2, ⟨3⟩)],
      .moveTo ⟨3⟩, .jump ⟨4⟩,
      .moveTo ⟨4⟩, .jump ⟨4⟩,
      .moveTo ⟨5⟩, .jump ⟨5⟩]]

/-- A chain goes once round a circle and once through a switch with one target, and stops at a
block that leads to itself. -/
theorem circles_linear : ∃ p, build circles = .ok p ∧
    Linear p.predecessors ⟨0⟩ [⟨0⟩, ⟨1⟩] ∧ Linear p.successors ⟨2⟩ [⟨2⟩, ⟨3⟩, ⟨4⟩] ∧
    Linear p.predecessors ⟨5⟩ [⟨5⟩] ∧
    ∃ q, p.extendBackward [⟨3⟩, ⟨4⟩] = q ++ [⟨3⟩, ⟨4⟩] ∧ q = [⟨2⟩] ∧ ⟨3⟩ ∉ q := by
  obtain ⟨p, hp, hcircle, hswitch, hself, hextend⟩ : ∃ p, build circles = .ok p ∧
      p.chainBackward ⟨0⟩ = [⟨0⟩, ⟨1⟩] ∧ p.chainForward ⟨2⟩ = [⟨2⟩, ⟨3⟩, ⟨4⟩] ∧
      p.chainBackward ⟨5⟩ = [⟨5⟩] ∧ p.extendBackward [⟨3⟩, ⟨4⟩] = [⟨2⟩, ⟨3⟩, ⟨4⟩] := by
    decide +kernel
  refine ⟨p, hp, ((chains_linear hp ⟨0⟩).1.1 _).mpr hcircle.symm,
    ((chains_linear hp ⟨2⟩).2.1.1 _).mpr hswitch.symm,
    ((chains_linear hp ⟨5⟩).1.1 _).mpr hself.symm, ?_⟩
  obtain ⟨q, hq, -, hnew, -⟩ := (chains_linear hp ⟨3⟩).2.2 [⟨4⟩]
  exact ⟨q, hq, List.append_cancel_right (hq.symm.trans hextend), hnew⟩

end ErrorReturns.Program
