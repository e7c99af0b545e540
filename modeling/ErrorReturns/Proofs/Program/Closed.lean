import ErrorReturns.Proofs.Program.Writing

/-!
# Names that stay inside the arenas

In a program that has been written by directives the blocks list only instructions that exist,
and edges lead only to blocks that exist. Looking at the end of a block that exists, and going
on to where it leads, therefore never meets a fault.
-/

namespace ErrorReturns

namespace Arena

/-- Every instruction that a block lists exists. -/
def Closed (a : Arena) : Prop := ∀ b ∈ a.blocks, ∀ i ∈ b.insts, i.index < a.insts.size

theorem mem_modify {α : Type} {xs : Array α} {k : Nat} {f : α → α} {y : α}
    (h : y ∈ xs.modify k f) : y ∈ xs ∨ ∃ x ∈ xs, y = f x := by
  obtain ⟨j, hj⟩ := Array.mem_iff_getElem?.mp h
  rw [Array.getElem?_modify] at hj
  split at hj
  · obtain ⟨x, hx, hy⟩ := Option.map_eq_some_iff.mp hj
    exact Or.inr ⟨x, Array.mem_of_getElem? hx, hy.symm⟩
  · exact Or.inl (Array.mem_of_getElem? hj)

/-- An edit never lists an instruction before it exists. -/
theorem Edit.closed {a a' : Arena} (h : Edit a a') (ha : a.Closed) : a'.Closed := by
  cases h with
  | addModule | declare | describe => exact ha
  | addBlock f hf =>
    intro b hb
    rcases Array.mem_push.mp hb with hb | rfl
    · exact ha b hb
    · simp
  | addInst i hb =>
    intro b hmem j hj
    dsimp only at hmem ⊢
    rw [Array.size_push]
    rcases mem_modify hmem with hmem | ⟨x, hx, rfl⟩
    · exact Nat.lt_succ_of_lt (ha b hmem j hj)
    · rcases List.mem_append.mp hj with hj | hj
      · exact Nat.lt_succ_of_lt (ha x hx j hj)
      · rw [List.mem_singleton.mp hj]
        exact Nat.lt_succ_self _
  | setIncoming id incoming hi =>
    intro b hb j hj
    rw [Array.size_modify]
    exact ha b hb j hj

theorem closed_of_edits {a : Arena} (h : Relation.ReflTransGen Edit {} a) : a.Closed := by
  induction h with
  | refl => exact fun b hb => absurd hb (Array.not_mem_empty b)
  | tail _ he ih => exact he.closed ih

end Arena

namespace Program

variable {p : Program}

theorem closed_of_build {ds : List Directive} (h : build ds = .ok p) : p.toArena.Closed :=
  Arena.closed_of_edits (edits_of_build h).1

/-- **Edges stay inside**: where a block leads, there is a block. -/
theorem lt_of_mem_successors {ds : List Directive} (h : build ds = .ok p) {b s : BlockId}
    (hs : s ∈ p.successors b) : s.index < p.blocks.size := by
  obtain ⟨-, hsucc, -⟩ := Arena.freeze_eq_ok (edits_of_build h).2
  rw [successors, hsucc, Arena.successors, Array.getElem?_map] at hs
  cases hb : p.blocks[b.index]? with
  | none => simp [hb] at hs
  | some x =>
    rw [hb, Option.map_some, Option.getD_some] at hs
    split at hs
    · exact of_decide_eq_true (List.mem_filter.mp hs).2
    · simp at hs

/-- The end of a block that exists can be looked at. -/
theorem exists_terminatorOp?_eq_ok (hp : p.toArena.Closed) {b : BlockId}
    (hb : b.index < p.blocks.size) : ∃ t, p.terminatorOp? b = .ok t := by
  obtain ⟨x, hx⟩ := Arena.exists_block_eq_ok hb
  have hmem : x ∈ p.blocks := Array.mem_of_getElem? (Arena.block_eq_ok_iff.mp hx)
  unfold terminatorOp? terminator?
  rw [hx, Checked.ok_bind]
  cases hlast : x.insts.getLast? with
  | none => exact ⟨none, rfl⟩
  | some last =>
    obtain ⟨op, hop⟩ := Arena.exists_op_eq_ok (hp x hmem last (List.mem_of_getLast? hlast))
    dsimp only
    rw [hop, Checked.ok_bind]
    split
    case isTrue => exact ⟨some op, by simp [hop]⟩
    case isFalse => exact ⟨none, rfl⟩

end Program

end ErrorReturns
