import ErrorReturns.Proofs.Flow.Enumeration
import ErrorReturns.Proofs.Program.Inside

/-!
# Chains and paths stay in the program

Chains and paths go from block to block along the edges of the program, and these lead to blocks of
the program only. A path that starts at a block of the program can therefore be walked to its end.
-/

namespace ErrorReturns

open Checked

section OnlyOne

variable {α : Type} [DecidableEq α] {l l' : List α} {a : α}

/-- The only one is the element that all elements are equal to. -/
theorem onlyOne?_eq_some_iff : onlyOne? l = some a ↔ a ∈ l ∧ ∀ x ∈ l, x = a := by
  cases l with
  | nil => simp [onlyOne?]
  | cons b rest =>
    have hfirst : onlyOne? (b :: rest) = some a ↔ (∀ x ∈ rest, x = b) ∧ b = a := by simp [onlyOne?]
    rw [hfirst, List.forall_mem_cons]
    constructor
    · rintro ⟨hrest, rfl⟩
      exact ⟨List.mem_cons_self, rfl, hrest⟩
    · rintro ⟨-, rfl, hrest⟩
      exact ⟨hrest, rfl⟩

theorem mem_of_onlyOne? (h : onlyOne? l = some a) : a ∈ l := (onlyOne?_eq_some_iff.mp h).1

/-- How often and in which order the elements occur does not matter. -/
theorem onlyOne?_congr (h : ∀ x, x ∈ l ↔ x ∈ l') : onlyOne? l = onlyOne? l' :=
  Option.ext fun a => by simp only [onlyOne?_eq_some_iff, h]

end OnlyOne

namespace Program

variable {p : Program} {F : Fault → Prop}

variable (p) in
/-- Whether the program has each of some blocks. -/
def HasBlocks (bs : List BlockId) : Prop := ∀ b ∈ bs, p.HasBlock b

theorem HasBlocks.append {bs bs' : List BlockId} (h : p.HasBlocks bs) (h' : p.HasBlocks bs') :
    p.HasBlocks (bs ++ bs') :=
  List.forall_mem_append.mpr ⟨h, h'⟩

/-- **What links keep holds along a chain.** -/
theorem forall_mem_follow {next : BlockId → Option BlockId} {P : BlockId → Prop} (steps : Nat)
    (visited : List BlockId) {b : BlockId} (hb : P b)
    (hnext : ∀ x ∈ follow next steps visited b, P x → ∀ c, next x = some c → P c) :
    ∀ x ∈ follow next steps visited b, P x := by
  induction steps generalizing visited b with
  | zero => exact List.forall_mem_singleton.mpr hb
  | succ steps ih =>
    unfold follow at hnext ⊢
    split
    · exact List.forall_mem_singleton.mpr hb
    case h_2 c hc =>
      simp only [hc] at hnext
      split
      · exact List.forall_mem_singleton.mpr hb
      case isFalse hnew =>
        rw [if_neg hnew] at hnext
        have hnext := List.forall_mem_cons.mp hnext
        exact List.forall_mem_cons.mpr ⟨hb, ih _ (hnext.1 hb c hc) hnext.2⟩

/-- A chain stops before it meets itself, so that no block is on it twice. -/
theorem nodup_follow (next : BlockId → Option BlockId) (steps : Nat) (visited : List BlockId)
    {b : BlockId} (hb : b ∈ visited) : (follow next steps visited b).Nodup ∧
      ∀ x ∈ follow next steps visited b, x = b ∨ x ∉ visited := by
  induction steps generalizing visited b with
  | zero => exact ⟨List.nodup_singleton b, List.forall_mem_singleton.mpr (Or.inl rfl)⟩
  | succ steps ih =>
    have hstop : [b].Nodup ∧ ∀ x ∈ [b], x = b ∨ x ∉ visited :=
      ⟨List.nodup_singleton b, List.forall_mem_singleton.mpr (Or.inl rfl)⟩
    unfold follow
    split
    · exact hstop
    case h_2 c hc =>
      split
      · exact hstop
      case isFalse hnew =>
        obtain ⟨hnodup, hlater⟩ := ih (c :: visited) List.mem_cons_self
        have hlater : ∀ x ∈ follow next steps (c :: visited) c, x ∉ visited := by
          intro x hx hvisited
          rcases hlater x hx with rfl | hx
          · exact hnew hvisited
          · exact hx (List.mem_cons_of_mem c hvisited)
        refine ⟨List.nodup_cons.mpr ⟨fun hmem => hlater b hmem hb, hnodup⟩, ?_⟩
        exact List.forall_mem_cons.mpr ⟨Or.inl rfl, fun x hx => Or.inr (hlater x hx)⟩

theorem nodup_chainForward (b : BlockId) : (p.chainForward b).Nodup :=
  (nodup_follow p.uniqueSuccessor? p.blocks.size [b] (List.mem_singleton_self b)).1

namespace Inside

variable (hp : p.Inside)
include hp

theorem hasBlock_of_uniquePredecessor? {b c : BlockId} (h : p.uniquePredecessor? b = some c) :
    p.HasBlock c :=
  hp.predecessors_of b c (mem_of_onlyOne? h)

theorem hasBlock_of_uniqueSuccessor? {b c : BlockId} (h : p.uniqueSuccessor? b = some c) :
    p.HasBlock c :=
  hp.successors_of b c (mem_of_onlyOne? h)

theorem hasBlocks_chainBackward {b : BlockId} (h : p.HasBlock b) :
    p.HasBlocks (p.chainBackward b) :=
  forall_mem_follow _ _ h fun _ _ _ _ => hp.hasBlock_of_uniquePredecessor?

theorem hasBlocks_chainForward {b : BlockId} (h : p.HasBlock b) : p.HasBlocks (p.chainForward b) :=
  forall_mem_follow _ _ h fun _ _ _ _ => hp.hasBlock_of_uniqueSuccessor?

theorem hasBlocks_extendBackward {path : List BlockId} (h : p.HasBlocks path) :
    p.HasBlocks (p.extendBackward path) := by
  cases path with
  | nil => exact h
  | cons first rest =>
    refine HasBlocks.append (fun b hb => ?_) h
    exact hp.hasBlocks_chainBackward (h first List.mem_cons_self) b
      (List.mem_of_mem_tail (List.mem_reverse.mp hb))

theorem meets_endsPath {b : BlockId} (h : p.HasBlock b) :
    Meets F (fun _ => True) (p.endsPath b) := by
  refine (hp.meets_terminatorOp? h).bind fun op? _ => ?_
  split <;> exact meets_pure trivial

/-- Every walk stays among blocks that lead to one another only. -/
theorem meets_walk {P : BlockId → Prop} (hhas : ∀ b, P b → p.HasBlock b)
    (hedge : ∀ b, P b → ∀ s ∈ p.successors b, P s) (boundary : List BlockId) (steps : Nat)
    (seed : Path) {u : List BlockId} (hu : ∀ x ∈ u, P x) (visited : List BlockId)
    (first : Option BlockId) {b : BlockId} (hb : P b) :
    Meets F (fun w => ∀ q ∈ w.paths, ∃ v, q = seed.append v ∧ ∀ x ∈ v, P x)
      (p.walk boundary steps (seed.append u) visited first b) := by
  -- what is known of the blocks carries over to the next one along an edge; `seed` is the part of
  -- the path that was there before and is never looked at
  induction steps generalizing u visited first b with
  | zero => exact meets_pure (List.forall_mem_singleton.mpr ⟨u, rfl, hu⟩)
  | succ steps ih =>
    have hhere : ∀ x ∈ u ++ [b], P x :=
      List.forall_mem_append.mpr ⟨hu, List.forall_mem_singleton.mpr hb⟩
    have hstop : Meets F (fun w : Walk => ∀ q ∈ w.paths, ∃ v, q = seed.append v ∧ ∀ x ∈ v, P x)
        (pure ⟨seed.append (u ++ [b]), []⟩) :=
      meets_pure (List.forall_mem_singleton.mpr ⟨u ++ [b], rfl, hhere⟩)
    unfold walk
    rw [Path.push_append]
    split
    · exact meets_pure (List.forall_mem_singleton.mpr ⟨u, rfl, hu⟩)
    · dsimp only
      split
      · exact hstop
      · refine (hp.meets_endsPath (hhas b hb)).bind fun ends _ => ?_
        split
        · exact hstop
        · split
          case h_1 next hnext => exact ih hhere _ _ (hedge b hb next (mem_of_onlyOne? hnext))
          case h_2 =>
            split
            · refine (meets_mapM fun s hs => ih hhere _ _ (hedge b hb s hs)).map fun ws hws => ?_
              cases ws with
              | nil => exact List.forall_mem_singleton.mpr ⟨u ++ [b], rfl, hhere⟩
              | cons w rest =>
                intro q hq
                obtain ⟨w', hw', hq⟩ := (Walk.mem_paths_join (List.cons_ne_nil w rest) q).mp hq
                exact hws w' hw' q hq
            · exact hstop

/-- **Paths stay among blocks that lead to one another only.** -/
theorem meets_pathsFrom_of_closed {P : BlockId → Prop} (hhas : ∀ b, P b → p.HasBlock b)
    (hedge : ∀ b, P b → ∀ s ∈ p.successors b, P s) (boundary : List BlockId) {start : BlockId}
    (hstart : P start) (seed : Path) :
    Meets F (fun paths => ∀ q ∈ paths, ∃ v, q = seed.append v ∧ ∀ x ∈ v, P x)
      (p.pathsFrom boundary start seed) := by
  have hwalk := hp.meets_walk (F := F) hhas hedge boundary (p.blocks.size + 1) seed
    (fun _ hx => absurd hx List.not_mem_nil) [] none hstart
  rw [Path.append, List.append_nil] at hwalk
  exact hwalk.map fun _ hw => hw

/-- **Paths from a block of the program stay in it.** -/
theorem meets_pathsFrom (boundary : List BlockId) {start : BlockId} (hstart : p.HasBlock start)
    {seed : Path} (hseed : p.HasBlocks seed.blocks) :
    Meets F (fun paths => ∀ path ∈ paths, p.HasBlocks path.blocks)
      (p.pathsFrom boundary start seed) := by
  refine (hp.meets_pathsFrom_of_closed (fun _ h => h) (fun b _ => hp.successors_of b) boundary
    hstart seed).imp fun paths hpaths path hpath => ?_
  obtain ⟨v, rfl, hv⟩ := hpaths path hpath
  exact hseed.append hv

end Inside

end Program

end ErrorReturns
