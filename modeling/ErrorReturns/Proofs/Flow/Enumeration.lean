import ErrorReturns.Flow.Path
import ErrorReturns.Proofs.Program.Closed
import Mathlib.Data.List.Chain
import Mathlib.Data.List.Nodup
import Mathlib.Data.List.Perm.Subperm

/-!
# The enumerated paths are the complete admissible walks

Which paths are enumerated is said here without the enumeration. A *walk* is a list of distinct
blocks from the start, each of which leads to the next. It is *admissible* when it never goes
on from a block where it has to stop, nor from a fork that shares no successor with the first
fork it has met, and it is *complete* when nothing allows it to go on, or when its last block
has a way back into it. `Program.pathsFrom_exact` says that the enumeration finds exactly the
complete admissible walks, each behind the blocks of the seed.

Between the two stands `Program.Completes`, the walk as a relation that grows one block at a
time: `u` are the blocks passed so far, `b` is the block it comes to, and `w` is how it may end.
The relation describes the complete admissible walks that go on from `u` to `b`
(`Program.completes_iff`), and the search computes it: its steps last, since each of them passes
one more block of the program (`Program.walk_finds`).
-/

namespace ErrorReturns

/-- All paths of a walk. -/
def Walk.paths (w : Walk) : List Path := w.path :: w.forks

/-- Joining walks loses no path and adds none. -/
theorem Walk.mem_paths_join {here : Path} {ws : List Walk} (h : ws ≠ []) (q : Path) :
    q ∈ (Walk.join here ws).paths ↔ ∃ w ∈ ws, q ∈ w.paths := by
  induction ws with
  | nil => exact absurd rfl h
  | cons w rest ih =>
    cases rest with
    | nil => simp [join]
    | cons w' rest =>
      have ih := ih (List.cons_ne_nil w' rest)
      rw [List.exists_mem_cons_iff, ← ih]
      simp only [join, paths, List.mem_cons, List.mem_append]
      exact or_left_comm

/-- A path that goes on over more blocks. -/
def Path.append (path : Path) (w : List BlockId) : Path :=
  { path with blocks := path.blocks ++ w }

@[simp] theorem Path.push_append (path : Path) (u : List BlockId) (b : BlockId) :
    (path.append u).push b = path.append (u ++ [b]) := by
  unfold append push
  rw [List.append_assoc]

namespace Program

section Walks

variable (p : Program) (boundary : List BlockId)

/-- A path ends with a block that returns, is unreachable at its end, or has no terminator. -/
def EndsRun (b : BlockId) : Prop :=
  p.terminatorOp? b = .ok none ∨ p.terminatorOp? b = .ok (some .unreachable) ∨
    ∃ v, p.terminatorOp? b = .ok (some (.ret v))

/-- A block that leads somewhere, but not to one block only. -/
def IsFork (b : BlockId) : Prop := p.successors b ≠ [] ∧ p.uniqueSuccessor? b = none

instance (b : BlockId) : Decidable (p.IsFork b) := inferInstanceAs (Decidable (_ ∧ _))

/-- Some block follows both. -/
def ShareSuccessor (a b : BlockId) : Prop := ∃ s ∈ p.successors a, s ∈ p.successors b

/-- The first fork of a walk. -/
def firstFork? (w : List BlockId) : Option BlockId := w.find? fun b => p.IsFork b

/-- A walk that continues `n` blocks stops at position `i`: at a boundary block that is not the
very first block of all, or where a path ends. -/
def StopsAt (n i : Nat) (b : BlockId) : Prop := (1 < n + i + 1 ∧ b ∈ boundary) ∨ p.EndsRun b

/-- **Admissible walks** from a block that continue `n` blocks. -/
structure Admissible (n : Nat) (start : BlockId) (w : List BlockId) : Prop where
  nodup : w.Nodup
  head : w.head? = some start
  linked : w.IsChain fun a b => b ∈ p.successors a
  running : ∀ i b, w[i]? = some b → i + 1 < w.length → ¬ p.StopsAt boundary n i b
  related : ∀ i b, w[i]? = some b → i + 1 < w.length → p.IsFork b →
    ∀ f, p.firstFork? w = some f → p.ShareSuccessor b f

/-- **Complete walks**: the last block is a stop, leads nowhere, is a fork unrelated to the first
one, or leads back into the walk. -/
def Complete (n : Nat) (w : List BlockId) : Prop :=
  ∃ b, w.getLast? = some b ∧
    (p.StopsAt boundary n (w.length - 1) b ∨ p.successors b = [] ∨
      (p.IsFork b ∧ ∃ f, p.firstFork? w = some f ∧ ¬ p.ShareSuccessor b f) ∨
      ∃ s ∈ p.successors b, s ∈ w)

/-- A walk over `u` that comes to `b` does not go on from there. -/
def Halts (n : Nat) (u : List BlockId) (b : BlockId) : Prop :=
  p.StopsAt boundary n u.length b ∨ p.successors b = [] ∨
    (p.IsFork b ∧ ∃ f, p.firstFork? u = some f ∧ ¬ p.ShareSuccessor b f)

/-- How a walk over `u` that comes to `b` may end. -/
inductive Completes (n : Nat) : List BlockId → BlockId → List BlockId → Prop
  /-- It has been there, and ends before it. -/
  | meet {u : List BlockId} {b : BlockId} (hb : b ∈ u) : Completes n u b u
  | halt {u : List BlockId} {b : BlockId} (hb : b ∉ u) (h : p.Halts boundary n u b) :
    Completes n u b (u ++ [b])
  | pass {u : List BlockId} {b s : BlockId} {w : List BlockId} (hb : b ∉ u)
      (h : ¬ p.Halts boundary n u b) (hs : s ∈ p.successors b)
      (hw : Completes n (u ++ [b]) s w) : Completes n u b w

end Walks

variable {p : Program} {boundary : List BlockId} {n : Nat} {start : BlockId}

/-! ## Forks -/

/-- The unique successor is the only one. -/
theorem mem_successors_iff_of_uniqueSuccessor?_eq_some {b next : BlockId}
    (h : p.uniqueSuccessor? b = some next) (s : BlockId) : s ∈ p.successors b ↔ s = next := by
  unfold uniqueSuccessor? at h
  cases hs : p.successors b with
  | nil =>
    rw [hs] at h
    simp [onlyOne?] at h
  | cons a rest =>
    rw [hs, onlyOne?, Option.ite_none_right_eq_some, Option.some.injEq, List.all_eq_true] at h
    obtain ⟨hall, rfl⟩ := h
    rw [List.mem_cons]
    exact or_iff_left_of_imp fun hmem => beq_iff_eq.mp (hall s hmem)

/-- A fork shares a successor with itself. -/
theorem IsFork.shareSuccessor_self {b : BlockId} (h : p.IsFork b) : p.ShareSuccessor b b := by
  obtain ⟨s, hs⟩ := List.exists_mem_of_ne_nil _ h.1
  exact ⟨s, hs, hs⟩

/-- The first fork of a longer walk is that of the walk, or else the added block if it is a
fork. -/
theorem firstFork?_append_singleton (u : List BlockId) (b : BlockId) :
    p.firstFork? (u ++ [b]) = (p.firstFork? u).or (if p.IsFork b then some b else none) := by
  unfold firstFork?
  rw [List.find?_append, List.find?_singleton]
  simp only [decide_eq_true_eq]

/-- A walk that has a fork keeps its first fork. -/
theorem firstFork?_append_of_eq_some {u v : List BlockId} {f : BlockId}
    (h : p.firstFork? u = some f) : p.firstFork? (u ++ v) = some f := by
  unfold firstFork? at *
  rw [List.find?_append, h, Option.some_or]

theorem exists_firstFork?_eq_some {u : List BlockId} {b : BlockId} (hb : b ∈ u)
    (h : p.IsFork b) : ∃ f, p.firstFork? u = some f := by
  unfold firstFork?
  rw [← Option.isSome_iff_exists, List.find?_isSome]
  exact ⟨b, hb, decide_eq_true h⟩

/-! ## Walks that grow -/

section Passed

variable (p boundary n start)

/-- Blocks that a walk may have passed: it does not stop at any of them. -/
structure Passed (u : List BlockId) : Prop where
  nodup : u.Nodup
  head : u.head? = none ∨ u.head? = some start
  linked : u.IsChain fun a b => b ∈ p.successors a
  running : ∀ i b, u[i]? = some b → ¬ p.StopsAt boundary n i b
  related : ∀ b ∈ u, p.IsFork b → ∀ f, p.firstFork? u = some f → p.ShareSuccessor b f

/-- Where a walk over `u` may come to. -/
def Next (u : List BlockId) (b : BlockId) : Prop :=
  (u = [] ∧ b = start) ∨ ∃ a, u.getLast? = some a ∧ b ∈ p.successors a

end Passed

theorem passed_nil : Passed p boundary n start [] where
  nodup := List.nodup_nil
  head := Or.inl rfl
  linked := List.isChain_nil
  running := by simp
  related := by simp

/-- The links and the head of a walk with one more block. -/
theorem isChain_append_singleton_iff {u : List BlockId} {b : BlockId} :
    ((u ++ [b]).IsChain (fun a b => b ∈ p.successors a) ∧ (u ++ [b]).head? = some start) ↔
      u.IsChain (fun a b => b ∈ p.successors a) ∧
        (u.head? = none ∨ u.head? = some start) ∧ Next p start u b := by
  unfold Next
  cases u with
  | nil => simp
  | cons a rest =>
    rw [List.isChain_append]
    simp only [List.isChain_singleton, true_and, List.head?_cons, List.cons_append,
      List.getLast?_cons, Option.mem_def, Option.some.injEq, forall_eq', reduceCtorEq, false_or,
      false_and, exists_eq_left']
    exact ⟨fun h => ⟨h.1.1, h.2, h.1.2⟩, fun h => ⟨⟨h.1, h.2.2⟩, h.2.1⟩⟩

/-- **One more block.** An admissible walk is one over blocks that it may pass, to a new block
that the last of them leads to. -/
theorem admissible_append_singleton_iff {u : List BlockId} {b : BlockId} :
    p.Admissible boundary n start (u ++ [b]) ↔
      Passed p boundary n start u ∧ b ∉ u ∧ Next p start u b := by
  have hget : ∀ {i : Nat} {x : BlockId}, u[i]? = some x →
      (u ++ [b])[i]? = some x ∧ i + 1 < (u ++ [b]).length := by
    intro i x hx
    have hi := (List.getElem?_eq_some_iff.mp hx).1
    rw [List.getElem?_append_left hi, List.length_append, List.length_singleton]
    exact ⟨hx, by omega⟩
  have hget' : ∀ {i : Nat} {x : BlockId}, (u ++ [b])[i]? = some x → i + 1 < (u ++ [b]).length →
      u[i]? = some x := by
    intro i x hx hi
    rw [List.length_append, List.length_singleton] at hi
    rwa [List.getElem?_append_left (by omega)] at hx
  constructor
  · intro h
    obtain ⟨hlinked, hhead, hnext⟩ := isChain_append_singleton_iff.mp ⟨h.linked, h.head⟩
    have hnodup := List.nodup_append.mp h.nodup
    refine ⟨⟨hnodup.1, hhead, hlinked, ?_, ?_⟩, ?_, hnext⟩
    · exact fun i x hx => h.running i x (hget hx).1 (hget hx).2
    · intro x hx hfork f hf
      obtain ⟨i, hi⟩ := List.mem_iff_getElem?.mp hx
      exact h.related i x (hget hi).1 (hget hi).2 hfork f (firstFork?_append_of_eq_some hf)
    · exact fun hb => hnodup.2.2 b hb b (List.mem_singleton_self b) rfl
  · rintro ⟨h, hb, hnext⟩
    obtain ⟨hlinked, hhead⟩ := isChain_append_singleton_iff.mpr ⟨h.linked, h.head, hnext⟩
    refine ⟨List.concat_eq_append ▸ h.nodup.concat hb, hhead, hlinked, ?_, ?_⟩
    · exact fun i x hx hi => h.running i x (hget' hx hi)
    · intro i x hx hi hfork f hf
      have hmem := List.mem_iff_getElem?.mpr ⟨i, hget' hx hi⟩
      -- a fork among the passed blocks makes the first fork one of them
      obtain ⟨g, hg⟩ := exists_firstFork?_eq_some hmem hfork
      rw [firstFork?_append_of_eq_some hg, Option.some.injEq] at hf
      exact h.related x hmem hfork f (hf ▸ hg)

/-- The blocks passed by an admissible walk, when it goes on from its last block. -/
theorem Passed.append_singleton {u : List BlockId} {b : BlockId}
    (h : Passed p boundary n start u) (hb : b ∉ u) (hnext : Next p start u b)
    (hgo : ¬ p.Halts boundary n u b) : Passed p boundary n start (u ++ [b]) := by
  have hadm := admissible_append_singleton_iff.mpr ⟨h, hb, hnext⟩
  -- the old positions keep what they had; at the new one, not halting is what each clause asks for
  refine ⟨hadm.nodup, Or.inr hadm.head, hadm.linked, fun i x hx => ?_, fun x hx hfork f hf => ?_⟩
  · rw [List.getElem?_append] at hx
    split at hx
    · exact h.running i x hx
    · obtain ⟨hi, rfl⟩ : i = u.length ∧ b = x := by
        rw [List.getElem?_singleton] at hx
        split at hx
        · exact ⟨by omega, Option.some.inj hx⟩
        · simp at hx
      exact fun hstop => hgo (Or.inl (hi ▸ hstop))
  · rcases List.mem_append.mp hx with hx | hx
    · obtain ⟨g, hg⟩ := exists_firstFork?_eq_some hx hfork
      rw [firstFork?_append_of_eq_some hg, Option.some.injEq] at hf
      exact h.related x hx hfork f (hf ▸ hg)
    · rw [List.mem_singleton.mp hx] at hfork ⊢
      rw [firstFork?_append_singleton, if_pos hfork] at hf
      cases hg : p.firstFork? u with
      | none =>
        rw [hg, Option.none_or, Option.some.injEq] at hf
        exact hf ▸ hfork.shareSuccessor_self
      | some g =>
        rw [hg, Option.some_or, Option.some.injEq] at hf
        by_contra hshare
        exact hgo (Or.inr (Or.inr ⟨hfork, f, hf ▸ hg, hshare⟩))

/-- An admissible walk that goes on after `b` has not halted there. -/
theorem Admissible.go_on {u v : List BlockId} {b s : BlockId}
    (h : p.Admissible boundary n start (u ++ b :: s :: v)) :
    b ∉ u ∧ ¬ p.Halts boundary n u b ∧ s ∈ p.successors b := by
  have hget : (u ++ b :: s :: v)[u.length]? = some b := by simp
  have hlen : u.length + 1 < (u ++ b :: s :: v).length := by simp
  have hs : s ∈ p.successors b := by
    have hlinked := (List.isChain_append.mp h.linked).2.1
    exact (List.isChain_cons_cons.mp hlinked).1
  refine ⟨fun hb => ?_, ?_, hs⟩
  · exact (List.nodup_append.mp h.nodup).2.2 b hb b List.mem_cons_self rfl
  · rintro (hstop | hnil | ⟨hfork, f, hf, hshare⟩)
    · exact h.running u.length b hget hlen hstop
    · rw [hnil] at hs
      simp at hs
    · exact hshare (h.related u.length b hget hlen hfork f (firstFork?_append_of_eq_some hf))

/-- **Where a walk is complete**: where it halts, or where its last block leads back into it. -/
theorem complete_append_singleton_iff {u : List BlockId} {b : BlockId} :
    p.Complete boundary n (u ++ [b]) ↔
      p.Halts boundary n u b ∨ ∃ s ∈ p.successors b, s ∈ u ++ [b] := by
  have hfork : (p.IsFork b ∧ ∃ f, p.firstFork? (u ++ [b]) = some f ∧ ¬ p.ShareSuccessor b f) ↔
      p.IsFork b ∧ ∃ f, p.firstFork? u = some f ∧ ¬ p.ShareSuccessor b f := by
    refine and_congr_right fun hb => ?_
    rw [firstFork?_append_singleton, if_pos hb]
    -- a block that is its walk's first fork is related to itself
    cases p.firstFork? u with
    | none => simpa using hb.shareSuccessor_self
    | some g => rfl
  unfold Complete Halts
  rw [List.getLast?_concat, List.length_append, List.length_singleton, Nat.add_sub_cancel]
  simp only [Option.some.injEq, exists_eq_left', hfork, or_assoc]

/-- **How a walk may end**: before a block it has been at, or as a complete admissible walk
through the block it comes to. -/
theorem completes_iff {u w : List BlockId} {b : BlockId} (h : Passed p boundary n start u)
    (hnext : Next p start u b) :
    p.Completes boundary n u b w ↔
      (w = u ∧ b ∈ u) ∨
        ∃ v, w = u ++ b :: v ∧ p.Admissible boundary n start w ∧ p.Complete boundary n w := by
  constructor
  · -- by induction on the walk: what it has passed may be passed at every step
    intro hw
    induction hw with
    | meet hb => exact Or.inl ⟨rfl, hb⟩
    | @halt u b hb hhalt =>
      exact Or.inr ⟨[], rfl, admissible_append_singleton_iff.mpr ⟨h, hb, hnext⟩,
        complete_append_singleton_iff.mpr (Or.inl hhalt)⟩
    | @pass u b s w hb hgo hs _ ih =>
      have hlast : Next p start (u ++ [b]) s := Or.inr ⟨b, List.getLast?_concat, hs⟩
      rcases ih (h.append_singleton hb hnext hgo) hlast with ⟨rfl, hmem⟩ | ⟨v, hv, hw⟩
      · exact Or.inr ⟨[], rfl, admissible_append_singleton_iff.mpr ⟨h, hb, hnext⟩,
          complete_append_singleton_iff.mpr (Or.inr ⟨s, hs, hmem⟩)⟩
      · exact Or.inr ⟨s :: v, by rw [hv, List.append_assoc, List.singleton_append], hw⟩
  · rintro (⟨rfl, hb⟩ | ⟨v, rfl, hadm, hcomp⟩)
    · exact .meet hb
    -- by induction on what is left of the walk after `b`
    · induction v generalizing u b with
      | nil =>
        have hb := (admissible_append_singleton_iff.mp hadm).2.1
        rcases complete_append_singleton_iff.mp hcomp with hhalt | ⟨s, hs, hmem⟩
        · exact .halt hb hhalt
        · by_cases hhalt : p.Halts boundary n u b
          · exact .halt hb hhalt
          · exact .pass hb hhalt hs (.meet hmem)
      | cons s v ih =>
        obtain ⟨hb, hgo, hs⟩ := hadm.go_on
        have hlast : Next p start (u ++ [b]) s := Or.inr ⟨b, List.getLast?_concat, hs⟩
        rw [List.append_cons] at hadm hcomp ⊢
        exact .pass hb hgo hs (ih (h.append_singleton hb hnext hgo) hlast hadm hcomp)

/-- The walks from a start are its complete admissible walks. -/
theorem completes_nil_iff {w : List BlockId} :
    p.Completes boundary n [] start w ↔
      p.Admissible boundary n start w ∧ p.Complete boundary n w := by
  rw [completes_iff passed_nil (Or.inl ⟨rfl, rfl⟩)]
  constructor
  · rintro (⟨-, hmem⟩ | ⟨v, -, hw⟩)
    · simp at hmem
    · exact hw
  · intro hw
    obtain ⟨v, hv⟩ := List.head?_eq_some_iff.mp hw.1.head
    exact Or.inr ⟨v, hv, hw⟩

/-! ## The search -/

/-- A path that comes back to one of its blocks ends there. -/
theorem completes_of_mem {u w : List BlockId} {b : BlockId} (hb : b ∈ u) :
    p.Completes boundary n u b w ↔ w = u := by
  constructor
  · rintro (_ | ⟨hn, _⟩ | ⟨hn, _, _, _⟩)
    · rfl
    · exact absurd hb hn
    · exact absurd hb hn
  · rintro rfl
    exact .meet hb

/-- A path that has to halt ends with the block where it halts. -/
theorem completes_of_halts {u w : List BlockId} {b : BlockId} (hb : b ∉ u)
    (h : p.Halts boundary n u b) : p.Completes boundary n u b w ↔ w = u ++ [b] := by
  constructor
  · rintro (⟨hm⟩ | _ | ⟨_, hn, _, _⟩)
    · exact absurd hm hb
    · rfl
    · exact absurd h hn
  · rintro rfl
    exact .halt hb h

/-- Any other path goes on to some successor. -/
theorem completes_of_not_halts {u w : List BlockId} {b : BlockId} (hb : b ∉ u)
    (h : ¬ p.Halts boundary n u b) :
    p.Completes boundary n u b w ↔
      ∃ s ∈ p.successors b, p.Completes boundary n (u ++ [b]) s w := by
  constructor
  · rintro (⟨hm⟩ | ⟨_, hn⟩ | ⟨_, _, hs, hw⟩)
    · exact absurd hm hb
    · exact absurd hn h
    · exact ⟨_, hs, hw⟩
  · rintro ⟨s, hs, hw⟩
    exact .pass hb h hs hw

/-- Whether a path ends with a block that exists. -/
theorem exists_endsPath_eq_ok (hp : p.toArena.Closed) {b : BlockId}
    (hb : b.index < p.blocks.size) : ∃ e, p.endsPath b = .ok e ∧ (e = true ↔ p.EndsRun b) := by
  obtain ⟨t, ht⟩ := exists_terminatorOp?_eq_ok hp hb
  unfold endsPath EndsRun
  rw [ht, Checked.ok_bind]
  cases t with
  | none => exact ⟨true, rfl, by simp⟩
  | some op => cases op <;> exact ⟨_, rfl, by simp⟩

/-- A fork may be followed unless the first fork is unrelated to it. -/
theorem mayFork_eq_true_iff {first : Option BlockId} {b : BlockId} :
    p.mayFork first b = true ↔ ∀ f, first = some f → p.ShareSuccessor b f := by
  cases first with
  | none => simp [mayFork]
  | some f => simp [mayFork, ShareSuccessor]

section Search

variable {seed : Path} {steps : Nat} {u : List BlockId} {b : BlockId}

theorem walk_of_mem {path : Path} {first : Option BlockId} (hb : b ∈ u) :
    p.walk boundary (steps + 1) path u.reverse first b = .ok ⟨path, []⟩ := by
  unfold walk
  rw [if_pos (List.mem_reverse.mpr hb)]
  rfl

/-- A walk ends with the block where it stops. -/
theorem walk_of_stopsAt (hp : p.toArena.Closed) (hlt : b.index < p.blocks.size) (hb : b ∉ u)
    {first : Option BlockId} (h : p.StopsAt boundary seed.blocks.length u.length b) :
    p.walk boundary (steps + 1) (seed.append u) u.reverse first b =
      .ok ⟨seed.append (u ++ [b]), []⟩ := by
  obtain ⟨e, he, hends⟩ := exists_endsPath_eq_ok hp hlt
  unfold walk
  rw [if_neg (mt List.mem_reverse.mp hb), Path.push_append]
  dsimp only
  split
  · rfl
  · rename_i hbound
    have hrun : p.EndsRun b := by
      refine h.resolve_left fun hpos => hbound ⟨?_, hpos.2⟩
      simpa [Path.append, Nat.add_assoc] using hpos.1
    rw [he, Checked.ok_bind, if_pos (hends.mpr hrun)]
    rfl

/-- A walk that does not stop at a new block looks at where the block leads. -/
theorem walk_of_not_stopsAt (hp : p.toArena.Closed) (hlt : b.index < p.blocks.size) (hb : b ∉ u)
    {first : Option BlockId} (h : ¬ p.StopsAt boundary seed.blocks.length u.length b) :
    p.walk boundary (steps + 1) (seed.append u) u.reverse first b =
      match p.uniqueSuccessor? b with
      | some next => p.walk boundary steps (seed.append (u ++ [b])) (u ++ [b]).reverse first next
      | none =>
        if p.mayFork first b then do
          let walks ← (p.successors b).mapM (p.walk boundary steps (seed.append (u ++ [b]))
            (u ++ [b]).reverse (some (first.getD b)))
          return Walk.join (seed.append (u ++ [b])) walks
        else return ⟨seed.append (u ++ [b]), []⟩ := by
  obtain ⟨e, he, hends⟩ := exists_endsPath_eq_ok hp hlt
  have hbound : ¬ ((seed.append (u ++ [b])).blocks.length > 1 ∧ b ∈ boundary) := by
    refine fun hpos => h (Or.inl ⟨?_, hpos.2⟩)
    simpa [Path.append, Nat.add_assoc] using hpos.1
  have hrun : ¬ e = true := fun htrue => h (Or.inr (hends.mp htrue))
  rw [List.reverse_concat]
  nth_rewrite 1 [walk]
  rw [if_neg (mt List.mem_reverse.mp hb), Path.push_append]
  dsimp only
  rw [if_neg hbound, he, Checked.ok_bind]
  exact if_neg hrun

/-- Distinct blocks of a program are no more than it has. -/
theorem length_le_size (hu : u.Nodup) (hlt : ∀ c ∈ u, c.index < p.blocks.size) :
    u.length ≤ p.blocks.size := by
  have hsub : u ⊆ (List.range p.blocks.size).map BlockId.mk := fun c hc =>
    List.mem_map.mpr ⟨c.index, List.mem_range.mpr (hlt c hc), rfl⟩
  simpa using (hu.subperm hsub).length_le

/-- A search has a result, and its paths are the ways that a walk over `u` may end when it comes
to `b`. -/
def Finds (p : Program) (boundary : List BlockId) (seed : Path) (u : List BlockId) (b : BlockId)
    (r : Checked Walk) : Prop :=
  ∃ w, r = .ok w ∧ ∀ q, q ∈ w.paths ↔
    ∃ full, p.Completes boundary seed.blocks.length u b full ∧ q = seed.append full

/-- A walk that has one way to end finds it. -/
theorem finds_singleton {full : List BlockId}
    (h : ∀ w, p.Completes boundary seed.blocks.length u b w ↔ w = full) :
    p.Finds boundary seed u b (.ok ⟨seed.append full, []⟩) := by
  refine ⟨_, rfl, fun q => ?_⟩
  simp only [h, exists_eq_left, Walk.paths, List.mem_singleton]

/-- **The walks into the successors of a block, joined**, are the walks through the block. -/
theorem finds_join {f : BlockId → Checked Walk} (hb : b ∉ u)
    (hgo : ¬ p.Halts boundary seed.blocks.length u b)
    (h : ∀ s ∈ p.successors b, p.Finds boundary seed (u ++ [b]) s (f s)) (here : Path) :
    p.Finds boundary seed u b (do return Walk.join here (← (p.successors b).mapM f)) := by
  obtain ⟨ws, hws, hmem⟩ := Checked.exists_mapM_eq_ok fun s hs => (h s hs).imp fun _ hw => hw.1
  have hne : ws ≠ [] := by
    obtain ⟨s, hs⟩ := List.exists_mem_of_ne_nil _ fun hnil => hgo (Or.inr (Or.inl hnil))
    obtain ⟨w, hw, -⟩ := h s hs
    exact List.ne_nil_of_mem ((hmem w).mpr ⟨s, hs, hw⟩)
  refine ⟨Walk.join here ws, by rw [hws, Checked.ok_bind, Checked.pure_eq_ok], fun q => ?_⟩
  rw [Walk.mem_paths_join hne]
  simp only [completes_of_not_halts hb hgo]
  constructor
  · rintro ⟨w, hw, hq⟩
    obtain ⟨s, hs, hfs⟩ := (hmem w).mp hw
    obtain ⟨w', hw', hpaths⟩ := h s hs
    obtain rfl := Except.ok.inj (hfs.symm.trans hw')
    obtain ⟨full, hfull, rfl⟩ := (hpaths q).mp hq
    exact ⟨full, ⟨s, hs, hfull⟩, rfl⟩
  · rintro ⟨full, ⟨s, hs, hfull⟩, rfl⟩
    obtain ⟨w, hw, hpaths⟩ := h s hs
    exact ⟨w, (hmem w).mpr ⟨s, hs, hw⟩, (hpaths _).mpr ⟨full, hfull, rfl⟩⟩

/-- From a new block where it does not stop, a walk finds every way to end, if the walks from
the block's successors do. -/
theorem walk_finds_of_not_stopsAt (hp : p.toArena.Closed) (hlt : b.index < p.blocks.size)
    (hb : b ∉ u) (hstop : ¬ p.StopsAt boundary seed.blocks.length u.length b)
    (hnext : ∀ s ∈ p.successors b, p.Finds boundary seed (u ++ [b]) s
      (p.walk boundary steps (seed.append (u ++ [b])) (u ++ [b]).reverse
        (p.firstFork? (u ++ [b])) s)) :
    p.Finds boundary seed u b
      (p.walk boundary (steps + 1) (seed.append u) u.reverse (p.firstFork? u) b) := by
  rw [walk_of_not_stopsAt hp hlt hb hstop]
  rw [firstFork?_append_singleton] at hnext
  cases hunique : p.uniqueSuccessor? b with
  | some next =>
    have hmem := mem_successors_iff_of_uniqueSuccessor?_eq_some hunique
    have hfork : ¬ p.IsFork b := fun h => by simp [h.2] at hunique
    have hgo : ¬ p.Halts boundary seed.blocks.length u b := by
      rintro (h | h | h)
      · exact hstop h
      · simpa [h] using hmem next
      · exact hfork h.1
    obtain ⟨w, hw, hpaths⟩ := hnext next ((hmem next).mpr rfl)
    rw [if_neg hfork, Option.or_none] at hw
    refine ⟨w, hw, fun q => (hpaths q).trans ?_⟩
    simp only [completes_of_not_halts hb hgo, hmem, exists_eq_left]
  | none =>
    dsimp only
    by_cases hnil : p.successors b = []
    · -- a block that leads nowhere ends the walk, whether or not it may fork
      have hhalt : p.Halts boundary seed.blocks.length u b := Or.inr (Or.inl hnil)
      rw [hnil, List.mapM_nil, pure_bind, Walk.join, ite_self]
      exact finds_singleton fun _ => completes_of_halts hb hhalt
    have hfork : p.IsFork b := ⟨hnil, hunique⟩
    rw [if_pos hfork] at hnext
    by_cases hmay : p.mayFork (p.firstFork? u) b = true
    · have hgo : ¬ p.Halts boundary seed.blocks.length u b := by
        rintro (h | h | ⟨-, f, hf, hshare⟩)
        · exact hstop h
        · exact hnil h
        · exact hshare (mayFork_eq_true_iff.mp hmay f hf)
      have hfirst : (p.firstFork? u).or (some b) = some ((p.firstFork? u).getD b) := by
        cases p.firstFork? u <;> rfl
      rw [if_pos hmay]
      exact finds_join hb hgo (hfirst ▸ hnext) _
    · have hhalt : p.Halts boundary seed.blocks.length u b := by
        rw [mayFork_eq_true_iff] at hmay
        push Not at hmay
        exact Or.inr (Or.inr ⟨hfork, hmay⟩)
      rw [if_neg hmay]
      exact finds_singleton fun _ => completes_of_halts hb hhalt

/-- **The search finds every way to end.** Each step passes one more block of the program, so
its steps last. -/
theorem walk_finds (hp : p.toArena.Closed)
    (hedge : ∀ b, ∀ s ∈ p.successors b, s.index < p.blocks.size) (steps : Nat) :
    ∀ (u : List BlockId) (b : BlockId), u.Nodup → (∀ c ∈ u, c.index < p.blocks.size) →
      b.index < p.blocks.size → p.blocks.size + 1 ≤ steps + u.length →
      p.Finds boundary seed u b
        (p.walk boundary steps (seed.append u) u.reverse (p.firstFork? u) b) := by
  induction steps with
  | zero =>
    -- more distinct blocks would have been passed than there are
    intro u b hu hlt _ hsteps
    have hle := length_le_size hu hlt
    omega
  | succ steps ih =>
    intro u b hu hlt hblt hsteps
    by_cases hb : b ∈ u
    · rw [walk_of_mem hb]
      exact finds_singleton fun _ => completes_of_mem hb
    by_cases hstop : p.StopsAt boundary seed.blocks.length u.length b
    · rw [walk_of_stopsAt hp hblt hb hstop]
      exact finds_singleton fun _ => completes_of_halts hb (Or.inl hstop)
    refine walk_finds_of_not_stopsAt hp hblt hb hstop fun s hs => ?_
    refine ih (u ++ [b]) s (List.concat_eq_append ▸ hu.concat hb) (fun c hc => ?_) (hedge b s hs) ?_
    · rcases List.mem_append.mp hc with hc | hc
      · exact hlt c hc
      · rwa [List.mem_singleton.mp hc]
    · rw [List.length_append, List.length_singleton]
      omega

end Search

/-- **A walk extends its path**, whatever the program is like: by its block and by blocks from there
on, of which the first is a successor of it. Only a walk that may not take its block keeps its path
as it is. -/
theorem extends_of_mem_walk {steps : Nat} {path : Path} {visited : List BlockId}
    {first : Option BlockId} {b : BlockId} {w : Walk}
    (h : p.walk boundary steps path visited first b = .ok w) {q : Path} (hq : q ∈ w.paths) :
    (q = path ∧ (steps = 0 ∨ b ∈ visited)) ∨
      ∃ rest, q = path.append (b :: rest) ∧ ∀ s ∈ rest.head?, s ∈ p.successors b := by
  induction steps generalizing path visited first b w q with
  | zero =>
    obtain rfl := Except.ok.inj h
    exact Or.inl ⟨List.mem_singleton.mp hq, Or.inl rfl⟩
  | succ steps ih =>
    have hstop : ∀ {q}, q ∈ Walk.paths ⟨path.push b, []⟩ →
        ∃ rest, q = path.append (b :: rest) ∧ ∀ s ∈ rest.head?, s ∈ p.successors b :=
      fun hq => ⟨[], List.mem_singleton.mp hq, nofun⟩
    -- a walk into a successor has that block next, unless it was visited before
    have hnext : ∀ {first s w}, s ∈ p.successors b →
        p.walk boundary steps (path.push b) (b :: visited) first s = .ok w → q ∈ w.paths →
        ∃ rest, q = path.append (b :: rest) ∧ ∀ s ∈ rest.head?, s ∈ p.successors b := by
      intro first s w hs hw hq
      rcases ih hw hq with ⟨rfl, -⟩ | ⟨rest, rfl, -⟩
      · exact hstop (List.mem_singleton_self _)
      · refine ⟨s :: rest, by simp [Path.push, Path.append], fun t ht => ?_⟩
        exact Option.some.inj ht ▸ hs
    unfold walk at h
    split at h
    case isTrue hvisited =>
      obtain rfl := Except.ok.inj h
      exact Or.inl ⟨List.mem_singleton.mp hq, Or.inr hvisited⟩
    case isFalse =>
      right
      dsimp only at h
      split at h
      · obtain rfl := Except.ok.inj h
        exact hstop hq
      obtain ⟨ends, -, h⟩ := Checked.bind_eq_ok_iff.mp h
      split at h
      · obtain rfl := Except.ok.inj h
        exact hstop hq
      split at h
      case h_1 next hunique =>
        exact hnext ((mem_successors_iff_of_uniqueSuccessor?_eq_some hunique next).mpr rfl) h hq
      case h_2 =>
        split at h
        · simp only [Checked.bind_eq_ok_iff, Checked.pure_eq_ok, Except.ok.injEq] at h
          obtain ⟨walks, hwalks, rfl⟩ := h
          by_cases hnil : walks = []
          · subst hnil
            exact hstop hq
          · obtain ⟨w, hw, hq⟩ := (Walk.mem_paths_join hnil q).mp hq
            obtain ⟨s, hs, hw⟩ := Checked.exists_of_mem_mapM hwalks hw
            exact hnext hs hw hq
        · obtain rfl := Except.ok.inj h
          exact hstop hq

/-- **A path goes on from its seed** with the block that it starts at. -/
theorem extends_of_mem_pathsFrom {seed : Path} {paths : List Path}
    (h : p.pathsFrom boundary start seed = .ok paths) {q : Path} (hq : q ∈ paths) :
    ∃ rest, q = seed.append (start :: rest) ∧ ∀ s ∈ rest.head?, s ∈ p.successors start := by
  simp only [pathsFrom, Checked.bind_eq_ok_iff, Checked.pure_eq_ok, Except.ok.injEq] at h
  obtain ⟨w, hw, rfl⟩ := h
  refine (extends_of_mem_walk hw hq).resolve_left ?_
  rintro ⟨-, hsteps | hvisited⟩
  · cases hsteps
  · cases hvisited

theorem reason_of_mem_pathsFrom {seed : Path} {paths : List Path}
    (h : p.pathsFrom boundary start seed = .ok paths) {q : Path} (hq : q ∈ paths) :
    q.reason = seed.reason := by
  obtain ⟨rest, rfl, -⟩ := extends_of_mem_pathsFrom h hq
  rfl

/-- **Path enumeration is exact.** In a program that has been built, the enumeration from a block
that exists has a result. Its paths are the blocks of the seed followed by each complete
admissible walk, and every one of them keeps the reason of the seed. -/
theorem pathsFrom_exact {ds : List Directive} (h : build ds = .ok p) (boundary : List BlockId)
    (hstart : start.index < p.blocks.size) (seed : Path) :
    ∃ paths, p.pathsFrom boundary start seed = .ok paths ∧
      (∀ blocks, (∃ q ∈ paths, q.blocks = blocks) ↔
        ∃ w, p.Admissible boundary seed.blocks.length start w ∧
          p.Complete boundary seed.blocks.length w ∧ blocks = seed.blocks ++ w) ∧
      ∀ q ∈ paths, q.reason = seed.reason := by
  obtain ⟨w, hw, hpaths⟩ := walk_finds (closed_of_build h)
    (fun b s hs => lt_of_mem_successors h hs) (p.blocks.size + 1) [] start List.nodup_nil
    (by simp) hstart (Nat.le_refl _)
  have hseed : seed.append [] = seed := by simp [Path.append]
  have hmem : ∀ q, q ∈ w.paths ↔ ∃ full, (p.Admissible boundary seed.blocks.length start full ∧
      p.Complete boundary seed.blocks.length full) ∧ q = seed.append full := by
    simpa only [completes_nil_iff] using hpaths
  refine ⟨w.paths, ?_, fun blocks => ⟨?_, ?_⟩, fun q hq => ?_⟩
  · rw [hseed] at hw
    unfold pathsFrom
    rw [show p.walk boundary _ seed [] none start = .ok w from hw]
    rfl
  · rintro ⟨q, hq, rfl⟩
    obtain ⟨full, ⟨hadm, hcomp⟩, rfl⟩ := (hmem q).mp hq
    exact ⟨full, hadm, hcomp, rfl⟩
  · rintro ⟨full, hadm, hcomp, rfl⟩
    exact ⟨seed.append full, (hmem _).mpr ⟨full, ⟨hadm, hcomp⟩, rfl⟩, rfl⟩
  · obtain ⟨full, -, rfl⟩ := (hmem q).mp hq
    rfl

/-- A loop with a way out: the entry and the block after it fork to a block that they share. -/
def forkingLoop : List Directive :=
  [.module "m", .declare ⟨0⟩ "f" [] (.int 32),
    .define ⟨0⟩ [.block, .block, .block, .block,
      .moveTo ⟨0⟩, .branch .undef ⟨1⟩ ⟨2⟩,
      .moveTo ⟨1⟩, .branch .undef ⟨2⟩ ⟨3⟩,
      .moveTo ⟨2⟩, .jump ⟨0⟩,
      .moveTo ⟨3⟩, .ret none]]

/-- The forking loop has three complete admissible walks, if the shared block is the boundary: two
end there and one returns. -/
theorem forkingLoop_walks :
    ∃ p, build forkingLoop = .ok p ∧ 0 < p.blocks.size ∧
      ∀ blocks, (blocks = [⟨3⟩, ⟨0⟩, ⟨2⟩] ∨ blocks = [⟨3⟩, ⟨0⟩, ⟨1⟩, ⟨3⟩] ∨
          blocks = [⟨3⟩, ⟨0⟩, ⟨1⟩, ⟨2⟩]) ↔
        ∃ w, p.Admissible [⟨2⟩] 1 ⟨0⟩ w ∧ p.Complete [⟨2⟩] 1 w ∧ blocks = ⟨3⟩ :: w := by
  obtain ⟨p, hp, hfound, hsize⟩ : ∃ p, build forkingLoop = .ok p ∧
      p.pathsFrom [⟨2⟩] ⟨0⟩ ⟨[⟨3⟩], none⟩ =
        .ok [⟨[⟨3⟩, ⟨0⟩, ⟨2⟩], none⟩, ⟨[⟨3⟩, ⟨0⟩, ⟨1⟩, ⟨3⟩], none⟩, ⟨[⟨3⟩, ⟨0⟩, ⟨1⟩, ⟨2⟩], none⟩] ∧
      p.blocks.size = 4 := by decide +kernel
  have hpos : 0 < p.blocks.size := by omega
  obtain ⟨paths, hpaths, hexact, -⟩ := pathsFrom_exact hp [⟨2⟩] hpos ⟨[⟨3⟩], none⟩
  obtain rfl := Except.ok.inj (hfound.symm.trans hpaths)
  refine ⟨p, hp, hpos, fun blocks => ?_⟩
  simpa [eq_comm] using hexact blocks

end Program

end ErrorReturns
