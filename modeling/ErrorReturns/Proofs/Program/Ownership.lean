import ErrorReturns.Proofs.Program.Writing
import Mathlib.Data.List.Nodup
import Mathlib.Data.List.Perm.Lattice

/-!
# Who owns what

Modules list their functions, functions their blocks and blocks their instructions, and each of
these records in turn where it belongs. On all three levels the two views say the same: the list
of an owner names exactly the things that record it, in the order of their creation (`Owns`). A
thing is created together with its place in the list of its owner, and an owner is created with
an empty list before anything can record it, so every edit of the arenas keeps this
(`Arena.owned_of_edits`). It follows that each name stands in exactly one list, and there once
(`Owns.flatMap_perm`).
-/

namespace ErrorReturns

theorem FuncId.mk_injective : Function.Injective FuncId.mk := fun _ _ h => FuncId.mk.inj h

theorem BlockId.mk_injective : Function.Injective BlockId.mk := fun _ _ h => BlockId.mk.inj h

theorem InstId.mk_injective : Function.Injective InstId.mk := fun _ _ h => InstId.mk.inj h

section Owns

variable {α β ι : Type}

/-- The places of the things that record the owner at place `n`, in increasing order. -/
def placesOf (things : Array β) (owner : β → Nat) (n : Nat) : List Nat :=
  (List.range things.size).filter fun k => things[k]?.map owner == some n

theorem mem_placesOf {things : Array β} {owner : β → Nat} {n k : Nat} :
    k ∈ placesOf things owner n ↔ ∃ y, things[k]? = some y ∧ owner y = n := by
  rw [placesOf, List.mem_filter, List.mem_range, beq_iff_eq, Option.map_eq_some_iff]
  refine and_iff_right_of_imp ?_
  rintro ⟨y, hy, -⟩
  exact (Array.getElem?_eq_some_iff.mp hy).1

/-- A thing that is added is placed at the end of the list of its owner. -/
@[simp] theorem placesOf_push (things : Array β) (owner : β → Nat) (n : Nat) (y : β) :
    placesOf (things.push y) owner n =
      placesOf things owner n ++ if owner y = n then [things.size] else [] := by
  have hold : ∀ k ∈ List.range things.size,
      ((things.push y)[k]?.map owner == some n) = (things[k]?.map owner == some n) := by
    intro k hk
    rw [Array.getElem?_push_lt (List.mem_range.mp hk),
      Array.getElem?_eq_getElem (List.mem_range.mp hk)]
  rw [placesOf, Array.size_push, List.range_succ, List.filter_append, List.filter_congr hold]
  refine congrArg (placesOf things owner n ++ ·) ?_
  by_cases hn : owner y = n <;> simp [hn]

/-- A change that leaves the owners alone does not move anything. -/
theorem placesOf_congr {things things' : Array β} {owner : β → Nat}
    (h : ∀ k : Nat, things'[k]?.map owner = things[k]?.map owner) (n : Nat) :
    placesOf things' owner n = placesOf things owner n := by
  have hmap : things'.map owner = things.map owner := by
    refine Array.ext_getElem? fun k => ?_
    rw [Array.getElem?_map, Array.getElem?_map, h k]
  have hsize : things'.size = things.size := by simpa using congrArg Array.size hmap
  rw [placesOf, placesOf, hsize]
  exact List.filter_congr fun k _ => by rw [h k]

/-- **Ownership.** Everything records an owner that exists, and the list of an owner holds the
names of the things that record it. -/
structure Owns (owners : Array α) (list : α → List ι) (things : Array β) (owner : β → Nat)
    (name : Nat → ι) : Prop where
  owner_lt : ∀ y ∈ things, owner y < owners.size
  list_eq : ∀ n x, owners[n]? = some x → list x = (placesOf things owner n).map name

namespace Owns

variable {owners : Array α} {list : α → List ι} {things : Array β} {owner : β → Nat}
  {name : Nat → ι}

theorem empty : Owns (#[] : Array α) list (#[] : Array β) owner name :=
  ⟨fun _ hy => absurd hy (Array.not_mem_empty _), fun _ _ h => by simp at h⟩

/-- A new owner has nothing yet, and nothing can have recorded it. -/
theorem push_owner (h : Owns owners list things owner name) {x : α} (hx : list x = []) :
    Owns (owners.push x) list things owner name where
  owner_lt y hy := by
    rw [Array.size_push]
    exact Nat.lt_succ_of_lt (h.owner_lt y hy)
  list_eq n z hz := by
    rw [Array.getElem?_push] at hz
    split at hz
    case isTrue hn =>
      obtain rfl := Option.some.inj hz
      have hnone : placesOf things owner n = [] := by
        refine List.eq_nil_iff_forall_not_mem.mpr fun k hk => ?_
        obtain ⟨y, hy, hyn⟩ := mem_placesOf.mp hk
        have := h.owner_lt y (Array.mem_of_getElem? hy)
        omega
      rw [hx, hnone, List.map_nil]
    case isFalse => exact h.list_eq n z hz

/-- A new thing goes to the end of the list of its owner. -/
theorem push_thing (h : Owns owners list things owner name) {y : β} (hy : owner y < owners.size)
    {f : α → α} (hf : ∀ x, list (f x) = list x ++ [name things.size]) :
    Owns (owners.modify (owner y) f) list (things.push y) owner name where
  owner_lt z hz := by
    rw [Array.size_modify]
    rcases Array.mem_push.mp hz with hz | rfl
    · exact h.owner_lt z hz
    · exact hy
  list_eq n x hx := by
    rw [placesOf_push, List.map_append]
    rw [Array.getElem?_modify] at hx
    split at hx
    case isTrue hn =>
      obtain ⟨x', hx', rfl⟩ := Option.map_eq_some_iff.mp hx
      rw [if_pos hn, hf, h.list_eq n x' hx', List.map_singleton]
    case isFalse hn => rw [if_neg hn, h.list_eq n x hx, List.map_nil, List.append_nil]

/-- Owners may change in other ways than in what they list. -/
theorem modify_owner (h : Owns owners list things owner name) {k : Nat} {f : α → α}
    (hf : ∀ x, list (f x) = list x) : Owns (owners.modify k f) list things owner name where
  owner_lt y hy := by
    rw [Array.size_modify]
    exact h.owner_lt y hy
  list_eq n x hx := by
    rw [Array.getElem?_modify] at hx
    split at hx
    · obtain ⟨x', hx', rfl⟩ := Option.map_eq_some_iff.mp hx
      rw [hf, h.list_eq n x' hx']
    · exact h.list_eq n x hx

/-- Things may change in other ways than in whom they record. -/
theorem modify_thing (h : Owns owners list things owner name) {k : Nat} {f : β → β}
    (hf : ∀ y, owner (f y) = owner y) : Owns owners list (things.modify k f) owner name where
  owner_lt y hy := by
    obtain ⟨j, hj⟩ := Array.mem_iff_getElem?.mp hy
    rw [Array.getElem?_modify] at hj
    split at hj
    · obtain ⟨y', hy', rfl⟩ := Option.map_eq_some_iff.mp hj
      rw [hf]
      exact h.owner_lt y' (Array.mem_of_getElem? hy')
    · exact h.owner_lt y (Array.mem_of_getElem? hj)
  list_eq n x hx := by
    rw [h.list_eq n x hx, placesOf_congr]
    intro j
    rw [Array.getElem?_modify]
    split
    · rw [Option.map_map]
      exact congrArg (Option.map · things[j]?) (funext fun y => (hf y).symm)
    · rfl

/-! ## One place for each -/

variable (h : Owns owners list things owner name) (hname : Function.Injective name)
include h hname

/-- A name is in the list of an owner exactly when its bearer records that owner. -/
theorem mem_list_iff {n k : Nat} {x : α} (hx : owners[n]? = some x) :
    name k ∈ list x ↔ ∃ y, things[k]? = some y ∧ owner y = n := by
  rw [h.list_eq n x hx, List.mem_map_of_injective hname, mem_placesOf]

/-- Everything is in the list of its owner. -/
theorem exists_mem_list {k : Nat} {y : β} (hy : things[k]? = some y) :
    ∃ x, owners[owner y]? = some x ∧ name k ∈ list x := by
  have hlt := h.owner_lt y (Array.mem_of_getElem? hy)
  exact ⟨owners[owner y], Array.getElem?_eq_getElem hlt,
    (h.mem_list_iff hname (Array.getElem?_eq_getElem hlt)).mpr ⟨y, hy, rfl⟩⟩

theorem list_nodup {n : Nat} {x : α} (hx : owners[n]? = some x) : (list x).Nodup := by
  rw [h.list_eq n x hx]
  exact (List.nodup_range.filter _).map hname

/-- **Nothing is owned twice.** -/
theorem flatMap_nodup : (owners.toList.flatMap list).Nodup := by
  rw [List.nodup_flatMap]
  constructor
  · intro x hx
    obtain ⟨n, hn⟩ := List.mem_iff_getElem?.mp hx
    exact h.list_nodup hname (by simpa using hn)
  · -- a name in the lists of two owners would record both
    refine List.pairwise_iff_getElem.mpr fun m n hm hn hmn a ha hb => ?_
    have hxm : owners[m]? = some owners.toList[m] := by simp [Array.length_toList ▸ hm]
    have hxn : owners[n]? = some owners.toList[n] := by simp [Array.length_toList ▸ hn]
    rw [h.list_eq m _ hxm] at ha
    obtain ⟨k, -, rfl⟩ := List.mem_map.mp ha
    rw [← h.list_eq m _ hxm, h.mem_list_iff hname hxm] at ha
    obtain ⟨y, hy, hym⟩ := ha
    obtain ⟨z, hz, hzn⟩ := (h.mem_list_iff hname hxn).mp hb
    obtain rfl := Option.some.inj (hy.symm.trans hz)
    omega

/-- **Everything is listed once.** The lists of all owners together hold the name of everything,
once, and nothing else. -/
theorem flatMap_perm : (owners.toList.flatMap list).Perm ((List.range things.size).map name) := by
  refine (List.perm_ext_iff_of_nodup (h.flatMap_nodup hname) (List.nodup_range.map hname)).mpr ?_
  intro a
  rw [List.mem_flatMap, List.mem_map]
  constructor
  · rintro ⟨x, hx, ha⟩
    obtain ⟨n, hn⟩ := List.mem_iff_getElem?.mp hx
    rw [h.list_eq n x (by simpa using hn)] at ha
    obtain ⟨k, hk, rfl⟩ := List.mem_map.mp ha
    exact ⟨k, (List.mem_filter.mp hk).1, rfl⟩
  · rintro ⟨k, hk, rfl⟩
    have hk : k < things.size := List.mem_range.mp hk
    obtain ⟨x, hx, hmem⟩ := h.exists_mem_list hname (Array.getElem?_eq_getElem hk)
    exact ⟨x, Array.mem_toList_iff.mpr (Array.mem_of_getElem? hx), hmem⟩

end Owns

end Owns

namespace Arena

/-- **Everything in the arenas has its place**: functions in modules, blocks in functions and
instructions in blocks. -/
structure Owned (a : Arena) : Prop where
  functions : Owns a.modules Module.functions a.functions (·.module.index) FuncId.mk
  blocks : Owns a.functions Function.blocks a.blocks (·.function.index) BlockId.mk
  insts : Owns a.blocks Block.insts a.insts (·.block.index) InstId.mk

/-- Each edit keeps the three levels apart: it adds an owner, or a thing with its place, or
changes neither. -/
theorem Edit.owned {a a' : Arena} (h : Edit a a') (ha : a.Owned) : a'.Owned := by
  -- every edit adds one thing at the end of its array and to the list of its owner, or changes
  -- neither who owns it nor what it owns
  cases h with
  | addModule name => exact ⟨ha.functions.push_owner rfl, ha.blocks, ha.insts⟩
  | declare f hm hb =>
    refine ⟨?_, ha.blocks.push_owner hb, ha.insts⟩
    dsimp only
    exact ha.functions.push_thing hm fun _ => rfl
  | describe f g hf hg =>
    refine ⟨ha.functions.modify_thing fun x => ?_, ha.blocks.modify_owner fun x => ?_, ha.insts⟩
    · conv_rhs => rw [← hg x]
    · conv_rhs => rw [← hg x]
  | addBlock f hf =>
    refine ⟨?functions, ?blocks, ha.insts.push_owner rfl⟩ <;> dsimp only
    case functions => exact ha.functions.modify_thing fun _ => rfl
    case blocks => exact ha.blocks.push_thing (y := ⟨f, []⟩) hf fun _ => rfl
  | addInst i hb =>
    refine ⟨ha.functions, ?blocks, ?insts⟩ <;> dsimp only
    case blocks => exact ha.blocks.modify_thing fun _ => rfl
    case insts => exact ha.insts.push_thing hb fun _ => rfl
  | setIncoming id incoming hi =>
    refine ⟨ha.functions, ha.blocks, ?_⟩
    dsimp only
    exact ha.insts.modify_thing fun _ => rfl

theorem owned_of_edits {a : Arena} (h : Relation.ReflTransGen Edit {} a) : a.Owned := by
  induction h with
  | refl => exact ⟨.empty, .empty, .empty⟩
  | tail _ he ih => exact he.owned ih

end Arena

end ErrorReturns
