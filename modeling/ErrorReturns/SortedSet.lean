/-!
# Finite sets in order

A finite set of ordered elements, listed in increasing order and without repetition, so that
walking the set is deterministic and equal sets are equal lists. Every set carries the proof
that its list increases.
-/

namespace ErrorReturns

open Std

/-- A finite set whose elements stand in increasing order. -/
structure SortedSet (α : Type) [Ord α] where
  toList : List α
  increasing : toList.Pairwise fun a b => compare a b = .lt
deriving Repr, DecidableEq

namespace SortedSet

variable {α : Type} [Ord α]

/-- The set without elements. -/
def empty : SortedSet α := ⟨[], .nil⟩

instance : EmptyCollection (SortedSet α) := ⟨empty⟩
instance : Inhabited (SortedSet α) := ⟨empty⟩
instance : Membership α (SortedSet α) := ⟨fun s a => a ∈ s.toList⟩

instance [DecidableEq α] (a : α) (s : SortedSet α) : Decidable (a ∈ s) :=
  inferInstanceAs (Decidable (a ∈ s.toList))

/-- Whether the set has no element. -/
def isEmpty (s : SortedSet α) : Bool := s.toList.isEmpty

/-- How many elements the set has. -/
def size (s : SortedSet α) : Nat := s.toList.length

/-- Put an element into an increasing list, unless it is there. -/
def place (a : α) : List α → List α
  | [] => [a]
  | b :: rest =>
    match compare a b with
    | .lt => a :: b :: rest
    | .eq => b :: rest
    | .gt => b :: place a rest

/-- The only new element is the one that was placed. -/
theorem eq_or_mem_of_mem_place {a b : α} {l : List α} (h : b ∈ place a l) : b = a ∨ b ∈ l := by
  induction l with
  | nil => exact Or.inl (List.mem_singleton.mp h)
  | cons c rest ih =>
    unfold place at h
    split at h
    · exact List.mem_cons.mp h
    · exact Or.inr h
    · rcases List.mem_cons.mp h with rfl | h
      · exact Or.inr List.mem_cons_self
      · exact (ih h).imp_right (List.mem_cons_of_mem c)

variable [TransOrd α]

/-- **Placing an element keeps the order.** -/
theorem pairwise_place {l : List α} (hl : l.Pairwise fun a b => compare a b = .lt) (a : α) :
    (place a l).Pairwise fun a b => compare a b = .lt := by
  induction l with
  | nil => exact List.pairwise_singleton _ _
  | cons b rest ih =>
    obtain ⟨hhead, hrest⟩ := List.pairwise_cons.mp hl
    unfold place
    split
    · rename_i hlt
      refine List.pairwise_cons.mpr ⟨List.forall_mem_cons.mpr ⟨hlt, fun c hc => ?_⟩, hl⟩
      exact TransCmp.lt_trans hlt (hhead c hc)
    · exact hl
    · rename_i hgt
      refine List.pairwise_cons.mpr ⟨fun c hc => ?_, ih hrest⟩
      rcases eq_or_mem_of_mem_place hc with rfl | hc
      · exact OrientedCmp.gt_iff_lt.mp hgt
      · exact hhead c hc

/-- Add an element. -/
def insert (s : SortedSet α) (a : α) : SortedSet α :=
  ⟨place a s.toList, pairwise_place s.increasing a⟩

/-- Add every element of a list. -/
def insertMany (s : SortedSet α) (as : List α) : SortedSet α := as.foldl insert s

/-- The set of the elements of a list. -/
def ofList (as : List α) : SortedSet α := empty.insertMany as

end SortedSet

end ErrorReturns
