/-!
# Tables in key order

A table maps finitely many keys to values and lists its entries by increasing key. The order
is part of the type: reports walk tables entry by entry, and two tables with the same entries
are equal, however they came about. Every table carries the proof that its keys increase, so
that nothing has to be asked of a table that is looked up or changed; changing one takes an
order of the keys that is transitive.
-/

namespace ErrorReturns

open Std

/-- Entries whose keys increase. -/
def Table.Increasing {κ ν : Type} [Ord κ] (l : List (κ × ν)) : Prop :=
  l.Pairwise fun a b => compare a.1 b.1 = .lt

instance {κ ν : Type} [Ord κ] (l : List (κ × ν)) : Decidable (Table.Increasing l) :=
  inferInstanceAs (Decidable (l.Pairwise fun a b => compare a.1 b.1 = .lt))

/-- A finite map whose entries stand in increasing order of their keys. -/
structure Table (κ ν : Type) [Ord κ] where
  entries : List (κ × ν)
  increasing : Table.Increasing entries
deriving Repr, DecidableEq

namespace Table

variable {κ ν : Type} [Ord κ]

/-- The table without entries. -/
def empty : Table κ ν := ⟨[], .nil⟩

instance : EmptyCollection (Table κ ν) := ⟨empty⟩
instance : Inhabited (Table κ ν) := ⟨empty⟩

/-- Whether the table has no entry. -/
def isEmpty (t : Table κ ν) : Bool := t.entries.isEmpty

/-- How many entries the table has. -/
def size (t : Table κ ν) : Nat := t.entries.length

/-- The keys in increasing order. -/
def keys (t : Table κ ν) : List κ := t.entries.map (·.1)

/-- The values in the order of their keys. -/
def values (t : Table κ ν) : List ν := t.entries.map (·.2)

theorem Increasing.map {μ : Type} {l : List (κ × ν)} (hl : Increasing l) (f : ν → μ) :
    Increasing (l.map fun e => (e.1, f e.2)) :=
  List.pairwise_map.mpr hl

/-- Apply a function to every value. -/
def mapValues {μ : Type} (f : ν → μ) (t : Table κ ν) : Table κ μ :=
  ⟨t.entries.map fun e => (e.1, f e.2), t.increasing.map f⟩

/-- The value at a key in a list of entries. -/
def find (k : κ) : List (κ × ν) → Option ν
  | [] => none
  | (k', v) :: rest => if compare k k' == .eq then some v else find k rest

/-- The value at a key. -/
def get? (t : Table κ ν) (k : κ) : Option ν := find k t.entries

/-- Whether a key has an entry. -/
def contains (t : Table κ ν) (k : κ) : Bool := (t.get? k).isSome

/-- Put `f` of the present value at a key of a list of entries, keeping the order. -/
def place (k : κ) (f : Option ν → ν) : List (κ × ν) → List (κ × ν)
  | [] => [(k, f none)]
  | (k', v) :: rest =>
    match compare k k' with
    | .lt => (k, f none) :: (k', v) :: rest
    | .eq => (k', f (some v)) :: rest
    | .gt => (k', v) :: place k f rest

/-- The only new key is the one that was placed. -/
theorem key_of_mem_place {k : κ} {f : Option ν → ν} {l : List (κ × ν)} {e : κ × ν}
    (h : e ∈ place k f l) : e.1 = k ∨ ∃ e' ∈ l, e'.1 = e.1 := by
  induction l with
  | nil => exact Or.inl (congrArg Prod.fst (List.mem_singleton.mp h))
  | cons e₀ rest ih =>
    unfold place at h
    split at h
    · rcases List.mem_cons.mp h with rfl | h
      · exact Or.inl rfl
      · exact Or.inr ⟨e, h, rfl⟩
    · rcases List.mem_cons.mp h with rfl | h
      · exact Or.inr ⟨e₀, List.mem_cons_self, rfl⟩
      · exact Or.inr ⟨e, List.mem_cons_of_mem _ h, rfl⟩
    · rcases List.mem_cons.mp h with rfl | h
      · exact Or.inr ⟨e₀, List.mem_cons_self, rfl⟩
      · exact (ih h).imp_right fun ⟨e', he', heq⟩ => ⟨e', List.mem_cons_of_mem _ he', heq⟩

variable [TransOrd κ]

/-- **Placing an entry keeps the order.** -/
theorem Increasing.place {l : List (κ × ν)} (hl : Increasing l) (k : κ) (f : Option ν → ν) :
    Increasing (place k f l) := by
  induction l with
  | nil => exact List.pairwise_singleton _ _
  | cons e₀ rest ih =>
    obtain ⟨hhead, hrest⟩ := List.pairwise_cons.mp hl
    unfold Table.place
    split
    · rename_i hlt
      refine List.pairwise_cons.mpr ⟨List.forall_mem_cons.mpr ⟨hlt, fun e he => ?_⟩, hl⟩
      exact TransCmp.lt_trans hlt (hhead e he)
    · exact List.pairwise_cons.mpr ⟨hhead, hrest⟩
    · rename_i hgt
      refine List.pairwise_cons.mpr ⟨fun e he => ?_, ih hrest⟩
      rcases key_of_mem_place he with hk | ⟨e', he', hk⟩
      · exact hk ▸ OrientedCmp.gt_iff_lt.mp hgt
      · exact hk ▸ hhead e' he'

/-- Put `f` of the present value, if any, at a key. -/
def update (t : Table κ ν) (k : κ) (f : Option ν → ν) : Table κ ν :=
  ⟨place k f t.entries, t.increasing.place k f⟩

/-- Put a value at a key, in place of the present one if there is one. -/
def insert (t : Table κ ν) (k : κ) (v : ν) : Table κ ν := t.update k fun _ => v

/-- Put a value at a key that has none; a present value stays. -/
def insertIfNew (t : Table κ ν) (k : κ) (v : ν) : Table κ ν := t.update k (·.getD v)

/-- The table with the given entries; of two at one key the later one counts. -/
def ofList (entries : List (κ × ν)) : Table κ ν :=
  entries.foldl (fun t e => t.insert e.1 e.2) empty

end Table

end ErrorReturns
