import ErrorReturns.Program.Operation

/-!
# What branches and switches say about values

A branch that has been taken says that a comparison holds, or that its inverse does, and one
comparison may decide another one of the same two values. The two tables of implications between
predicates are valid for all constants of a common width (`Predicate.evaluate_of_impliesTrue`,
`Predicate.evaluate_of_impliesFalse`): the signed and the unsigned reading of a constant are tied
together by their equality only, and the tables use no more than that.

A switch sends each value to one block (`switchTarget`). What it says about a value depends on the
edges to the block that was taken: only if the default goes elsewhere is the value among the
constants of the cases that lead there (`exists_case_of_switchTarget`).
-/

namespace ErrorReturns

/-- Constants of one width with equal signed readings have equal unsigned readings. -/
theorem Constant.unsigned_eq_of_value_eq {l r : Constant} (hbits : l.bits = r.bits)
    (h : l.value = r.value) : l.unsigned = r.unsigned := by
  rw [unsigned, unsigned, hbits, h]

namespace Predicate

@[simp] theorem onInts_inverse (p : Predicate) (l r : Int) :
    p.inverse.onInts l r = !p.onInts l r := by
  cases p with
  | eq | ne => simp [inverse, onInts, bne]
  | _ => simp [inverse, onInts, ← decide_not]

@[simp] theorem isUnsigned_inverse (p : Predicate) : p.inverse.isUnsigned = p.isUnsigned := by
  cases p <;> rfl

@[simp] theorem evaluate_inverse (p : Predicate) (l r : Constant) :
    p.inverse.evaluate l r = !p.evaluate l r := by
  rw [evaluate, evaluate, isUnsigned_inverse]
  split <;> exact onInts_inverse p _ _

/-- **Implications between comparisons** are valid for all constants of a common width. -/
theorem evaluate_of_impliesTrue {p q : Predicate} (h : p.impliesTrue q = true) {l r : Constant}
    (hbits : l.bits = r.bits) (hp : p.evaluate l r = true) : q.evaluate l r = true := by
  rcases Bool.or_eq_true_iff.mp h with h | h
  · rwa [← eq_of_beq h]
  have hunsigned := Constant.unsigned_eq_of_value_eq hbits
  cases p with
  | eq =>
    have hvalue : l.value = r.value := by simpa [evaluate, isUnsigned, onInts] using hp
    simp only [List.contains_iff_mem, List.mem_cons, List.not_mem_nil, or_false] at h
    rcases h with rfl | rfl | rfl | rfl <;>
      simp [evaluate, isUnsigned, onInts, hvalue, hunsigned hvalue]
  | ugt | ult =>
    simp only [List.contains_iff_mem, List.mem_cons, List.not_mem_nil, or_false] at h
    rcases h with rfl | rfl <;> simp [evaluate, isUnsigned, onInts] at hp ⊢ <;> grind
  | sgt | slt =>
    simp only [List.contains_iff_mem, List.mem_cons, List.not_mem_nil, or_false] at h
    rcases h with rfl | rfl <;> simp [evaluate, isUnsigned, onInts] at hp ⊢ <;> omega
  | _ => cases h

theorem evaluate_of_impliesFalse {p q : Predicate} (h : p.impliesFalse q = true) {l r : Constant}
    (hbits : l.bits = r.bits) (hp : p.evaluate l r = true) : q.evaluate l r = false := by
  have hinverse := evaluate_of_impliesTrue h hbits hp
  rwa [evaluate_inverse, Bool.not_eq_true'] at hinverse

end Predicate

/-! ## Switches -/

/-- **Where a switch goes** when its condition has a value: to the first case of this value, and to
the default if there is none. -/
def switchTarget (default : BlockId) (cases : List (Constant × BlockId)) (v : Int) : BlockId :=
  ((cases.find? fun c => c.1.value == v).map (·.2)).getD default

/-- A target other than the default is that of a case with the value. -/
theorem exists_case_of_switchTarget {default b : BlockId} {cases : List (Constant × BlockId)}
    {v : Int} (h : switchTarget default cases v = b) (hne : b ≠ default) :
    ∃ k, (k, b) ∈ cases ∧ k.value = v := by
  unfold switchTarget at h
  cases hfind : cases.find? fun c => c.1.value == v with
  | none =>
    rw [hfind] at h
    exact absurd h.symm hne
  | some c =>
    rw [hfind] at h
    have hvalue := List.find?_some hfind
    obtain rfl : c.2 = b := h
    exact ⟨c.1, List.mem_of_find?_eq_some hfind, eq_of_beq hvalue⟩

/-- **The edges of a switch to a block agree** on a comparison with a constant: the default goes
elsewhere, and the cases that lead to the block compare alike. -/
def EdgesAgree (pred : Predicate) (rhs : Constant) (default : BlockId)
    (cases : List (Constant × BlockId)) (b : BlockId) : Prop :=
  b ≠ default ∧ ∀ k k', (k, b) ∈ cases → (k', b) ∈ cases →
    pred.evaluate k rhs = pred.evaluate k' rhs

/-- Where the edges agree, every value that takes one of them compares like the cases. -/
theorem EdgesAgree.evaluate_eq {pred : Predicate} {rhs k v : Constant} {default b : BlockId}
    {cases : List (Constant × BlockId)} (h : EdgesAgree pred rhs default cases b)
    (hk : (k, b) ∈ cases) (hbits : ∀ c ∈ cases, c.1.bits = v.bits)
    (hv : switchTarget default cases v.value = b) : pred.evaluate v rhs = pred.evaluate k rhs := by
  obtain ⟨k', hk', hvalue⟩ := exists_case_of_switchTarget hv h.1
  obtain rfl : k' = v := by
    rw [Constant.mk.injEq]
    exact ⟨hvalue, hbits _ hk'⟩
  exact h.2 k' k hk' hk

end ErrorReturns
