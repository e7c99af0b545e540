import ErrorReturns.Proofs.Program.Inside
import ErrorReturns.Proofs.Word

/-!
# Addresses in memory

A program may be laid out in memory in any way that respects how it computes its addresses: an
address at a known offset from another lies at that offset, around the end of memory if need be, and
a bitcast changes no address (`Program.Placement`). Stripping an address of its offsets should give
an object and an offset that say where the address is, in whatever way the program is laid out.

One address is at most computed from one other, so the addresses behind an address form a chain. The
chain ends at an object, or it leads to an instruction that does not exist, or it goes around in a
circle. `Program.Walk` says how far one has come on it, with the sum of the offsets on the way, and
stripping is walking as far as the number of instructions allows. That bound cuts off circles only:
on a chain without a circle each step meets a new instruction (`Walk.length_le_of_acyclic`), while a
chain that ends has no circle on it (`Walk.acyclic_of_end`).
-/

namespace ErrorReturns

open Checked

/-! ## Offsets as words -/

namespace Word

/-- Cutting an offset to 64 bits keeps what it adds to an address. -/
@[simp] theorem ofInt_wrapSigned (v : Int) :
    BitVec.ofInt 64 (wrapSigned 64 v) = BitVec.ofInt 64 v :=
  (congrArg (BitVec.ofInt 64) (BitVec.toInt_ofInt v).symm).trans BitVec.ofInt_toInt

/-- Two offsets of 64 bits that add the same to an address are the same. -/
theorem ofInt_inj {v w : Int} (hv : Fits 64 v) (hw : Fits 64 w) :
    BitVec.ofInt 64 v = BitVec.ofInt 64 w ↔ v = w := by
  refine ⟨fun h => ?_, congrArg _⟩
  have heq : wrapSigned 64 v = wrapSigned 64 w := by
    rw [wrapSigned, wrapSigned]
    exact (BitVec.toInt_ofInt v).symm.trans ((congrArg BitVec.toInt h).trans (BitVec.toInt_ofInt w))
  rwa [wrapSigned_eq_self (by decide) hv, wrapSigned_eq_self (by decide) hw] at heq

@[simp] theorem wrapSigned_add_wrapSigned (bits : Nat) (v w : Int) :
    wrapSigned bits (wrapSigned bits v + w) = wrapSigned bits (v + w) :=
  Int.bmod_add_bmod

end Word

namespace Program

variable (p : Program)

/-! ## Chains of addresses -/

/-- **An address computed from another**: at a known offset from it, or as it is with another
type. -/
inductive OffsetFrom : Value → Int → Value → Prop
  | gep {v base : Value} {o : Int} (hop : p.opOf? v = .ok (some (.gep base (some o)))) :
      OffsetFrom v o base
  | bitcast {v inner : Value} (hop : p.opOf? v = .ok (some (.cast .bitcast inner))) :
      OffsetFrom v 0 inner

/-- An address that is not computed from another one in a known way. -/
def IsEnd (v : Value) : Prop := ∀ o w, ¬p.OffsetFrom v o w

/-- **A walk along a chain of addresses**, with the number of its steps and the sum of their
offsets. -/
inductive Walk : Value → Nat → Int → Value → Prop
  | refl (v : Value) : Walk v 0 0 v
  | step {v w x : Value} {n : Nat} {o total : Int} (hstep : p.OffsetFrom v o w)
      (hrest : Walk w n total x) : Walk v (n + 1) (o + total) x

/-- The addresses on the chain of an address, itself included. -/
def OnChain (v w : Value) : Prop := ∃ n total, p.Walk v n total w

/-- **A chain without a circle**: no walk returns to an address on it. -/
def Acyclic (v : Value) : Prop :=
  ∀ w, p.OnChain v w → ∀ n total, p.Walk w n total w → n = 0

variable {p} {v w x : Value} {n m : Nat} {total total' o : Int}

/-- An operand has an operation if it is the result of an instruction in the arena. -/
theorem opOf?_eq_some_iff {op : Operation} :
    p.opOf? v = .ok (some op) ↔
      ∃ k, v = .inst ⟨k⟩ ∧ (p.insts.toList.map (·.op))[k]? = some op := by
  simp only [List.getElem?_map, Array.getElem?_toList, Option.map_eq_some_iff]
  constructor
  · intro h
    cases v with
    | inst i =>
      obtain ⟨op', hop, heq⟩ := bind_eq_ok_iff.mp h
      obtain rfl := Option.some.inj (Except.ok.inj heq)
      obtain ⟨x, hx, hop⟩ := bind_eq_ok_iff.mp hop
      exact ⟨i.index, rfl, x, Arena.inst_eq_ok_iff.mp hx, Except.ok.inj hop⟩
    | _ => cases h
  · rintro ⟨k, rfl, x, hx, rfl⟩
    rw [Arena.opOf?, Arena.op, Arena.inst_eq_ok_iff.mpr hx]
    rfl

/-- An address is computed in at most one way. -/
theorem OffsetFrom.unique {o' : Int} {w' : Value} (h : p.OffsetFrom v o w)
    (h' : p.OffsetFrom v o' w') : o = o' ∧ w = w' := by
  cases h with
  | gep hop =>
    cases h' with
    | gep hop' => cases hop.symm.trans hop'; exact ⟨rfl, rfl⟩
    | bitcast hop' => cases hop.symm.trans hop'
  | bitcast hop =>
    cases h' with
    | gep hop' => cases hop.symm.trans hop'
    | bitcast hop' => cases hop.symm.trans hop'; exact ⟨rfl, rfl⟩

/-- An address that is computed from another is the result of an instruction. -/
theorem OffsetFrom.exists_inst (h : p.OffsetFrom v o w) : ∃ i, v = .inst i ∧ p.HasInst i := by
  cases h with
  | gep hop | bitcast hop =>
    obtain ⟨k, rfl, hk⟩ := opOf?_eq_some_iff.mp hop
    exact ⟨⟨k⟩, rfl, by simpa using (List.getElem?_eq_some_iff.mp hk).1⟩

theorem isEnd_of_not_has (h : ¬p.Has v) : p.IsEnd v := by
  intro o w hstep
  obtain ⟨i, rfl, hi⟩ := hstep.exists_inst
  exact h hi

theorem Walk.trans (h : p.Walk v n total w) (h' : p.Walk w m total' x) :
    p.Walk v (n + m) (total + total') x := by
  induction h with
  | refl v => rwa [Nat.zero_add, Int.zero_add]
  | step hstep _ ih =>
    rw [Nat.succ_add, Int.add_assoc]
    exact .step hstep (ih h')

theorem Walk.single (h : p.OffsetFrom v o w) : p.Walk v 1 o w :=
  Int.add_zero o ▸ .step h (.refl w)

theorem OnChain.refl (v : Value) : p.OnChain v v := ⟨0, 0, .refl v⟩

theorem OnChain.head (h : p.OffsetFrom v o w) (hx : p.OnChain w x) : p.OnChain v x := by
  obtain ⟨n, total, hwalk⟩ := hx
  exact ⟨n + 1, o + total, .step h hwalk⟩

/-- **A walk of any length** is possible, unless the chain ends before. -/
theorem exists_walk_or_end (steps : Nat) (v : Value) :
    (∃ total w, p.Walk v steps total w) ∨
      ∃ n < steps, ∃ total w, p.Walk v n total w ∧ p.IsEnd w := by
  induction steps generalizing v with
  | zero => exact Or.inl ⟨0, v, .refl v⟩
  | succ steps ih =>
    by_cases hend : p.IsEnd v
    · exact Or.inr ⟨0, Nat.succ_pos steps, 0, v, .refl v, hend⟩
    · obtain ⟨o, w, hstep⟩ : ∃ o w, p.OffsetFrom v o w := by
        simpa only [IsEnd, not_forall, not_not] using hend
      refine (ih w).imp ?_ ?_
      · rintro ⟨total, x, hwalk⟩
        exact ⟨o + total, x, .step hstep hwalk⟩
      · rintro ⟨n, hn, total, x, hwalk, hx⟩
        exact ⟨n + 1, Nat.succ_lt_succ hn, o + total, x, .step hstep hwalk, hx⟩

/-- There is one way along a chain: whoever walks to its end passes by all that is on it. -/
theorem Walk.rest_of_end (h : p.Walk v n total x) (hx : p.IsEnd x) (h' : p.Walk v m total' w) :
    ∃ k rest, p.Walk w k rest x ∧ n = m + k := by
  induction h' generalizing n total with
  | refl v => exact ⟨n, total, h, (Nat.zero_add n).symm⟩
  | step hstep _ ih =>
    cases h with
    | refl => exact absurd hstep (hx _ _)
    | step hstep' hrest' =>
      obtain ⟨-, rfl⟩ := hstep.unique hstep'
      obtain ⟨k, rest, hrest, hk⟩ := ih hrest'
      exact ⟨k, rest, hrest, by omega⟩

/-- **A chain that ends has no circle on it.** -/
theorem Walk.acyclic_of_end (h : p.Walk v n total x) (hx : p.IsEnd x) : p.Acyclic v := by
  rintro w ⟨m, total', hw⟩ k around hcircle
  obtain ⟨a, _, ha, -⟩ := h.rest_of_end hx hw
  -- going around once more, the end is `k` steps farther away, and there is only one distance
  obtain ⟨b, _, hb, hab⟩ := ha.rest_of_end hx hcircle
  obtain ⟨c, _, hc, hbc⟩ := ha.rest_of_end hx hb
  cases hc with
  | refl => omega
  | step hstep => exact absurd hstep (hx _ _)

/-! ## How long a chain is -/

section Bound

open Classical

/-- How many instructions are not met on the way to an address. -/
noncomputable def ahead (p : Program) (v : Value) : Nat :=
  p.unmet fun i => ∃ n total, p.Walk (.inst i) (n + 1) total v

/-- **Without circles every step meets a new instruction.** -/
theorem OffsetFrom.ahead_lt (h : p.OffsetFrom v o w) (hv : p.Acyclic v) :
    p.ahead w < p.ahead v := by
  obtain ⟨i, rfl, hi⟩ := h.exists_inst
  refine unmet_lt (fun j hj => ?_) hi ?_ ⟨0, o, .single h⟩
  · obtain ⟨n, total, hwalk⟩ := hj
    exact ⟨n + 1, total + o, hwalk.trans (.single h)⟩
  · rintro ⟨n, total, hwalk⟩
    exact absurd (hv _ (.refl _) _ _ hwalk) (Nat.succ_ne_zero n)

theorem Acyclic.next (hv : p.Acyclic v) (h : p.OffsetFrom v o w) : p.Acyclic w :=
  fun x hx => hv x (hx.head h)

theorem Walk.length_add_ahead_le (h : p.Walk v n total w) (hv : p.Acyclic v) :
    n + p.ahead w ≤ p.ahead v := by
  induction h with
  | refl v => exact Nat.le_of_eq (Nat.zero_add _)
  | step hstep _ ih =>
    have hlt := hstep.ahead_lt hv
    have hle := ih (hv.next hstep)
    omega

/-- **A chain without a circle is short**: it has no more steps than there are instructions. -/
theorem Walk.length_le_of_acyclic (h : p.Walk v n total w) (hv : p.Acyclic v) :
    n ≤ p.insts.size := by
  have hle : p.ahead v ≤ p.insts.size := unmet_le_size
  have hahead := h.length_add_ahead_le hv
  omega

end Bound

/-! ## Stripping is walking -/

theorem stripFrom_of_offsetFrom (h : p.OffsetFrom v o w) (steps : Nat) {offset : Int}
    (hoffset : Word.Fits 64 offset) : p.stripFrom (steps + 1) v offset =
      p.stripFrom steps w (Word.wrapSigned 64 (offset + o)) := by
  cases h with
  | gep hop => rw [stripFrom, hop, ok_bind]
  | bitcast hop =>
    rw [stripFrom, hop, ok_bind, Int.add_zero, Word.wrapSigned_eq_self (by decide) hoffset]

/-- Where nothing can be stripped, nothing is. -/
theorem stripFrom_of_isEnd (hv : p.Has v) (hend : p.IsEnd v) (steps : Nat) (offset : Int) :
    p.stripFrom steps v offset = .ok (v, offset) := by
  cases steps with
  | zero => rfl
  | succ steps =>
    obtain ⟨op?, hop, -⟩ := (meets_opOf? (F := fun _ => False) hv).exists_eq_ok
    rw [stripFrom, hop, ok_bind]
    split
    · exact absurd (.gep hop) (hend _ _)
    · exact absurd (.bitcast hop) (hend _ _)
    · rfl

/-- A value that does not exist is not looked up. -/
theorem stripFrom_of_not_has (hv : ¬p.Has v) (steps : Nat) (offset : Int) (out : Value × Int) :
    p.stripFrom (steps + 1) v offset ≠ .ok out := by
  intro h
  obtain ⟨op?, hop, -⟩ := bind_eq_ok_iff.mp h
  cases v with
  | inst i =>
    obtain ⟨op, hop, -⟩ := bind_eq_ok_iff.mp hop
    exact hv (hasInst_of_op_eq_ok hop)
  | _ => exact hv trivial

/-- **Stripping follows every walk** that it has the steps for. -/
theorem Walk.stripFrom_eq (h : p.Walk v n total w) (steps : Nat) {offset : Int}
    (hoffset : Word.Fits 64 offset) : p.stripFrom (n + steps) v offset =
      p.stripFrom steps w (Word.wrapSigned 64 (offset + total)) := by
  induction h generalizing offset with
  | refl v => rw [Nat.zero_add, Int.add_zero, Word.wrapSigned_eq_self (by decide) hoffset]
  | step hstep _ ih =>
    rw [Nat.succ_add, stripFrom_of_offsetFrom hstep _ hoffset,
      ih (Word.fits_wrapSigned_of_pos (by decide) _), Word.wrapSigned_add_wrapSigned, Int.add_assoc]

theorem Walk.stripOffsets_eq {rest : Nat} (h : p.Walk v n total w)
    (hn : n + rest = p.insts.size + 1) :
    p.stripOffsets v = p.stripFrom rest w (Word.wrapSigned 64 total) := by
  rw [stripOffsets, ← hn, h.stripFrom_eq rest (by decide), Int.zero_add]

theorem Walk.stripOffsets_ne_ok (h : p.Walk v n total w) (hn : n ≤ p.insts.size) (hw : ¬p.Has w)
    (out : Value × Int) : p.stripOffsets v ≠ .ok out := by
  have hrest : n + (p.insts.size - n + 1) = p.insts.size + 1 := by omega
  rw [h.stripOffsets_eq hrest]
  exact stripFrom_of_not_has hw _ _ out

/-- **What stripping comes to**: the end of the chain or an address one step farther than there are
instructions, unless the chain leads out of the program. -/
theorem stripOffsets_cases (v : Value) :
    (∃ n total w, p.Walk v n total w ∧ (p.IsEnd w ∨ n = p.insts.size + 1) ∧
      p.stripOffsets v = .ok (w, Word.wrapSigned 64 total)) ∨
    ∃ w, p.OnChain v w ∧ ¬p.Has w ∧ ∀ out, p.stripOffsets v ≠ .ok out := by
  rcases exists_walk_or_end (p.insts.size + 1) v with
    ⟨total, w, hwalk⟩ | ⟨n, hn, total, w, hwalk, hend⟩
  · exact Or.inl ⟨_, total, w, hwalk, Or.inr rfl, hwalk.stripOffsets_eq (Nat.add_zero _)⟩
  · by_cases hw : p.Has w
    · refine Or.inl ⟨n, total, w, hwalk, Or.inl hend, ?_⟩
      rw [hwalk.stripOffsets_eq (Nat.add_sub_of_le (Nat.le_of_lt hn)), stripFrom_of_isEnd hw hend]
    · exact Or.inr ⟨w, ⟨n, total, hwalk⟩, hw,
        hwalk.stripOffsets_ne_ok (Nat.le_of_lt_succ hn) hw⟩

theorem exists_walk_of_stripOffsets {base : Value} {offset : Int}
    (h : p.stripOffsets v = .ok (base, offset)) : ∃ n total, p.Walk v n total base ∧
      (p.IsEnd base ∨ n = p.insts.size + 1) ∧ offset = Word.wrapSigned 64 total := by
  rcases stripOffsets_cases v with ⟨n, total, w, hwalk, hlast, heq⟩ | ⟨w, -, -, hfault⟩
  · obtain ⟨rfl, rfl⟩ := Prod.mk.inj (Except.ok.inj (h.symm.trans heq))
    exact ⟨n, total, hwalk, hlast, rfl⟩
  · exact absurd h (hfault _)

/-- **An address can be stripped** exactly if all the addresses on its chain exist. -/
theorem exists_stripOffsets_eq_ok_iff :
    (∃ out, p.stripOffsets v = .ok out) ↔ ∀ w, p.OnChain v w → p.Has w := by
  refine ⟨?_, fun h => ?_⟩
  · rintro ⟨out, h⟩ w ⟨n, total, hwalk⟩
    by_contra hw
    -- the chain ends where it leaves the program, which is too soon for the bound
    have hn := hwalk.length_le_of_acyclic (hwalk.acyclic_of_end (isEnd_of_not_has hw))
    exact hwalk.stripOffsets_ne_ok hn hw out h
  · rcases stripOffsets_cases v with ⟨_, _, w, _, _, heq⟩ | ⟨w, hw, hout, -⟩
    · exact ⟨_, heq⟩
    · exact absurd (h w hw) hout

/-- **The bound cuts off circles only**: an address is stripped down to the end of its chain exactly
if there is no circle on it. -/
theorem acyclic_iff_isEnd_of_stripOffsets {base : Value} {offset : Int}
    (h : p.stripOffsets v = .ok (base, offset)) : p.Acyclic v ↔ p.IsEnd base := by
  obtain ⟨n, total, hwalk, hlast, -⟩ := exists_walk_of_stripOffsets h
  refine ⟨fun hv => hlast.resolve_right fun hn => ?_, hwalk.acyclic_of_end⟩
  have hle := hwalk.length_le_of_acyclic hv
  omega

/-- What has been stripped exists, so that one can see whether it is an object of its own. -/
theorem exists_isIdentified_of_stripOffsets {base : Value} {offset : Int}
    (h : p.stripOffsets v = .ok (base, offset)) : ∃ known, p.isIdentified base = .ok known := by
  obtain ⟨n, total, hwalk, -⟩ := exists_walk_of_stripOffsets h
  have hbase := exists_stripOffsets_eq_ok_iff.mp ⟨_, h⟩ base ⟨n, total, hwalk⟩
  obtain ⟨known, hknown, -⟩ := (meets_isIdentified (F := fun _ => False) hbase).exists_eq_ok
  exact ⟨known, hknown⟩

theorem fits_of_stripOffsets {base : Value} {offset : Int}
    (h : p.stripOffsets v = .ok (base, offset)) : Word.Fits 64 offset := by
  obtain ⟨n, total, -, -, rfl⟩ := exists_walk_of_stripOffsets h
  exact Word.fits_wrapSigned_of_pos (by decide) total

/-! ## Where addresses are -/

/-- **A way to lay out a program in memory**: a 64-bit address for each value, which respects how
addresses are computed. -/
structure Placement (p : Program) where
  addr : Value → BitVec 64
  gep : ∀ {v base : Value} {o : Int}, p.opOf? v = .ok (some (.gep base (some o))) →
    addr v = addr base + BitVec.ofInt 64 o
  bitcast : ∀ {v inner : Value}, p.opOf? v = .ok (some (.cast .bitcast inner)) → addr v = addr inner

variable (l : p.Placement)

theorem OffsetFrom.addr_eq (h : p.OffsetFrom v o w) : l.addr v = l.addr w + BitVec.ofInt 64 o := by
  cases h with
  | gep hop => exact l.gep hop
  | bitcast hop => exact (l.bitcast hop).trans (BitVec.add_zero _).symm

theorem Walk.addr_eq (h : p.Walk v n total w) : l.addr v = l.addr w + BitVec.ofInt 64 total := by
  induction h with
  | refl v => exact (BitVec.add_zero _).symm
  | @step v w x n o total hstep _ ih =>
    calc l.addr v = l.addr w + BitVec.ofInt 64 o := hstep.addr_eq l
      _ = l.addr x + (BitVec.ofInt 64 o + BitVec.ofInt 64 total) := by
        rw [ih, BitVec.add_assoc, BitVec.add_comm (BitVec.ofInt 64 total)]
      _ = l.addr x + BitVec.ofInt 64 (o + total) := by rw [BitVec.ofInt_add]

/-- **An object and an offset say where an address is.** -/
theorem addr_eq_of_stripOffsets {base : Value} {offset : Int}
    (h : p.stripOffsets v = .ok (base, offset)) :
    l.addr v = l.addr base + BitVec.ofInt 64 offset := by
  obtain ⟨n, total, hwalk, -, rfl⟩ := exists_walk_of_stripOffsets h
  rw [Word.ofInt_wrapSigned]
  exact hwalk.addr_eq l

end Program

/-! ## Comparing addresses -/

namespace AliasOracle

variable {p : Program} {a b baseA baseB : Value} {offsetA offsetB : Int} {knownA knownB : Bool}

@[simp] theorem basic_self (p : Program) (a : Value) : basic p a a = .ok true := by
  rw [basic, if_pos rfl]
  rfl

theorem basic_eq (hne : a ≠ b) (hA : p.stripOffsets a = .ok (baseA, offsetA))
    (hB : p.stripOffsets b = .ok (baseB, offsetB)) (hknownA : p.isIdentified baseA = .ok knownA)
    (hknownB : p.isIdentified baseB = .ok knownB) :
    basic p a b = .ok (if baseA = baseB then offsetA == offsetB else !(knownA && knownB)) := by
  unfold basic
  simp only [hA, hB, hknownA, hknownB, ok_bind, if_neg hne]
  cases knownA <;> split <;> rfl

/-- **Addresses are compared in the same way in either order.** -/
theorem basic_comm {answer : Bool} (h : basic p a b = .ok answer) : basic p b a = .ok answer := by
  by_cases hab : a = b
  · exact hab ▸ h
  · have hstripped := h
    rw [basic, if_neg hab] at hstripped
    obtain ⟨⟨baseA, offsetA⟩, hA, hstripped⟩ := bind_eq_ok_iff.mp hstripped
    obtain ⟨⟨baseB, offsetB⟩, hB, -⟩ := bind_eq_ok_iff.mp hstripped
    obtain ⟨knownA, hknownA⟩ := Program.exists_isIdentified_of_stripOffsets hA
    obtain ⟨knownB, hknownB⟩ := Program.exists_isIdentified_of_stripOffsets hB
    rw [← h, basic_eq hab hA hB hknownA hknownB, basic_eq (Ne.symm hab) hB hA hknownB hknownA,
      Bool.and_comm, BEq.comm (a := offsetB)]
    simp only [eq_comm (a := baseB)]

/-- **In one object the answer is exact.** -/
theorem basic_eq_decide (hA : p.stripOffsets a = .ok (baseA, offsetA))
    (hB : p.stripOffsets b = .ok (baseA, offsetB)) (l : p.Placement) :
    basic p a b = .ok (decide (l.addr a = l.addr b)) := by
  by_cases hab : a = b
  · rw [hab, basic_self, decide_eq_true rfl]
  · obtain ⟨known, hknown⟩ := Program.exists_isIdentified_of_stripOffsets hA
    have hsame : l.addr a = l.addr b ↔ offsetA = offsetB := by
      rw [Program.addr_eq_of_stripOffsets l hA, Program.addr_eq_of_stripOffsets l hB,
        BitVec.add_right_inj]
      exact Word.ofInt_inj (Program.fits_of_stripOffsets hA) (Program.fits_of_stripOffsets hB)
    rw [basic_eq hab hA hB hknown hknown, if_pos rfl]
    exact congrArg Except.ok (decide_eq_decide.mpr hsame).symm

end AliasOracle

namespace Program

/-- **Addresses are kept and compared.** An address can be stripped exactly if its chain does not
lead out of the program, and so always if the chain goes around in a circle, or if the address
exists in a program that is built. In every placement it lies at the offset from the address that it
is stripped down to, which is itself neither at a known offset nor a bitcast exactly if there is no
circle. Comparing addresses is reflexive and symmetric, and for two that are stripped down to the
same it tells whether they are equal, in every placement. -/
theorem addresses_kept_and_compared (p : Program) :
    (∀ v,
      ((∃ base offset, p.stripOffsets v = .ok (base, offset)) ↔ ∀ w, p.OnChain v w → p.Has w) ∧
      (¬p.Acyclic v → ∃ base offset, p.stripOffsets v = .ok (base, offset)) ∧
      ∀ base offset, p.stripOffsets v = .ok (base, offset) →
        (∀ l : p.Placement, l.addr v = l.addr base + BitVec.ofInt 64 offset) ∧
        (p.Acyclic v ↔ ∀ o w, ¬p.OffsetFrom base o w)) ∧
    (∀ ds, build ds = .ok p →
      (∀ v, p.Has v → ∃ base offset, p.stripOffsets v = .ok (base, offset)) ∧
      ∀ a b, p.Has a → p.Has b → ∃ answer, AliasOracle.basic p a b = .ok answer) ∧
    (∀ a, AliasOracle.basic p a a = .ok true) ∧
    (∀ a b answer, AliasOracle.basic p a b = .ok answer ↔ AliasOracle.basic p b a = .ok answer) ∧
    ∀ a b base offsetA offsetB, p.stripOffsets a = .ok (base, offsetA) →
      p.stripOffsets b = .ok (base, offsetB) → ∀ l : p.Placement,
        AliasOracle.basic p a b = .ok (decide (l.addr a = l.addr b)) := by
  have hstripped : ∀ v, (∃ base offset, p.stripOffsets v = .ok (base, offset)) ↔
      ∀ w, p.OnChain v w → p.Has w := by
    intro v
    rw [← exists_stripOffsets_eq_ok_iff, Prod.exists]
  refine ⟨fun v => ⟨hstripped v, fun hcircle => (hstripped v).mpr ?_, fun base offset h => ?_⟩,
    fun ds hbuild => ⟨fun v hv => ?_, AliasOracle.answers_basic (inside_of_build hbuild)⟩,
    AliasOracle.basic_self p, fun a b answer => ⟨AliasOracle.basic_comm, AliasOracle.basic_comm⟩,
    fun a b base offsetA offsetB hA hB l => AliasOracle.basic_eq_decide hA hB l⟩
  · rintro w ⟨n, total, hwalk⟩
    by_contra hw
    exact hcircle (hwalk.acyclic_of_end (isEnd_of_not_has hw))
  · exact ⟨fun l => addr_eq_of_stripOffsets l h, acyclic_iff_isEnd_of_stripOffsets h⟩
  · obtain ⟨⟨base, offset⟩, h, -⟩ :=
      ((inside_of_build hbuild).meets_stripOffsets (F := fun _ => False) hv).exists_eq_ok
    exact ⟨base, offset, h⟩

/-- Offsets that go around the end of memory, also through a bitcast, and two addresses that are
computed from each other. -/
def wrappedOffsets : List Operation :=
  [.alloca, .gep (.inst ⟨0⟩) (some 9223372036854775807), .cast .bitcast (.inst ⟨1⟩),
    .gep (.inst ⟨2⟩) (some 9223372036854775807), .gep (.inst ⟨0⟩) (some (-2)),
    .gep (.inst ⟨6⟩) (some 4), .gep (.inst ⟨5⟩) (some (-4)), .ret none]

/-- Where their results may lie. -/
def wrappedAddress : Value → BitVec 64
  | .inst i => [16, 9223372036854775823, 9223372036854775823, 14, 14, 4].getD i.index 0
  | _ => 0

theorem exists_placement_wrappedOffsets {p : Program}
    (hops : p.insts.toList.map (·.op) = wrappedOffsets) :
    ∃ l : p.Placement, l.addr = wrappedAddress := by
  refine ⟨⟨wrappedAddress, fun h => ?_, fun h => ?_⟩, rfl⟩
  all_goals
    obtain ⟨k, rfl, hk⟩ := opOf?_eq_some_iff.mp h
    rw [hops] at hk
    rcases k with _ | _ | _ | _ | _ | _ | _ | _ | k <;> cases hk <;> decide

/-- Stripped of its offsets, an address may be two bytes before its object, and equal to another one
there. Addresses that are computed from each other are left where the bound stops. -/
theorem wrappedOffsets_kept : ∃ p,
    build [.module "m", .declare ⟨0⟩ "f" [] .void,
      .define ⟨0⟩ (wrappedOffsets.map fun op => .inst op .ptr)] = .ok p ∧
    p.stripOffsets (.inst ⟨3⟩) = .ok (.inst ⟨0⟩, -2) ∧ p.Acyclic (.inst ⟨3⟩) ∧
    p.stripOffsets (.inst ⟨5⟩) = .ok (.inst ⟨6⟩, 4) ∧ ¬p.Acyclic (.inst ⟨5⟩) ∧
    ∃ l : p.Placement, l.addr (.inst ⟨3⟩) = l.addr (.inst ⟨0⟩) + BitVec.ofInt 64 (-2) ∧
      l.addr (.inst ⟨3⟩) = l.addr (.inst ⟨4⟩) ∧
      AliasOracle.basic p (.inst ⟨3⟩) (.inst ⟨4⟩) = .ok true := by
  obtain ⟨p, hp, hacross, hbefore, haround, hops⟩ :
      ∃ p, build [.module "m", .declare ⟨0⟩ "f" [] .void, .define ⟨0⟩ (wrappedOffsets.map fun op =>
        .inst op .ptr)] = .ok p ∧ p.stripOffsets (.inst ⟨3⟩) = .ok (.inst ⟨0⟩, -2) ∧
      p.stripOffsets (.inst ⟨4⟩) = .ok (.inst ⟨0⟩, -2) ∧
      p.stripOffsets (.inst ⟨5⟩) = .ok (.inst ⟨6⟩, 4) ∧
      p.insts.toList.map (·.op) = wrappedOffsets := by
    decide +kernel
  obtain ⟨hkept, -, -, -, hcompared⟩ := addresses_kept_and_compared p
  obtain ⟨haddr, hend⟩ := (hkept (.inst ⟨3⟩)).2.2 _ _ hacross
  obtain ⟨-, hcircle⟩ := (hkept (.inst ⟨5⟩)).2.2 _ _ haround
  obtain ⟨l, hl⟩ := exists_placement_wrappedOffsets hops
  have hequal : l.addr (.inst ⟨3⟩) = l.addr (.inst ⟨4⟩) := by
    rw [hl]
    decide
  refine ⟨p, hp, hacross, hend.mpr fun o w hstep => ?_, haround, fun hacyclic => ?_, l, haddr l,
    hequal, ?_⟩
  · cases hstep with
    | gep hop | bitcast hop =>
      obtain ⟨k, hk, hop⟩ := opOf?_eq_some_iff.mp hop
      cases hk
      rw [hops] at hop
      cases hop
  · refine hcircle.mp hacyclic (-4) (.inst ⟨5⟩) (.gep (opOf?_eq_some_iff.mpr ⟨6, rfl, ?_⟩))
    rw [hops]
    rfl
  · rw [hcompared _ _ _ _ _ hacross hbefore l, decide_eq_true hequal]

end Program

end ErrorReturns
