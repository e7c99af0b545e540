import ErrorReturns.Trace.Resolve
import ErrorReturns.Proofs.Checked

/-!
# Looking things up is shallow

Only recursive searches carry a depth. What is looked up in a program on the way may meet a fault
but never runs out of depth. A resolution also looks things up on the slice, and looks back for a
store, which is just as shallow, provided that the alias oracle is
(`Resolver.shallow_storedValue?`).
-/

namespace ErrorReturns

open Checked

namespace Arena

variable (a : Arena)

theorem shallow_function (id : FuncId) : (a.function id).Shallow := by
  unfold function
  split <;> nofun

theorem shallow_block (id : BlockId) : (a.block id).Shallow := by
  unfold block
  split <;> nofun

theorem shallow_inst (id : InstId) : (a.inst id).Shallow := by
  unfold inst
  split <;> nofun

theorem shallow_op (id : InstId) : (a.op id).Shallow :=
  (a.shallow_inst id).bind fun _ _ => shallow_ok _

theorem shallow_opOf? (v : Value) : (a.opOf? v).Shallow := by
  cases v with
  | inst id => exact (a.shallow_op id).bind fun _ _ => shallow_ok _
  | _ => exact shallow_ok _

theorem shallow_typeOf (v : Value) : (a.typeOf v).Shallow := by
  cases v with
  | inst id => exact (a.shallow_inst id).bind fun _ _ => shallow_ok _
  | arg owner index => exact (a.shallow_function owner).bind fun _ _ => shallow_ok _
  | _ => exact shallow_ok _

end Arena

namespace Block

variable {b : Block} {n : Nat}

theorem before_eq_ok (h : n ≤ b.insts.length) : b.before n = .ok (b.insts.take n) := if_pos h

theorem shallow_before (b : Block) (n : Nat) : (b.before n).Shallow := by
  unfold before
  split <;> nofun

end Block

namespace Program

variable (p : Program)

theorem shallow_blockOf (i : InstId) : (p.blockOf i).Shallow :=
  (p.shallow_inst i).bind fun _ _ => shallow_ok _

theorem shallow_position (i : InstId) : (p.position i).Shallow := by
  unfold position
  split <;> nofun

theorem shallow_terminatorOp? (b : BlockId) : (p.terminatorOp? b).Shallow := by
  have hlast : (p.terminator? b).Shallow := by
    refine (p.shallow_block b).bind fun x _ => ?_
    cases x.insts.getLast? with
    | none => exact shallow_ok _
    | some last => exact (p.shallow_op last).bind fun _ _ => shallow_ok _
  refine hlast.bind fun last? _ => ?_
  cases last? with
  | none => exact shallow_ok _
  | some last => exact (p.shallow_op last).bind fun _ _ => shallow_ok _

theorem shallow_instsIn (f : FuncId) : (p.instsIn f).Shallow := by
  refine (p.shallow_function f).bind fun function _ => ?_
  refine (shallow_mapM fun b _ => ?_).bind fun _ _ => shallow_ok _
  exact (p.shallow_block b).bind fun _ _ => shallow_ok _

theorem shallow_returnsIn (f : FuncId) : (p.returnsIn f).Shallow :=
  (p.shallow_instsIn f).bind fun _ _ =>
    shallow_filterM fun i _ => (p.shallow_op i).bind fun _ _ => shallow_ok _

theorem shallow_stripFrom (steps : Nat) (v : Value) (offset : Int) :
    (p.stripFrom steps v offset).Shallow := by
  induction steps generalizing v offset with
  | zero => exact shallow_ok _
  | succ steps ih =>
    refine (p.shallow_opOf? v).bind fun op _ => ?_
    split
    · exact ih _ _
    · exact ih _ _
    · exact shallow_ok _

theorem shallow_isIdentified (v : Value) : (p.isIdentified v).Shallow := by
  cases v with
  | inst id => exact (p.shallow_op id).bind fun _ _ => shallow_ok _
  | _ => exact shallow_ok _

end Program

theorem Slice.shallow_get (s : Slice) (i : Nat) : (s.get i).Shallow := by
  unfold get
  split <;> nofun

namespace AliasOracle

/-- An oracle whose answers do not run out of depth. -/
def Shallow (mayAlias : AliasOracle) : Prop := ∀ p a b, (mayAlias p a b).Shallow

theorem shallow_basic : basic.Shallow := by
  intro p a b
  unfold basic
  split
  · exact shallow_ok _
  · refine (p.shallow_stripFrom _ a 0).bind fun x _ => ?_
    refine (p.shallow_stripFrom _ b 0).bind fun y _ => ?_
    dsimp only
    split
    · exact shallow_ok _
    · refine (p.shallow_isIdentified x.1).bind fun known _ => ?_
      split
      · exact (p.shallow_isIdentified y.1).bind fun _ _ => shallow_ok _
      · exact shallow_ok _

end AliasOracle

namespace Resolver

variable (r : Resolver)

theorem shallow_earlierInBlock (origin : InstId) : (r.earlierInBlock origin).Shallow :=
  (r.program.shallow_blockOf origin).bind fun b _ => (r.program.shallow_block b).bind fun x _ =>
    (r.program.shallow_position origin).bind fun n _ => (x.shallow_before n).bind fun _ _ =>
      shallow_ok _

theorem shallow_earlierPositions (origin : InstId) : (r.earlierPositions origin).Shallow := by
  refine (r.program.shallow_blockOf origin).bind fun b _ => ?_
  split <;> exact shallow_ok _

theorem shallow_instsAt (n : Nat) : (r.instsAt n).Shallow :=
  (r.slice.shallow_get n).bind fun b _ => (r.program.shallow_block b).bind fun _ _ => shallow_ok _

theorem shallow_findBack {α : Type} {origin : InstId} {visit : InstId → Checked (Option α)}
    (h : ∀ i, (visit i).Shallow) : (r.findBack origin visit).Shallow := by
  refine (r.shallow_earlierInBlock origin).bind fun insts _ => ?_
  refine (shallow_findSomeM? fun i _ => h i).bind fun found _ => ?_
  cases found with
  | some x => exact shallow_ok _
  | none =>
    refine (r.shallow_earlierPositions origin).bind fun ns _ => ?_
    exact shallow_findSomeM? fun n _ =>
      (r.shallow_instsAt n).bind fun _ _ => shallow_findSomeM? fun i _ => h i

theorem shallow_before (origin : InstId) : (r.before origin).Shallow :=
  (r.shallow_earlierInBlock origin).bind fun _ _ =>
    (r.shallow_earlierPositions origin).bind fun _ _ =>
      (shallow_mapM fun n _ => r.shallow_instsAt n).bind fun _ _ => shallow_ok _

variable {r}

theorem shallow_isGepAlias (hr : r.mayAlias.Shallow) (base : Value) (offset : Int) (i : InstId) :
    (r.isGepAlias base offset i).Shallow := by
  refine (r.program.shallow_op i).bind fun op _ => ?_
  split
  · refine (r.program.shallow_stripFrom _ _ 0).bind fun x _ => ?_
    dsimp only
    split
    · exact hr _ _ _
    · exact shallow_ok _
  · exact shallow_ok _

theorem shallow_storedValue? (hr : r.mayAlias.Shallow) (load : InstId) (ptr : Value) :
    (r.storedValue? load ptr).Shallow := by
  have haddresses : (r.addressesOf load ptr).Shallow := by
    refine (r.program.shallow_opOf? ptr).bind fun op _ => ?_
    split
    · refine (r.shallow_before load).bind fun insts _ => ?_
      refine (shallow_filterM fun i _ => ?_).bind fun _ _ => shallow_ok _
      exact (r.program.shallow_op i).bind fun _ _ => shallow_ok _
    · refine (r.program.shallow_stripFrom _ ptr 0).bind fun x _ => ?_
      refine (r.shallow_before load).bind fun insts _ => ?_
      exact (shallow_filterM fun i _ => shallow_isGepAlias hr x.1 x.2 i).bind fun _ _ =>
        shallow_ok _
    · exact shallow_ok _
  refine haddresses.bind fun addresses _ => r.shallow_findBack fun i => ?_
  refine (r.program.shallow_op i).bind fun op _ => ?_
  split <;> exact shallow_ok _

end Resolver

end ErrorReturns
