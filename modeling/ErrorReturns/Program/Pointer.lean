import ErrorReturns.Program.Basic

/-!
# Addresses

An address is followed to the object it was computed from, through bitcasts and offsets
that are known. Whether two addresses may be the same is asked of an oracle; the one
given here compares objects and offsets.
-/

namespace ErrorReturns

namespace Program

variable (p : Program)

/-- Follow an address for at most `steps` steps, adding up the offsets as 64-bit words. -/
def stripFrom : (steps : Nat) → (v : Value) → (offset : Int) → Checked (Value × Int)
  | 0, v, offset => return (v, offset)
  | steps + 1, v, offset => do
    match ← p.opOf? v with
    | some (.gep base (some o)) => stripFrom steps base (Word.wrapSigned 64 (offset + o))
    | some (.cast .bitcast inner) => stripFrom steps inner offset
    | _ => return (v, offset)

/-- **The object behind an address** and the offset from it. An address that is computed from
itself is followed once for each instruction and once more. -/
def stripOffsets (v : Value) : Checked (Value × Int) := p.stripFrom (p.insts.size + 1) v 0

/-- Whether an address is an object that no other object overlaps. -/
def isIdentified (v : Value) : Checked Bool := do
  match v with
  | .null | .func _ | .global _ => return true
  | .inst i => return ((← p.op i) matches .alloca)
  | _ => return false

end Program

/-- Whether two addresses may be the same. -/
abbrev AliasOracle := Program → Value → Value → Checked Bool

namespace AliasOracle

/-- **Comparing objects and offsets.** Addresses in one object are the same if their offsets
are; addresses in two identified objects differ; any others may be the same. -/
def basic : AliasOracle := fun p a b => do
  if a = b then return true
  let (baseA, offsetA) ← p.stripOffsets a
  let (baseB, offsetB) ← p.stripOffsets b
  if baseA = baseB then return offsetA == offsetB
  if ← p.isIdentified baseA then return !(← p.isIdentified baseB)
  return true

/-- Any two addresses may be the same. -/
def always : AliasOracle := fun _ _ _ => return true

/-- Only one and the same operand is the same address. -/
def identical : AliasOracle := fun _ a b => return a = b

end AliasOracle

end ErrorReturns
