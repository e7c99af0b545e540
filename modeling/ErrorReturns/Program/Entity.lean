/-!
# Names of the parts of a program

Modules, functions, blocks and instructions live in flat arenas and are named by their
places there, counted over the whole program. A name may point outside its arena: what
then happens is decided where it is looked up.
-/

namespace ErrorReturns

open Std

/-- A module of the program. -/
structure ModuleId where
  index : Nat
deriving DecidableEq, Repr, Inhabited

/-- A function, declared or defined. -/
structure FuncId where
  index : Nat
deriving DecidableEq, Repr, Inhabited

/-- A basic block. -/
structure BlockId where
  index : Nat
deriving DecidableEq, Repr, Inhabited

/-- An instruction, which also names its result. -/
structure InstId where
  index : Nat
deriving DecidableEq, Repr, Inhabited

instance : Ord ModuleId := ⟨fun a b => compare a.index b.index⟩
instance : Ord FuncId := ⟨fun a b => compare a.index b.index⟩
instance : Ord BlockId := ⟨fun a b => compare a.index b.index⟩
instance : Ord InstId := ⟨fun a b => compare a.index b.index⟩

instance : TransOrd ModuleId := inferInstanceAs (TransCmp (compareOn ModuleId.index))
instance : TransOrd FuncId := inferInstanceAs (TransCmp (compareOn FuncId.index))
instance : TransOrd BlockId := inferInstanceAs (TransCmp (compareOn BlockId.index))
instance : TransOrd InstId := inferInstanceAs (TransCmp (compareOn InstId.index))

/-- Functions are written `fn0`, `fn1`, … -/
def FuncId.render (f : FuncId) : String := s!"fn{f.index}"

/-- Blocks are written `bb0`, `bb1`, … -/
def BlockId.render (b : BlockId) : String := s!"bb{b.index}"

/-- Instructions are written `%0`, `%1`, … -/
def InstId.render (i : InstId) : String := s!"%{i.index}"

end ErrorReturns
