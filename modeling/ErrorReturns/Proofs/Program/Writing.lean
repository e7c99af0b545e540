import ErrorReturns.Program.Draft
import ErrorReturns.Proofs.Checked
import Mathlib.Logic.Relation

/-!
# What writing a program can do

However a program is written, its arenas change only by a handful of elementary edits: a module
or a function is added, the description of a function changes, an empty block is added to a
function, an instruction is added at the end of a block, and a phi gets new incoming values.
`Arena.Edit` lists them, and `Program.edits_of_build` says that every program is made by such
edits from empty arenas and is then frozen. An invariant of programs is an invariant of the six
edits.
-/

namespace ErrorReturns

open Relation (ReflTransGen)

namespace Arena

/-- **An elementary edit of the arenas.** -/
inductive Edit : Arena → Arena → Prop
  | addModule (a : Arena) (name : String) :
    Edit a { a with modules := a.modules.push ⟨name, []⟩ }
  | declare (a : Arena) (f : Function) (hm : f.module.index < a.modules.size)
      (hb : f.blocks = []) :
    Edit a { a with
      modules := a.modules.modify f.module.index fun m =>
        { m with functions := m.functions ++ [⟨a.functions.size⟩] }
      functions := a.functions.push f }
  /-- Only what is known about the function beside its body changes. -/
  | describe (a : Arena) (f : FuncId) (g : Function → Function) (hf : f.index < a.functions.size)
      (hg : ∀ x, { g x with attrs := x.attrs, retTypeName := x.retTypeName, loc := x.loc } = x) :
    Edit a { a with functions := a.functions.modify f.index g }
  | addBlock (a : Arena) (f : FuncId) (hf : f.index < a.functions.size) :
    Edit a { a with
      functions := a.functions.modify f.index fun g =>
        { g with blocks := g.blocks ++ [⟨a.blocks.size⟩] }
      blocks := a.blocks.push ⟨f, []⟩ }
  | addInst (a : Arena) (i : Inst) (hb : i.block.index < a.blocks.size) :
    Edit a { a with
      blocks := a.blocks.modify i.block.index fun b =>
        { b with insts := b.insts ++ [⟨a.insts.size⟩] }
      insts := a.insts.push i }
  | setIncoming (a : Arena) (id : InstId) (incoming : List (BlockId × Value))
      (hi : id.index < a.insts.size) :
    Edit a { a with
      insts := a.insts.modify id.index fun i =>
        { i with op := Draft.setIncoming incoming i.op } }

/-! ## Looking up -/

theorem function_eq_ok_iff {a : Arena} {id : FuncId} {f : Function} :
    a.function id = .ok f ↔ a.functions[id.index]? = some f := by
  unfold function
  split <;> simp [*]

theorem module_eq_ok_iff {a : Arena} {id : ModuleId} {m : Module} :
    a.module id = .ok m ↔ a.modules[id.index]? = some m := by
  unfold module
  split <;> simp [*]

theorem block_eq_ok_iff {a : Arena} {id : BlockId} {b : Block} :
    a.block id = .ok b ↔ a.blocks[id.index]? = some b := by
  unfold block
  split <;> simp [*]

theorem inst_eq_ok_iff {a : Arena} {id : InstId} {i : Inst} :
    a.inst id = .ok i ↔ a.insts[id.index]? = some i := by
  unfold inst
  split <;> simp [*]

theorem exists_block_eq_ok {a : Arena} {id : BlockId} (h : id.index < a.blocks.size) :
    ∃ b, a.block id = .ok b :=
  ⟨a.blocks[id.index], block_eq_ok_iff.mpr (Array.getElem?_eq_getElem h)⟩

theorem exists_op_eq_ok {a : Arena} {id : InstId} (h : id.index < a.insts.size) :
    ∃ op, a.op id = .ok op := by
  refine ⟨a.insts[id.index].op, ?_⟩
  rw [op, inst_eq_ok_iff.mpr (Array.getElem?_eq_getElem h)]
  rfl

/-! ## Changes -/

theorem modifyFunction_eq_ok {a a' : Arena} {id : FuncId} {f : Function → Function}
    (h : a.modifyFunction id f = .ok a') :
    id.index < a.functions.size ∧ a' = { a with functions := a.functions.modify id.index f } := by
  obtain ⟨x, hx, h⟩ := Checked.bind_eq_ok_iff.mp h
  exact ⟨(Array.getElem?_eq_some_iff.mp (function_eq_ok_iff.mp hx)).1, (Except.ok.inj h).symm⟩

theorem modifyModule_eq_ok {a a' : Arena} {id : ModuleId} {f : Module → Module}
    (h : a.modifyModule id f = .ok a') :
    id.index < a.modules.size ∧ a' = { a with modules := a.modules.modify id.index f } := by
  obtain ⟨x, hx, h⟩ := Checked.bind_eq_ok_iff.mp h
  exact ⟨(Array.getElem?_eq_some_iff.mp (module_eq_ok_iff.mp hx)).1, (Except.ok.inj h).symm⟩

theorem edit_of_addBlock {a a' : Arena} {f : FuncId} {b : BlockId}
    (h : a.addBlock f = .ok (a', b)) : Edit a a' := by
  obtain ⟨x, hx, h⟩ := Checked.bind_eq_ok_iff.mp h
  obtain ⟨hf, rfl⟩ := modifyFunction_eq_ok hx
  obtain ⟨rfl, -⟩ := Prod.mk.inj (Except.ok.inj h)
  exact .addBlock a f hf

theorem edit_of_addInst {a a' : Arena} {i : Inst} (h : a.addInst i = .ok a') : Edit a a' := by
  obtain ⟨x, hx, h⟩ := Checked.bind_eq_ok_iff.mp h
  simp only [modifyBlock, Checked.bind_eq_ok_iff, Checked.pure_eq_ok, Except.ok.injEq] at hx
  obtain ⟨b, hb, rfl⟩ := hx
  obtain rfl := Except.ok.inj h
  exact .addInst a i (Array.getElem?_eq_some_iff.mp (block_eq_ok_iff.mp hb)).1

theorem edit_of_modifyOp {a a' : Arena} {id : InstId} {incoming : List (BlockId × Value)}
    (h : a.modifyOp id (Draft.setIncoming incoming) = .ok a') : Edit a a' := by
  simp only [modifyOp, Checked.bind_eq_ok_iff, Checked.pure_eq_ok, Except.ok.injEq] at h
  obtain ⟨i, hi, rfl⟩ := h
  exact .setIncoming a id incoming (Array.getElem?_eq_some_iff.mp (inst_eq_ok_iff.mp hi)).1

end Arena

namespace Draft

/-- An instruction is added to the current block, after a block if there is none yet. -/
theorem edits_of_push {d d' : Draft} {op : Operation} {ty : Ty} (h : d.push op ty = .ok d') :
    ReflTransGen Arena.Edit d.arena d'.arena := by
  unfold push at h
  split at h
  · simp only [Checked.bind_eq_ok_iff, Checked.pure_eq_ok, Except.ok.injEq] at h
    obtain ⟨a, ha, rfl⟩ := h
    exact .single (Arena.edit_of_addInst ha)
  · simp only [Checked.bind_eq_ok_iff, Checked.pure_eq_ok, Except.ok.injEq] at h
    obtain ⟨⟨a, b⟩, hb, a', ha, rfl⟩ := h
    exact (ReflTransGen.single (Arena.edit_of_addBlock hb)).tail (Arena.edit_of_addInst ha)

/-- **Every directive of a body is a sequence of edits.** -/
theorem edits_of_step {d d' : Draft} {s : BodyDirective} (h : d.step s = .ok d') :
    ReflTransGen Arena.Edit d.arena d'.arena := by
  cases s with
  | block =>
    simp only [step, Checked.bind_eq_ok_iff, Checked.pure_eq_ok, Except.ok.injEq] at h
    obtain ⟨⟨a, b⟩, hb, rfl⟩ := h
    exact .single (Arena.edit_of_addBlock hb)
  | moveTo b =>
    obtain rfl := Except.ok.inj h
    exact .refl
  | setLoc loc =>
    obtain rfl := Except.ok.inj h
    exact .refl
  | setPhi phi incoming =>
    cases phi with
    | inst id =>
      simp only [step, Checked.bind_eq_ok_iff, Checked.pure_eq_ok, Except.ok.injEq] at h
      obtain ⟨a, ha, rfl⟩ := h
      exact .single (Arena.edit_of_modifyOp ha)
    | arg | const | null | func | global | undef =>
      obtain rfl := Except.ok.inj h
      exact .refl
  -- these ask for a function or a type first, and then add an instruction
  | call | freeze | select | binop | switch =>
    obtain ⟨x, -, h⟩ := Checked.bind_eq_ok_iff.mp h
    exact edits_of_push h
  | callIndirect | inlineAsm | load | store | alloca | gep | cast | cmp | phi | extract | jump
  | branch | switchOn | ret | unreachable | inst => exact edits_of_push h

theorem edits_of_foldlM {body : List BodyDirective} {d d' : Draft}
    (h : body.foldlM step d = .ok d') : ReflTransGen Arena.Edit d.arena d'.arena := by
  induction body generalizing d with
  | nil =>
    obtain rfl := Except.ok.inj h
    exact .refl
  | cons s rest ih =>
    rw [List.foldlM_cons] at h
    obtain ⟨m, hm, h⟩ := Checked.bind_eq_ok_iff.mp h
    exact (edits_of_step hm).trans (ih h)

end Draft

namespace Arena

/-- So is every directive of a program. -/
theorem edits_of_step {a a' : Arena} {d : Directive} (h : a.step d = .ok a') :
    ReflTransGen Edit a a' := by
  cases d with
  | module name =>
    obtain rfl := Except.ok.inj h
    exact .single (.addModule a name)
  | declare m name params ret =>
    obtain ⟨x, hx, h⟩ := Checked.bind_eq_ok_iff.mp h
    obtain ⟨hm, rfl⟩ := modifyModule_eq_ok hx
    obtain rfl := Except.ok.inj h
    exact .single (.declare a { name, module := m, params, ret } hm rfl)
  | setAttributes f attrs =>
    obtain ⟨hf, rfl⟩ := modifyFunction_eq_ok h
    exact .single (.describe a f _ hf fun _ => rfl)
  | setRetTypeName f name =>
    obtain ⟨hf, rfl⟩ := modifyFunction_eq_ok h
    exact .single (.describe a f _ hf fun _ => rfl)
  | setFunctionLoc f loc =>
    obtain ⟨hf, rfl⟩ := modifyFunction_eq_ok h
    exact .single (.describe a f _ hf fun _ => rfl)
  | define f body =>
    simp only [step, Checked.bind_eq_ok_iff, Checked.pure_eq_ok, Except.ok.injEq] at h
    obtain ⟨d, hd, rfl⟩ := h
    exact Draft.edits_of_foldlM hd

/-- **A program is written by edits alone.** -/
theorem edits_of_foldlM {ds : List Directive} {a a' : Arena} (h : ds.foldlM step a = .ok a') :
    ReflTransGen Edit a a' := by
  induction ds generalizing a with
  | nil =>
    obtain rfl := Except.ok.inj h
    exact .refl
  | cons d rest ih =>
    rw [List.foldlM_cons] at h
    obtain ⟨m, hm, h⟩ := Checked.bind_eq_ok_iff.mp h
    exact (edits_of_step hm).trans (ih h)

/-- What freezing adds to the arenas. -/
theorem freeze_eq_ok {a : Arena} {p : Program} (h : a.freeze = .ok p) :
    p.toArena = a ∧ p.successorsOf = a.successors ∧
      p.predecessorsOf = reverseEdges a.successors ∧ a.users = .ok p.usersOf ∧
      p.positionOf = a.positions := by
  simp only [freeze, Checked.bind_eq_ok_iff, Checked.pure_eq_ok, Except.ok.injEq] at h
  obtain ⟨us, hus, rfl⟩ := h
  exact ⟨rfl, rfl, rfl, hus, rfl⟩

end Arena

namespace Program

/-- **Every program comes about by edits**: its arenas are made from empty ones, and are then
frozen. -/
theorem edits_of_build {ds : List Directive} {p : Program} (h : build ds = .ok p) :
    ReflTransGen Arena.Edit {} p.toArena ∧ p.toArena.freeze = .ok p := by
  obtain ⟨a, ha, h⟩ := Checked.bind_eq_ok_iff.mp h
  obtain ⟨rfl, -⟩ := Arena.freeze_eq_ok h
  exact ⟨Arena.edits_of_foldlM ha, h⟩

end Program

end ErrorReturns
